import AccessTrace.Proofs.Word
import AccessTrace.TraceFile.Writer

/-!
Reading blocks one after another. A block is returned exactly when it stands framed at the front of
what is left; the reading ends without a fault exactly when nothing is left.
-/

namespace AccessTrace.TraceFile

theorem length_frame (payload : Bytes) : (frame payload).length = 8 + payload.length := by
  simp [frame]

def declared (bytes : Bytes) : Int :=
  Word.signed (Word.decode (bytes.take 8))

theorem declared_frame {payload : Bytes} (h : payload.length < 2 ^ 63) (rest : Bytes) :
    declared (frame payload ++ rest) = payload.length := by
  have hfield : (frame payload ++ rest).take 8 = Word.encode (UInt64.ofNat payload.length) := by
    rw [frame, List.append_assoc, List.take_left' (Word.length_encode _)]
  rw [declared, hfield, Word.decode_encode, Word.signed_ofNat h]

namespace Blocks

theorem next_eq (s : Blocks) :
    s.next.1 =
      if s.rest = [] then .ok none
      else if s.rest.length < 8 then .error (.truncatedBlock s.offset 8 s.rest.length)
      else if declared s.rest < 0 then .error (.negativeLength (declared s.rest) s.offset)
      else if s.rest.length < 8 + declared s.rest then
        .error (.truncatedBlock s.offset (declared s.rest).toNat (s.rest.length - 8))
      else .ok (some ⟨s.offset, (s.rest.drop 8).take (declared s.rest).toNat⟩) := by
  by_cases hwhole : 8 ≤ s.rest.length
  · have hne : s.rest ≠ [] := by
      intro h
      simp [h] at hwhole
    have hfield : splitExactly? 8 s.rest = some (s.rest.take 8, s.rest.drop 8) := by
      rw [splitExactly?_eq, if_pos hwhole]
    have hlength : Word.signed (Word.decode (s.rest.take 8)) = declared s.rest := rfl
    rw [if_neg hne, if_neg (Nat.not_lt.2 hwhole)]
    simp only [next, hfield, hlength]
    by_cases hsign : declared s.rest < 0
    · simp only [if_pos hsign]
    · simp only [if_neg hsign]
      rw [splitExactly?_eq, List.length_drop]
      by_cases hshort : s.rest.length < 8 + declared s.rest
      · rw [if_neg (by omega), if_pos hshort]
      · rw [if_pos (by omega), if_neg hshort]
  · have hfield : splitExactly? 8 s.rest = none := by
      rw [splitExactly?_eq, if_neg hwhole]
    simp only [next, hfield, List.isEmpty_iff]
    by_cases hne : s.rest = []
    · rw [if_pos hne, if_pos hne]
    · rw [if_neg hne, if_neg hne, if_pos (Nat.lt_of_not_le hwhole)]

variable {s t : Blocks} {raw : RawBlock}

theorem next_frame (offset : Nat) {payload : Bytes} (h : payload.length < 2 ^ 63) (rest : Bytes) :
    next { offset, rest := frame payload ++ rest } =
      (.ok (some { fileOffset := offset, payload }),
        { offset := offset + 8 + payload.length, rest }) := by
  have hfield : splitExactly? 8 (frame payload ++ rest) =
      some (Word.encode (UInt64.ofNat payload.length), payload ++ rest) := by
    rw [frame, List.append_assoc, ← Word.length_encode (UInt64.ofNat payload.length),
      splitExactly?_append]
  have hlength : ¬(payload.length : Int) < 0 := by omega
  simp only [next, hfield, Word.decode_encode, Word.signed_ofNat h, hlength, if_false,
    Int.toNat_natCast, splitExactly?_append]

theorem next_eq_some_iff :
    s.next = (.ok (some raw), t) ↔
      raw.fileOffset = s.offset ∧ raw.payload.length < 2 ^ 63 ∧
        s.rest = frame raw.payload ++ t.rest ∧ t.offset = s.offset + 8 + raw.payload.length := by
  constructor
  · intro h
    unfold next at h
    split at h
    · split at h <;> simp at h
    · rename_i field rest hfield
      obtain ⟨hrest, hwidth⟩ := eq_append_of_splitExactly? hfield
      dsimp only at h
      split at h
      · simp at h
      · rename_i hsign
        split at h
        · simp at h
        · rename_i payload behind hpayload
          obtain ⟨rfl, hlength⟩ := eq_append_of_splitExactly? hpayload
          obtain ⟨hword, hbound⟩ := Word.ofNat_toNat_signed (Int.not_lt.1 hsign)
          simp only [Prod.mk.injEq, Except.ok.injEq, Option.some.injEq] at h
          obtain ⟨rfl, rfl⟩ := h
          refine ⟨rfl, hlength ▸ hbound, ?_, by rw [hlength]⟩
          rw [hrest, frame, hlength, hword, Word.encode_decode hwidth, List.append_assoc]
  · rintro ⟨hoffset, hlength, hrest, hbehind⟩
    obtain ⟨offset, rest⟩ := s
    obtain ⟨behind, tail⟩ := t
    dsimp only at hoffset hrest hbehind
    rw [hrest, next_frame offset hlength, hbehind, ← hoffset]

theorem next_eq_none_iff : s.next = (.ok none, t) ↔ s.rest = [] ∧ t = s := by
  constructor
  · intro h
    unfold next at h
    split at h
    · split at h
      · rename_i hempty
        exact ⟨List.isEmpty_iff.1 hempty, (Prod.mk.inj h).2.symm⟩
      · simp at h
    · dsimp only at h
      repeat' split at h
      all_goals simp at h
  · rintro ⟨hrest, rfl⟩
    simp [next, hrest, splitExactly?_eq]

/-- The blocks that reading on and on returns, and the fault that ends it, if any. -/
def remaining (s : Blocks) : List RawBlock × Option Error :=
  match h : s.next with
  | (.error e, _) => ([], some e)
  | (.ok none, _) => ([], none)
  | (.ok (some raw), t) =>
    have := length_lt_of_next h
    (raw :: t.remaining.1, t.remaining.2)
termination_by s.rest.length

theorem remaining_of_error {e : Error} (h : s.next = (.error e, t)) :
    s.remaining = ([], some e) := by
  rw [remaining]
  split <;> simp_all

theorem remaining_of_none (h : s.next = (.ok none, t)) : s.remaining = ([], none) := by
  rw [remaining]
  split <;> simp_all

theorem remaining_of_some (h : s.next = (.ok (some raw), t)) :
    s.remaining = (raw :: t.remaining.1, t.remaining.2) := by
  rw [remaining]
  split <;> simp_all

end Blocks

end AccessTrace.TraceFile
