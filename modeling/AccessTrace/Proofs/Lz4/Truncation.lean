import AccessTrace.Proofs.Computation
import AccessTrace.Proofs.Payload

/-!
Payloads that are cut short. What a decoder reads from the front of a block it reads in the same way
when more bytes follow, and where the cut block ends, the whole one goes on with a match. So a cut
payload that can be read at all gives less than the whole one.
-/

namespace AccessTrace

namespace Lz4

variable {fits : Nat → Bool} {nibble n : Nat} {out out' final cut whole : Array UInt8}
variable {input rest : Bytes}

theorem readExtension_append {total : Nat} (h : readExtension total input = .ok (n, rest))
    (tail : Bytes) : readExtension total (input ++ tail) = .ok (n, rest ++ tail) := by
  induction input generalizing total with
  | nil => contradiction
  | cons b input ih =>
    rw [readExtension] at h
    rw [List.cons_append, readExtension]
    split at h
    · rename_i hfull
      rw [if_pos hfull]
      exact ih h
    · rename_i hlast
      obtain ⟨rfl, rfl⟩ := Prod.mk.inj (Except.ok.inj h)
      rw [if_neg hlast]

theorem readLength_append (h : readLength nibble input = .ok (n, rest)) (tail : Bytes) :
    readLength nibble (input ++ tail) = .ok (n, rest ++ tail) := by
  rw [readLength] at h ⊢
  split at h
  · rename_i hlong
    rw [if_pos hlong]
    exact readExtension_append h tail
  · rename_i hshort
    obtain ⟨rfl, rfl⟩ := Prod.mk.inj (Except.ok.inj h)
    rw [if_neg hshort]

theorem toList_copyBack (offset length : Nat) (out : Array UInt8) :
    ∃ copied, copied.length = length ∧
      (copyBack offset length out).toList = out.toList ++ copied := by
  induction length generalizing out with
  | zero => exact ⟨[], rfl, (List.append_nil _).symm⟩
  | succ length ih =>
    obtain ⟨copied, hlength, hcopied⟩ := ih (out.push (out.getD (out.size - offset) 0))
    refine ⟨out.getD (out.size - offset) 0 :: copied, congrArg Nat.succ hlength, ?_⟩
    rw [copyBack, hcopied, Array.toList_push, List.append_assoc, List.singleton_append]

theorem readMatch_append (h : readMatch fits nibble out input = .ok (.more out' rest)) :
    (∀ tail, readMatch fits nibble out (input ++ tail) = .ok (.more out' (rest ++ tail))) ∧
      ∃ copied, copied ≠ [] ∧ out'.toList = out.toList ++ copied := by
  obtain ⟨low, high, behind, extra, rfl, hoffset, hstart, hlength, hfits, rfl⟩ :=
    exists_of_readMatch h
  constructor
  · intro tail
    rw [List.cons_append, List.cons_append, readMatch_eq, if_neg hoffset,
      readLength_append hlength tail]
    simp only [hfits, Nat.not_lt.2 hstart, Bool.true_eq_false, if_false]
  · obtain ⟨copied, hcount, hcopied⟩ :=
      toList_copyBack (low.toNat + 256 * high.toNat) (extra + 4) out
    exact ⟨copied, fun hnil => by simp [hnil] at hcount, hcopied⟩

theorem readSequence_append {step : Step} (h : readSequence fits out input = .ok step) :
    ∃ (nibble : Nat) (literals rest : Bytes),
      readMatch fits nibble (out ++ literals) rest = .ok step ∧ ∀ tail,
        readSequence fits out (input ++ tail) =
          readMatch fits nibble (out ++ literals) (rest ++ tail) := by
  obtain ⟨token, behind, literals, rest, rfl, hcount, hfits, hmatch⟩ := exists_of_readSequence h
  refine ⟨token.toNat % 16, literals, rest, hmatch, fun tail => ?_⟩
  rw [List.cons_append, readSequence_eq, readLength_append hcount tail]
  simp only [List.append_assoc, splitExactly?_append, hfits, Bool.true_eq_false, if_false]

theorem step_of_decodeFrom (h : decodeFrom fits out input = .ok final) :
    readSequence fits out input = .ok (.finished final) ∨
      ∃ out' rest, readSequence fits out input = .ok (.more out' rest) ∧
        decodeFrom fits out' rest = .ok final := by
  cases hstep : readSequence fits out input with
  | error e => simp [decodeFrom_of_error hstep] at h
  | ok step =>
    cases step with
    | finished out' =>
      rw [decodeFrom_of_finished hstep, Except.ok.injEq] at h
      exact .inl (h ▸ rfl)
    | more out' rest =>
      rw [decodeFrom_of_more hstep] at h
      exact .inr ⟨out', rest, rfl, h⟩

theorem prefix_of_decodeFrom (h : decodeFrom fits out input = .ok final) :
    out.toList <+: final.toList := by
  fun_induction decodeFrom fits out input with
  | case1 => contradiction
  | case2 out input out' hstep =>
    obtain rfl := Except.ok.inj h
    obtain ⟨nibble, literals, rest, hmatch, -⟩ := readSequence_append hstep
    obtain ⟨-, rfl⟩ := eq_nil_of_readMatch hmatch
    rw [Array.toList_appendList]
    exact List.prefix_append _ _
  | case3 out input out' rest hstep _ ih =>
    obtain ⟨nibble, literals, rest, hmatch, -⟩ := readSequence_append hstep
    obtain ⟨-, copied, -, hcopied⟩ := readMatch_append hmatch
    refine List.IsPrefix.trans ?_ (ih h)
    rw [hcopied, Array.toList_appendList, List.append_assoc]
    exact List.prefix_append _ _

/-- The whole block goes on where the cut one ends, behind its last literals, and that is with a
match. -/
theorem exists_append_of_cut {tail : Bytes} (hne : tail ≠ [])
    (hcut : decodeFrom fits out input = .ok cut)
    (hwhole : decodeFrom fits out (input ++ tail) = .ok whole) :
    ∃ more, more ≠ [] ∧ whole.toList = cut.toList ++ more := by
  fun_induction decodeFrom fits out input with
  | case1 => contradiction
  | case2 out input out' hstep =>
    obtain rfl := Except.ok.inj hcut
    obtain ⟨nibble, literals, rest, hmatch, hsequence⟩ := readSequence_append hstep
    obtain ⟨rfl, rfl⟩ := eq_nil_of_readMatch hmatch
    have hgoesOn := hsequence tail
    rw [List.nil_append] at hgoesOn
    rcases step_of_decodeFrom hwhole with hfinished | ⟨out', rest, hmore, hrest⟩
    · exact absurd (eq_nil_of_readMatch (hgoesOn.symm.trans hfinished)).1 hne
    · obtain ⟨-, copied, hcopied, heq⟩ := readMatch_append (hgoesOn.symm.trans hmore)
      obtain ⟨later, hlater⟩ := prefix_of_decodeFrom hrest
      refine ⟨copied ++ later, by simp [hcopied], ?_⟩
      rw [← hlater, heq, List.append_assoc]
  | case3 out input out' rest hstep _ ih =>
    obtain ⟨nibble, literals, rest', hmatch, hsequence⟩ := readSequence_append hstep
    have hmore := (hsequence tail).trans ((readMatch_append hmatch).1 tail)
    rw [decodeFrom_of_more hmore] at hwhole
    exact ih hcut hwhole

end Lz4

namespace Block

variable {cut whole : Bytes}

theorem decompressRound_append {round : Nat} {input tail content content' : Bytes} (hne : tail ≠ [])
    (hcut : decompressRound round input = .ok content)
    (hwhole : decompressRound round (input ++ tail) = .ok content') :
    ∃ more, more ≠ [] ∧ content' = content ++ more :=
  Lz4.exists_append_of_cut hne (decompressRound_eq_ok_iff.1 hcut)
    (decompressRound_eq_ok_iff.1 hwhole)

theorem decompress_append {tail content content' : Bytes} (hne : tail ≠ [])
    (hcut : decompress cut = .ok content) (hwhole : decompress (cut ++ tail) = .ok content') :
    ∃ more, more ≠ [] ∧ content' = content ++ more := by
  obtain ⟨inner, hinner, hcut⟩ := exists_of_bind_eq_ok hcut
  obtain ⟨inner', hinner', hwhole⟩ := exists_of_bind_eq_ok hwhole
  obtain ⟨more, hmore, rfl⟩ := decompressRound_append hne hinner hinner'
  exact decompressRound_append hmore hcut hwhole

/-- A payload that is cut short gives a part of its content that is cut short, if it gives any, and
never what was compressed. -/
theorem decompress_of_cut (hcut : cut <+: whole) (hne : cut ≠ whole) :
    (∀ content content', decompress whole = .ok content → decompress cut = .ok content' →
        content' <+: content ∧ content' ≠ content) ∧
      ∀ compress content, Lz4.Inverts compress → whole = Block.compress content compress →
        decompress cut ≠ .ok content := by
  obtain ⟨tail, rfl⟩ := hcut
  have htail : tail ≠ [] := by
    rintro rfl
    exact hne (List.append_nil cut).symm
  have hproper (content content' : Bytes) (hwhole : decompress (cut ++ tail) = .ok content)
      (hcut : decompress cut = .ok content') : content' <+: content ∧ content' ≠ content := by
    obtain ⟨more, hmore, rfl⟩ := decompress_append htail hcut hwhole
    exact ⟨List.prefix_append _ _, fun heq => hmore (List.self_eq_append_right.1 heq)⟩
  refine ⟨hproper, fun compress content hinverts hcompressed hcut => ?_⟩
  have hwhole := decompress_compress hinverts content
  rw [← hcompressed] at hwhole
  exact (hproper content content hwhole hcut).2 rfl

/-- Cut in front of the match of the outer round: the inner round sees its literals and not the
match behind them. -/
theorem decompress_of_cut_before_match :
    let whole : Bytes := [0x50, 0x40, 1, 0, 0x10, 7, 4, 0, 0]
    decompress whole = .ok [1, 0, 0x10, 7, 7, 7, 7, 7, 7] ∧
      decompress (whole.take 6) = .ok [1, 0, 0x10, 7] ∧
      ([1, 0, 0x10, 7] : Bytes) <+: [1, 0, 0x10, 7, 7, 7, 7, 7, 7] ∧
      decompress ((Block.compress [1, 0]).take 3) ≠ .ok [1, 0] := by
  intro whole
  obtain ⟨hproper, -⟩ := decompress_of_cut (List.take_prefix 6 whole) (by decide)
  obtain ⟨-, hnever⟩ := decompress_of_cut (List.take_prefix 3 (Block.compress [1, 0]))
    (by decide +kernel)
  have hwhole : decompress whole = .ok [1, 0, 0x10, 7, 7, 7, 7, 7, 7] := by cbv
  have hcut : decompress (whole.take 6) = .ok [1, 0, 0x10, 7] := by cbv
  exact ⟨hwhole, hcut, (hproper _ _ hwhole hcut).1, hnever _ _ Lz4.encode_inverts rfl⟩

end Block

end AccessTrace
