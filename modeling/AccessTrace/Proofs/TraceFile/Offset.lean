import AccessTrace.Proofs.TraceFile.Framing
import AccessTrace.Proofs.TraceFile.Regions

/-!
Where the blocks stand that are returned behind faults. A negative length uses up its eight bytes
without moving the offset, so that every block behind it is told to stand eight bytes further in
front than it does; no other fault is followed by a block.
-/

namespace AccessTrace.TraceFile.Blocks

variable {s t : Blocks} {raw : RawBlock} {file : Bytes} {refused : Nat}

def answers : Nat → Blocks → List (Except Error (Option RawBlock))
  | 0, _ => []
  | count + 1, s => s.next.1 :: answers count s.next.2

theorem behind_succ (count : Nat) (s : Blocks) : behind (count + 1) s = behind count s.next.2 :=
  rfl

def refusesLength : Except Error (Option RawBlock) → Bool
  | .error (.negativeLength _ _) => true
  | _ => false

def refusedLengths (answers : List (Except Error (Option RawBlock))) : Nat :=
  answers.countP refusesLength

theorem next_cases (s : Blocks) :
    (∃ raw t, s.next = (.ok (some raw), t)) ∨ s.next = (.ok none, s) ∨
      (∃ length, s.next =
        (.error (.negativeLength length s.offset), { s with rest := s.rest.drop 8 })) ∨
      ∃ expected actual, s.next =
        (.error (.truncatedBlock s.offset expected actual), { s with rest := [] }) := by
  unfold next
  split
  · split
    · exact .inr (.inl rfl)
    · exact .inr (.inr (.inr ⟨_, _, rfl⟩))
  · rename_i field rest hfield
    obtain ⟨hrest, hwidth⟩ := eq_append_of_splitExactly? hfield
    dsimp only
    split
    · rw [hrest, List.drop_left' hwidth]
      exact .inr (.inr (.inl ⟨_, rfl⟩))
    · split
      · exact .inr (.inr (.inr ⟨_, _, rfl⟩))
      · exact .inl ⟨_, _, rfl⟩

/-- What is left is nothing, or the file from eight bytes for each refused length behind the offset
on. -/
def Trails (file : Bytes) (refused : Nat) (s : Blocks) : Prop :=
  s.rest = [] ∨ s.rest = file.drop (s.offset + 8 * refused)

theorem Trails.next (h : Trails file refused s) :
    Trails file (refused + refusedLengths [s.next.1]) s.next.2 := by
  rcases s.next_cases with ⟨raw, t, hnext⟩ | hnext | ⟨length, hnext⟩ | ⟨expected, actual, hnext⟩
  · obtain ⟨-, -, hrest, hoffset⟩ := next_eq_some_iff.1 hnext
    rw [hnext]
    rcases h with hnil | hdrop
    · have hlength := congrArg List.length hrest
      rw [hnil, List.length_append, length_frame, List.length_nil] at hlength
      omega
    · refine .inr ?_
      have hframe := length_frame raw.payload
      have hbehind : t.offset + 8 * refused = s.offset + 8 * refused + (frame raw.payload).length := by
        omega
      change t.rest = file.drop (t.offset + 8 * refused)
      rw [hbehind, ← List.drop_drop, ← hdrop, hrest, List.drop_left]
  · rw [hnext]
    exact h
  · rw [hnext]
    rcases h with hnil | hdrop
    · exact .inl (by simp only [hnil, List.drop_nil])
    · refine .inr ?_
      change s.rest.drop 8 = file.drop (s.offset + 8 * (refused + 1))
      rw [hdrop, List.drop_drop, Nat.mul_succ, Nat.add_assoc]
  · rw [hnext]
    exact .inl rfl

theorem Trails.behind (h : Trails file refused s) (count : Nat) :
    Trails file (refused + refusedLengths (s.answers count)) (s.behind count) := by
  induction count generalizing s refused with
  | zero => exact h
  | succ count ih =>
    have hcount : refusedLengths (s.answers (count + 1)) =
        refusedLengths [s.next.1] + refusedLengths (s.next.2.answers count) := by
      rw [answers, ← List.singleton_append, refusedLengths, List.countP_append]
      rfl
    rw [behind_succ, hcount, ← Nat.add_assoc]
    exact ih h.next

/-- A block that is returned behind some answers stands as many times eight bytes behind the offset
that it tells as a negative length was among these. -/
theorem Trails.stands (h : Trails file refused s) (hnext : s.next = (.ok (some raw), t)) :
    file.drop (raw.fileOffset + 8 * refused) = frame raw.payload ++ t.rest ∧
      raw.fileOffset + 8 * refused + s.rest.length = file.length := by
  obtain ⟨hoffset, -, hrest, -⟩ := next_eq_some_iff.1 hnext
  have hlength := congrArg List.length hrest
  rw [List.length_append, length_frame] at hlength
  rcases h with hnil | hdrop
  · rw [hnil, List.length_nil] at hlength
    omega
  · have hdropped := congrArg List.length hdrop
    rw [List.length_drop] at hdropped
    rw [hoffset, ← hdrop]
    exact ⟨hrest, by omega⟩

theorem next_startingAt_of_drop {position : Nat} {payload rest : Bytes}
    (hlength : payload.length < 2 ^ 63) (h : file.drop position = frame payload ++ rest) :
    (startingAt file position).next =
      (.ok (some ⟨position, payload⟩), startingAt file (position + 8 + payload.length)) := by
  rw [startingAt, h, next_frame position hlength, startingAt, Nat.add_assoc position, ← length_frame,
    ← List.drop_drop, h, List.drop_left]

end AccessTrace.TraceFile.Blocks

namespace AccessTrace.TraceFile

open Blocks

/-- The blocks of a file that was opened, or of one that was taken up at an offset. -/
inductive SourceOf (file : Bytes) : Blocks → Prop
  | opened {strict : Bool} {o : Opened} (h : read strict file = .ok o) : SourceOf file o.blocks
  | sought (offset : Nat) : SourceOf file (startingAt file offset)

theorem SourceOf.trails {file : Bytes} {s : Blocks} (h : SourceOf file s) : Trails file 0 s := by
  cases h with
  | opened h =>
    rw [(blocks_of_read h).1]
    exact .inr rfl
  | sought offset => exact .inr rfl

/-- Whatever came before it, a block that is returned stands in the file eight bytes for each
negative length so far behind the offset that it tells, and is found again there; so that its offset
is right exactly when no length was negative. -/
theorem stands_of_next {file : Bytes} {s t : Blocks} {raw : RawBlock} (hsource : SourceOf file s)
    (count : Nat) (h : (s.behind count).next = (.ok (some raw), t)) :
    let refused := refusedLengths (s.answers count)
    let position := raw.fileOffset + 8 * refused
    position + (s.behind count).rest.length = file.length ∧
      file.drop position = frame raw.payload ++ t.rest ∧
      (startingAt file position).next = (.ok (some { raw with fileOffset := position }),
        startingAt file (position + 8 + raw.payload.length)) ∧
      (raw.fileOffset = position ↔ refused = 0) := by
  intro refused position
  have htrails := hsource.trails.behind count
  rw [Nat.zero_add] at htrails
  obtain ⟨hdrop, hlength⟩ := htrails.stands h
  obtain ⟨-, hfits, -, -⟩ := next_eq_some_iff.1 h
  exact ⟨hlength, hdrop, next_startingAt_of_drop hfits hdrop, by omega⟩

theorem exists_read_bare (blocks : Bytes) :
    ∃ opened, read false (encodeHeader [] ++ blocks) = .ok opened ∧ opened.blocks = ⟨9, blocks⟩ := by
  have hplain : ∀ r ∈ ([] : List Region), r.Plain := List.forall_mem_nil _
  obtain ⟨opened, hread, -⟩ := exists_read_encodeHeader false blocks hplain rfl
  obtain ⟨hoffset, hblocks⟩ :=
    blocks_of_read_encodeHeader (fun r hr => (hplain r hr).nullFree) hread
  exact ⟨opened, hread, hblocks.trans (congrArg (Blocks.mk · blocks) hoffset)⟩

/-- The second block stands at offset 34 and is told to stand at 18, since there is a negative
length in front of either block. -/
theorem stands_of_next_negative_lengths :
    let negative := List.replicate 8 (0xff : UInt8)
    let file := encodeHeader [] ++ (negative ++ frame [7] ++ (negative ++ frame [8, 9]))
    ∃ opened, read false file = .ok opened ∧
      (opened.blocks.behind 3).next = (.ok (some ⟨18, [8, 9]⟩), ⟨28, []⟩) ∧
      file.drop 34 = frame [8, 9] ∧
      (startingAt file 34).next = (.ok (some ⟨34, [8, 9]⟩), startingAt file 44) := by
  intro negative file
  obtain ⟨opened, hread, hblocks⟩ :=
    exists_read_bare (negative ++ frame [7] ++ (negative ++ frame [8, 9]))
  have hnext : (opened.blocks.behind 3).next = (.ok (some ⟨18, [8, 9]⟩), ⟨28, []⟩) := by
    rw [hblocks]
    rfl
  have hrefused : refusedLengths (opened.blocks.answers 3) = 2 := by
    rw [hblocks]
    rfl
  obtain ⟨-, hdrop, hagain, -⟩ := stands_of_next (.opened hread) 3 hnext
  rw [hrefused] at hdrop hagain
  exact ⟨opened, hread, hnext, hdrop, hagain⟩

/-- The block behind a negative length is told to stand where that length does. -/
theorem not_stands_of_negative_length :
    let file := encodeHeader [] ++ (List.replicate 8 0xff ++ frame [170])
    ∃ opened, read false file = .ok opened ∧
      opened.blocks.next.1 = .error (.negativeLength (-1) 9) ∧
      (opened.blocks.behind 1).next = (.ok (some ⟨9, [170]⟩), ⟨18, []⟩) ∧
      9 + (opened.blocks.behind 1).rest.length ≠ file.length ∧
      (startingAt file 9).next.1 = .error (.negativeLength (-1) 9) := by
  intro file
  obtain ⟨opened, hread, hblocks⟩ := exists_read_bare (List.replicate 8 0xff ++ frame [170])
  refine ⟨opened, hread, ?_, ?_, ?_, rfl⟩ <;> rw [hblocks]
  · rfl
  · rfl
  · decide

end AccessTrace.TraceFile
