import AccessTrace.Proofs.Store.Stack

/-!
Where a trace is refused. The first exit that breaks the discipline of calls is the same record,
with the same functions, wherever the cuts between the batches are. The position that is told with
it counts from the start of its batch.
-/

namespace AccessTrace

namespace CallStack

/-- The first record that breaks the discipline is an exit of `found` at a position; `expected` is
the innermost function open there, if any is. -/
structure FirstBreak (records : List Record) (position : Nat) (expected : Option UInt64)
    (found : UInt64) : Prop where
  exit : records[position]? = some (.exit found)
  innermost : ∃ stack, followAll [] (records.take position) = some stack ∧ stack.head? = expected
  breaks : followAll [] (records.take (position + 1)) = none

theorem exists_firstBreak_iff {records : List Record} :
    (∃ position expected found, FirstBreak records position expected found) ↔
      followAll [] records = none := by
  constructor
  · rintro ⟨position, expected, found, hbreak⟩
    rw [← List.take_append_drop (position + 1) records, followAll_append, hbreak.breaks,
      Option.bind_none]
  · intro h
    obtain ⟨position, stack, hfront, hbreak⟩ := exists_break h
    obtain ⟨found, hexit, -⟩ := exists_exit_of_break hfront hbreak
    exact ⟨position, _, found, hexit, ⟨stack, hfront, rfl⟩, hbreak⟩

end CallStack

open CallStack

namespace Processor

variable {p middle : Processor} {batch : Batch} {batches front rest : List Batch}
  {chunks : List Chunk} {e : CallStack.Error}

/-- Why the first of some batches to be refused is refused, if one is. -/
def refusal? (p : Processor) (batches : List Batch) : Option CallStack.Error :=
  (p.answers batches).findSome? fun
    | .ok _ => none
    | .error e => some e

theorem refusal?_of_error (h : p.process batch = .error e) (rest : List Batch) :
    p.refusal? (batch :: rest) = some e := by
  simp only [refusal?, answers, h, List.findSome?_cons]

theorem Run.refusal?_append (h : p.Run front chunks middle) (rest : List Batch) :
    p.refusal? (front ++ rest) = middle.refusal? rest := by
  have hnone : (chunks.map Except.ok : List (Except CallStack.Error Chunk)).findSome? (fun
      | .ok _ => none
      | .error e => some e) = none := by
    simp
  rw [refusal?, h.answers_append, List.findSome?_append, hnone, Option.none_or, refusal?]

theorem exists_refused {position : Nat} {expected : Option UInt64} {found : UInt64}
    (hcarry : p.carry = [])
    (h : FirstBreak (batches.flatMap Batch.records) position expected found) :
    ∃ front batch rest place chunks middle, batches = front ++ batch :: rest ∧
      position = (front.flatMap Batch.records).length + place ∧ place < batch.records.length ∧
      p.Run front chunks middle ∧
      p.refusal? batches = some (.unbalanced place expected found) := by
  obtain ⟨hat, ⟨stack, hfront, rfl⟩, hbreak⟩ := h
  obtain ⟨front, batch, rest, place, function, chunks, middle, rfl, hposition, hplace, hexit, hrun,
    herror⟩ := refused_of_break hcarry hfront hbreak
  obtain rfl : found = function := Record.exit.inj (Option.some.inj (hat.symm.trans hexit))
  refine ⟨front, batch, rest, place, chunks, middle, rfl, hposition, hplace, hrun, ?_⟩
  rw [hrun.refusal?_append, refusal?_of_error herror]

theorem refusal?_of_whole {position : Nat} {expected : Option UInt64} {found : UInt64}
    (hcarry : p.carry = []) (h : FirstBreak batch.records position expected found) :
    p.refusal? [batch] = some (.unbalanced position expected found) := by
  have hwhole : [batch].flatMap Batch.records = batch.records := List.flatMap_singleton _ _
  rw [← hwhole] at h
  obtain ⟨front, other, rest, place, -, -, hsplit, hposition, -, -, hrefusal⟩ :=
    exists_refused hcarry h
  cases front with
  | nil =>
    rw [List.flatMap_nil, List.length_nil, Nat.zero_add] at hposition
    rw [hposition, hrefusal]
  | cons first front => simp at hsplit

/-- However a trace that breaks the discipline is cut into batches, the first batch to be refused is
that of the first exit to break it, and the functions told are the same. The position told is that
of the exit in its batch: it falls short of the one in the trace by the records of the batches in
front, and is told right exactly when these are empty. -/
theorem refusal_of_cut (pages : PageConfig) (retainDetail : Bool) (regions : Region.Table)
    (batches : List Batch) (h : followAll [] (batches.flatMap Batch.records) = none) :
    let p := start pages retainDetail regions
    let records := batches.flatMap Batch.records
    ∃ position expected found, FirstBreak records position expected found ∧
      (∀ fileOffset, p.refusal? [⟨fileOffset, records⟩] =
        some (.unbalanced position expected found)) ∧
      ∃ front batch rest place, batches = front ++ batch :: rest ∧ place < batch.records.length ∧
        p.refusal? batches = some (.unbalanced place expected found) ∧
        (p.feed front).1.length = front.length ∧
        (p.feed front).2.nextRecord + place = position ∧
        (place = position ↔ front.flatMap Batch.records = []) := by
  intro p records
  obtain ⟨position, expected, found, hbreak⟩ := exists_firstBreak_iff.2 h
  obtain ⟨front, batch, rest, place, chunks, middle, hsplit, hposition, hplace, hrun, hrefusal⟩ :=
    exists_refused (p := p) rfl hbreak
  refine ⟨position, expected, found, hbreak, fun fileOffset => refusal?_of_whole rfl hbreak,
    front, batch, rest, place, hsplit, hplace, hrefusal, ?_, ?_, ?_⟩
  · rw [hrun.feed_eq, hrun.length_eq]
  · have hnext := hrun.nextRecord
    rw [show p.nextRecord = 0 from rfl, Nat.zero_add] at hnext
    rw [hrun.feed_eq, hnext, hposition]
  · rw [← List.length_eq_zero_iff]
    omega

/-- The break stands in the third batch, behind an empty one; its frame was entered in the first. -/
theorem refusal_of_cut_third :
    let p := start {} false .empty
    let batches : List Batch := [⟨9, [.enter 1, .enter 2]⟩, ⟨77, []⟩, ⟨86, [.exit 2, .exit 2]⟩]
    followAll [] (batches.flatMap Batch.records) = none ∧
      FirstBreak (batches.flatMap Batch.records) 3 (some 1) 2 ∧
      p.refusal? batches = some (.unbalanced 1 (some 1) 2) ∧
      ∃ front batch rest, batches = front ++ batch :: rest ∧ (p.feed front).2.nextRecord = 2 := by
  intro p batches
  have hnone : followAll [] (batches.flatMap Batch.records) = none := by decide
  obtain ⟨position, expected, found, hbreak, hwhole, front, batch, rest, place, hsplit, -, hrefusal, -,
    hposition, -⟩ := refusal_of_cut {} false .empty batches hnone
  have hthird : p.refusal? batches = some (.unbalanced 1 (some 1) 2) := rfl
  obtain ⟨rfl, rfl, rfl⟩ : 3 = position ∧ some 1 = expected ∧ 2 = found := by
    simpa using (rfl : some (Error.unbalanced 3 (some 1) 2) = _).trans (hwhole 9)
  obtain rfl : 1 = place := by simpa using hthird.symm.trans hrefusal
  exact ⟨hnone, hbreak, hthird, front, batch, rest, hsplit, Nat.succ.inj hposition⟩

/-- Two records that break the discipline, in one batch and in two: the exit at position 1 is told
to be at position 0. -/
theorem refusal_ne_of_cut :
    let p := start {} false .empty
    let batches : List Batch := [⟨9, [.enter 1]⟩, ⟨77, [.exit 2]⟩]
    followAll [] (batches.flatMap Batch.records) = none ∧
      p.refusal? [⟨9, batches.flatMap Batch.records⟩] = some (.unbalanced 1 (some 1) 2) ∧
      p.refusal? batches = some (.unbalanced 0 (some 1) 2) :=
  ⟨by decide, rfl, rfl⟩

end Processor

end AccessTrace
