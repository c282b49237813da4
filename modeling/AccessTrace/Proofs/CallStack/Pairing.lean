import AccessTrace.CallStack
import AccessTrace.CallStack.Discipline

/-!
Pairing entries with exits, one record after another. The pairing gets through some records exactly
when the plain discipline of calls does, keeps the same functions on its stack, and fails at the
first record that breaks the discipline.
-/

namespace AccessTrace.CallStack

def left (position : Nat) (frame : OpenFrame) : List (Interval Frame) :=
  if frame.origin.first < position then [frame.span (position - 1) true] else []

/-- What becomes of records that start at a position with some frames open, innermost first: the
ranges of the frames left, in the order of their exits, and the frames open at the end. -/
inductive Paired : Nat → List OpenFrame → List Record → List (Interval Frame) → List OpenFrame →
    Prop
  | nil (position : Nat) (stack : List OpenFrame) : Paired position stack [] [] stack
  | access {position : Nat} {stack : List OpenFrame} {a : Access} {rest : List Record}
      {spans : List (Interval Frame)} {last : List OpenFrame}
      (tail : Paired (position + 1) stack rest spans last) :
      Paired position stack (.access a :: rest) spans last
  | enter {position : Nat} {stack : List OpenFrame} {function : UInt64} {rest : List Record}
      {spans : List (Interval Frame)} {last : List OpenFrame}
      (tail : Paired (position + 1) ({ origin := .entered position, function } :: stack) rest spans
        last) :
      Paired position stack (.enter function :: rest) spans last
  | exit {position : Nat} {frame : OpenFrame} {below : List OpenFrame} {rest : List Record}
      {spans : List (Interval Frame)} {last : List OpenFrame}
      (tail : Paired (position + 1) below rest spans last) :
      Paired position (frame :: below) (.exit frame.function :: rest) (left position frame ++ spans)
        last

variable {position : Nat} {stack last : List OpenFrame} {records front rest : List Record}
  {spans done : List (Interval Frame)}

theorem pair_exit (frame : OpenFrame) (below : List OpenFrame) (rest : List Record) :
    pair position (frame :: below) done (.exit frame.function :: rest) =
      pair (position + 1) below ((left position frame).reverse ++ done) rest := by
  rw [pair, if_neg (by simp), left]
  split <;> simp

theorem Paired.pair_append (h : Paired position stack front spans last) (rest : List Record)
    (done : List (Interval Frame)) :
    pair position stack done (front ++ rest) =
      pair (position + front.length) last (spans.reverse ++ done) rest := by
  induction h generalizing done with
  | nil => simp
  | access tail ih => simp only [List.cons_append, pair, ih, List.length_cons, Nat.add_comm,
      Nat.add_left_comm]
  | enter tail ih => simp only [List.cons_append, pair, ih, List.length_cons, Nat.add_comm,
      Nat.add_left_comm]
  | exit tail ih =>
    rw [List.cons_append, pair_exit, ih, List.reverse_append, List.append_assoc, List.length_cons]
    simp only [Nat.add_comm, Nat.add_left_comm]

theorem Paired.pair_eq (h : Paired position stack records spans last) :
    pair position stack [] records = .ok (spans, last) := by
  have := h.pair_append [] []
  simpa [pair] using this

theorem Paired.append {spans₁ spans₂ : List (Interval Frame)} {open₁ : List OpenFrame}
    (h₁ : Paired position stack front spans₁ open₁)
    (h₂ : Paired (position + front.length) open₁ rest spans₂ last) :
    Paired position stack (front ++ rest) (spans₁ ++ spans₂) last := by
  induction h₁ with
  | nil => simpa using h₂
  | access tail ih =>
    apply Paired.access
    apply ih
    rwa [List.length_cons, Nat.add_comm _ 1, ← Nat.add_assoc] at h₂
  | enter tail ih =>
    apply Paired.enter
    apply ih
    rwa [List.length_cons, Nat.add_comm _ 1, ← Nat.add_assoc] at h₂
  | exit tail ih =>
    rw [List.append_assoc]
    apply Paired.exit
    apply ih
    rwa [List.length_cons, Nat.add_comm _ 1, ← Nat.add_assoc] at h₂

theorem exists_paired (position : Nat) (stack : List OpenFrame) {functions : List UInt64}
    (h : followAll (stack.map OpenFrame.function) records = some functions) :
    ∃ spans last, Paired position stack records spans last ∧
      last.map OpenFrame.function = functions := by
  induction records generalizing position stack with
  | nil =>
    rw [followAll_nil, Option.some.injEq] at h
    exact ⟨[], stack, .nil _ _, h⟩
  | cons r rest ih =>
    rw [followAll_cons, Option.bind_eq_some_iff] at h
    obtain ⟨next, hnext, h⟩ := h
    cases r with
    | access a =>
      rw [follow, Option.some.injEq] at hnext
      subst hnext
      obtain ⟨spans, last, tail, hlast⟩ := ih (position + 1) stack h
      exact ⟨spans, last, .access tail, hlast⟩
    | enter function =>
      rw [follow, Option.some.injEq] at hnext
      subst hnext
      obtain ⟨spans, last, tail, hlast⟩ :=
        ih (position + 1) ({ origin := .entered position, function } :: stack) h
      exact ⟨spans, last, .enter tail, hlast⟩
    | exit function =>
      cases stack with
      | nil => simp [follow] at hnext
      | cons frame below =>
        simp only [follow, List.map_cons, Option.ite_none_right_eq_some, Option.some.injEq] at hnext
        obtain ⟨rfl, rfl⟩ := hnext
        obtain ⟨spans, last, tail, hlast⟩ := ih (position + 1) below h
        exact ⟨left position frame ++ spans, last, .exit tail, hlast⟩

theorem pair_exit_eq_error {function : UInt64}
    (h : (stack.head?).map OpenFrame.function ≠ some function) :
    pair position stack done (.exit function :: rest) =
      .error (.unbalanced position ((stack.head?).map OpenFrame.function) function) := by
  cases stack with
  | nil => rfl
  | cons frame below =>
    have : frame.function ≠ function := by simpa using h
    rw [pair, if_pos this]
    rfl

theorem exists_exit_of_break {records : List Record} {stack top : List UInt64} {position : Nat}
    (hfront : followAll stack (records.take position) = some top)
    (hbreak : followAll stack (records.take (position + 1)) = none) :
    ∃ function, records[position]? = some (.exit function) ∧ top.head? ≠ some function := by
  cases hat : records[position]? with
  | none =>
    rw [List.take_add_one, hat, Option.toList_none, List.append_nil, hfront] at hbreak
    contradiction
  | some r =>
    rw [List.take_add_one, hat, Option.toList_some, followAll_append, hfront, Option.bind_some,
      followAll_cons, Option.bind_eq_none_iff] at hbreak
    cases r with
    | access a => exact absurd (hbreak top rfl) (by simp)
    | enter function => exact absurd (hbreak (function :: top) rfl) (by simp)
    | exit function =>
      refine ⟨function, rfl, fun htop => ?_⟩
      obtain ⟨below, rfl⟩ := List.head?_eq_some_iff.1 htop
      exact absurd (hbreak below (by simp [follow])) (by simp)

theorem exists_break {records : List Record} {stack : List UInt64}
    (h : followAll stack records = none) :
    ∃ position top, followAll stack (records.take position) = some top ∧
      followAll stack (records.take (position + 1)) = none := by
  induction records generalizing stack with
  | nil => contradiction
  | cons r rest ih =>
    rw [followAll_cons] at h
    cases hr : follow stack r with
    | none => exact ⟨0, stack, rfl, by rw [List.take_succ_cons, followAll_cons, hr, Option.bind_none]⟩
    | some next =>
      rw [hr, Option.bind_some] at h
      obtain ⟨position, top, hfront, hbreak⟩ := ih h
      refine ⟨position + 1, top, ?_, ?_⟩ <;>
        rwa [List.take_succ_cons, followAll_cons, hr, Option.bind_some]

end AccessTrace.CallStack
