import AccessTrace.Proofs.CallStack.Pairing
import AccessTrace.Proofs.Interval

/-!
The frames that an index of calls tells. Every frame is one range of positions, so the frames at a
position come out of the tree in some order; sorted by origin they are the stack of the discipline
just behind that position.
-/

namespace AccessTrace.CallStack

namespace Origin

theorem le_total (a b : Origin) : (a.le b || b.le a) = true := by
  cases a <;> cases b <;> simp only [le, Bool.or_eq_true, decide_eq_true_eq, Bool.true_or,
    Bool.or_true]
  all_goals omega

theorem le_refl (a : Origin) : a.le a = true := by
  simpa using a.le_total a

theorem le_trans (a b c : Origin) (hab : a.le b = true) (hbc : b.le c = true) : a.le c = true := by
  cases a <;> cases b <;> cases c <;> simp only [le, decide_eq_true_eq, reduceCtorEq] at *
  all_goals omega

theorem eq_of_le {a b : Origin} (hab : a.le b = true) (hba : b.le a = true) : a = b := by
  cases a <;> cases b <;> simp only [le, decide_eq_true_eq, reduceCtorEq, Origin.inherited.injEq,
    Origin.entered.injEq] at *
  all_goals omega

end Origin

/-- Frames, innermost first, each entered inside the next, before a position. -/
structure Nested (position : Nat) (stack : List OpenFrame) : Prop where
  inside : stack.Pairwise fun inner outer => inner.origin.le outer.origin = false
  before : ∀ frame ∈ stack, ∀ place, frame.origin = .entered place → place < position

namespace Nested

variable {position : Nat} {stack below : List OpenFrame}

theorem mono {later : Nat} (h : Nested position stack) (hle : position ≤ later) :
    Nested later stack :=
  ⟨h.inside, fun frame hf place hp => Nat.lt_of_lt_of_le (h.before frame hf place hp) hle⟩

theorem tail {frame : OpenFrame} (h : Nested position (frame :: below)) : Nested position below :=
  ⟨(List.pairwise_cons.1 h.inside).2, fun f hf => h.before f (List.mem_cons_of_mem _ hf)⟩

theorem enter (function : UInt64) (h : Nested position stack) :
    Nested (position + 1) ({ origin := .entered position, function } :: stack) := by
  constructor
  · refine List.pairwise_cons.2 ⟨fun outer hout => ?_, h.inside⟩
    cases horigin : outer.origin with
    | inherited slot => rfl
    | entered place =>
      have := h.before outer hout place horigin
      simp only [Origin.le, decide_eq_false_iff_not]
      omega
  · intro frame hframe place hplace
    rcases List.mem_cons.1 hframe with rfl | hmem
    · injection hplace
      omega
    · have := h.before frame hmem place hplace
      omega

theorem eq_of_origin (h : Nested position stack) {f g : OpenFrame} (hf : f ∈ stack) (hg : g ∈ stack)
    (horigin : f.origin = g.origin) : f = g := by
  induction stack with
  | nil => simp at hf
  | cons top below ih =>
    have apart : ∀ outer ∈ below, top.origin ≠ outer.origin := by
      intro outer hout heq
      have := (List.pairwise_cons.1 h.inside).1 outer hout
      rw [heq, Origin.le_refl] at this
      contradiction
    rcases List.mem_cons.1 hf with rfl | hf'
    · rcases List.mem_cons.1 hg with rfl | hg'
      · rfl
      · exact absurd horigin (apart g hg')
    · rcases List.mem_cons.1 hg with rfl | hg'
      · exact absurd horigin.symm (apart f hf')
      · exact ih h.tail hf' hg'

theorem first_lt (h : Nested position stack) (hpos : 0 < position) :
    ∀ frame ∈ stack, frame.origin.first < position := by
  intro frame hframe
  cases horigin : frame.origin with
  | inherited slot => exact hpos
  | entered place => exact h.before frame hframe place horigin

end Nested

def inherited (slot : Nat) : List UInt64 → List OpenFrame
  | [] => []
  | function :: rest => { origin := .inherited slot, function } :: inherited (slot + 1) rest

@[simp] theorem map_function_inherited (slot : Nat) (functions : List UInt64) :
    (inherited slot functions).map OpenFrame.function = functions := by
  induction functions generalizing slot with
  | nil => rfl
  | cons function rest ih => simp [inherited, ih]

theorem inherit_entries (slot : Nat) (stack : List OpenFrame) (functions : List UInt64) :
    inherit slot stack (functions.map Record.enter) =
      .ok ((inherited slot functions).reverse ++ stack) := by
  induction functions generalizing slot stack with
  | nil => rfl
  | cons function rest ih => simp [inherit, inherited, ih]

theorem origin_of_mem_inherited {slot : Nat} {functions : List UInt64} {frame : OpenFrame}
    (h : frame ∈ inherited slot functions) :
    ∃ place, slot ≤ place ∧ frame.origin = .inherited place := by
  induction functions generalizing slot with
  | nil => simp [inherited] at h
  | cons function rest ih =>
    rcases List.mem_cons.1 h with rfl | h
    · exact ⟨slot, Nat.le_refl _, rfl⟩
    · obtain ⟨place, hle, horigin⟩ := ih h
      exact ⟨place, by omega, horigin⟩

theorem pairwise_inherited (slot : Nat) (functions : List UInt64) :
    (inherited slot functions).Pairwise fun outer inner =>
      inner.origin.le outer.origin = false := by
  induction functions generalizing slot with
  | nil => exact List.Pairwise.nil
  | cons function rest ih =>
    refine List.pairwise_cons.2 ⟨fun inner hin => ?_, ih (slot + 1)⟩
    obtain ⟨place, hle, horigin⟩ := origin_of_mem_inherited hin
    simp only [horigin, Origin.le, decide_eq_false_iff_not]
    omega

theorem nested_inherited (functions : List UInt64) :
    Nested 0 (inherited 0 functions).reverse := by
  constructor
  · exact List.pairwise_reverse.2 (pairwise_inherited 0 functions)
  · intro frame hframe place hplace
    obtain ⟨slot, -, horigin⟩ := origin_of_mem_inherited (List.mem_reverse.1 hframe)
    simp [horigin] at hplace

variable {position : Nat} {stack last : List OpenFrame} {records : List Record}
  {spans : List (Interval Frame)}

namespace Paired

theorem nested (h : Paired position stack records spans last) (hn : Nested position stack) :
    Nested (position + records.length) last := by
  induction h with
  | nil => exact hn
  | access tail ih =>
    have := ih (hn.mono (Nat.le_succ _))
    rwa [List.length_cons, Nat.add_comm _ 1, ← Nat.add_assoc]
  | enter tail ih =>
    have := ih (hn.enter _)
    rwa [List.length_cons, Nat.add_comm _ 1, ← Nat.add_assoc]
  | exit tail ih =>
    have := ih (hn.tail.mono (Nat.le_succ _))
    rwa [List.length_cons, Nat.add_comm _ 1, ← Nat.add_assoc]

theorem mem_last (h : Paired position stack records spans last) {frame : OpenFrame}
    (hframe : frame ∈ last) :
    frame ∈ stack ∨ ∃ place, position ≤ place ∧ frame.origin = .entered place := by
  induction h with
  | nil => exact .inl hframe
  | access tail ih =>
    rcases ih hframe with hstack | ⟨place, hle, horigin⟩
    · exact .inl hstack
    · exact .inr ⟨place, by omega, horigin⟩
  | @enter position _ _ _ _ _ tail ih =>
    rcases ih hframe with hstack | ⟨place, hle, horigin⟩
    · rcases List.mem_cons.1 hstack with rfl | hstack
      · exact .inr ⟨position, Nat.le_refl _, rfl⟩
      · exact .inl hstack
    · exact .inr ⟨place, by omega, horigin⟩
  | exit tail ih =>
    rcases ih hframe with hbelow | ⟨place, hle, horigin⟩
    · exact .inl (List.mem_cons_of_mem _ hbelow)
    · exact .inr ⟨place, by omega, horigin⟩

theorem not_mem_last_of_exit {frame : OpenFrame} {below : List OpenFrame}
    (tail : Paired (position + 1) below records spans last)
    (hn : Nested position (frame :: below)) : frame ∉ last := by
  intro hframe
  rcases tail.mem_last hframe with hbelow | ⟨place, hle, horigin⟩
  · have := (List.pairwise_cons.1 hn.inside).1 frame hbelow
    rw [Origin.le_refl] at this
    contradiction
  · have := hn.before frame List.mem_cons_self place horigin
    omega

theorem stop_lt (h : Paired position stack records spans last) :
    ∀ span ∈ spans, span.stop + 1 < position + records.length := by
  induction h with
  | nil => simp
  | access tail ih =>
    intro span hspan
    have := ih span hspan
    rw [List.length_cons]
    omega
  | enter tail ih =>
    intro span hspan
    have := ih span hspan
    rw [List.length_cons]
    omega
  | exit tail ih =>
    intro span hspan
    rw [List.length_cons]
    rcases List.mem_append.1 hspan with hleft | hspan
    · rw [left] at hleft
      split at hleft
      · rw [List.mem_singleton] at hleft
        subst hleft
        simp only [OpenFrame.span]
        omega
      · simp at hleft
    · have := ih span hspan
      omega

end Paired

def OpenFrame.told (last : List OpenFrame) (frame : OpenFrame) : Frame where
  origin := frame.origin
  function := frame.function
  closed := decide (frame ∉ last)

theorem holds_span {frame : OpenFrame} {stop point : Nat} {closed : Bool} (h : point ≤ stop) :
    (frame.span stop closed).holds point = decide (frame.origin.first ≤ point) := by
  rw [Bool.eq_iff_iff, Interval.holds_iff, decide_eq_true_eq]
  simp [OpenFrame.span, h]

namespace Paired

/-- Of all ranges, those that hold an earlier point belong to the frames that are open here and
cover the point. -/
theorem perm_holding (h : Paired position stack records spans last) (hn : Nested position stack)
    (point : Nat) (hpoint : point < position) :
    List.Perm
      (((spans ++ last.reverse.map fun frame => frame.span (position + records.length - 1) false).filter
        fun span => span.holds point).map Interval.value)
      ((stack.filter fun frame => frame.origin.first ≤ point).map (OpenFrame.told last)) := by
  induction h with
  | nil position stack =>
    have hvalue : ∀ frame ∈ stack.filter fun frame => decide (frame.origin.first ≤ point),
        (frame.span (position - 1) false).value = frame.told stack := by
      intro frame hframe
      simp [OpenFrame.span, OpenFrame.told, (List.mem_filter.1 hframe).1]
    have hspan : ((fun span => Interval.holds span point) ∘ fun frame : OpenFrame =>
        frame.span (position - 1) false) = fun frame => decide (frame.origin.first ≤ point) := by
      funext frame
      exact holds_span (by omega)
    rw [List.nil_append, List.length_nil, Nat.add_zero, List.filter_map, hspan, List.map_map,
      List.filter_reverse, List.map_reverse, ← List.map_congr_left hvalue]
    exact List.reverse_perm _
  | @access position stack a rest spans last tail ih =>
    have := ih (hn.mono (Nat.le_succ _)) (by omega)
    rwa [List.length_cons, Nat.add_comm _ 1, ← Nat.add_assoc]
  | @enter position stack function rest spans last tail ih =>
    have := ih (hn.enter _) (by omega)
    have hnew : ¬ (Origin.entered position).first ≤ point := Nat.not_le.2 hpoint
    rw [List.filter_cons, if_neg (by simpa using hnew)] at this
    rwa [List.length_cons, Nat.add_comm _ 1, ← Nat.add_assoc]
  | @exit position frame below rest spans last tail ih =>
    have hrest := ih (hn.tail.mono (Nat.le_succ _)) (by omega)
    rw [List.length_cons, Nat.add_comm _ 1, ← Nat.add_assoc, List.append_assoc, List.filter_append,
      List.map_append]
    by_cases hfirst : frame.origin.first ≤ point
    · -- The frame covers the point and is left behind it: its range is one of those that hold.
      have htold : (frame.span (position - 1) true).value = frame.told last := by
        simp [OpenFrame.span, OpenFrame.told, tail.not_mem_last_of_exit hn]
      have hholds : (frame.span (position - 1) true).holds point = true := by
        rw [holds_span (by omega), decide_eq_true hfirst]
      rw [left, if_pos (by omega), List.filter_cons, if_pos hholds, List.filter_nil, List.map_cons,
        List.map_nil, htold, List.filter_cons, if_pos (by simpa using hfirst), List.map_cons]
      exact hrest.cons _
    · have hnone : (left position frame).filter (fun span => span.holds point) = [] := by
        rw [List.filter_eq_nil_iff, left]
        intro span hspan
        split at hspan
        · rw [List.mem_singleton.1 hspan, holds_span (by omega), decide_eq_true_eq]
          exact hfirst
        · simp at hspan
      rw [hnone, List.filter_cons, if_neg (by simpa using hfirst)]
      exact hrest

end Paired

namespace Index

variable {functions : List UInt64} {front rest : List Record} {spans₁ spans₂ : List (Interval Frame)}
  {now : List OpenFrame} {index : Index} {out : List Record}

theorem build_eq (h : Paired 0 (inherited 0 functions).reverse records spans last) :
    build (functions.map Record.enter) records =
      .ok ({ frames := .ofList (spans ++
              if records.length = 0 then []
              else last.reverse.map fun frame => frame.span (records.length - 1) false)
             length := records.length }, last.reverse.map OpenFrame.entry) := by
  have hstack := inherit_entries 0 [] functions
  rw [List.append_nil] at hstack
  simp only [build, hstack, h.pair_eq, bind, Except.bind]
  rfl

theorem framesAt_build (h₁ : Paired 0 (inherited 0 functions).reverse front spans₁ now)
    (h₂ : Paired front.length now rest spans₂ last) (hfront : 0 < front.length)
    (hbuild : build (functions.map Record.enter) (front ++ rest) = .ok (index, out)) :
    index.framesAt (front.length - 1) = now.reverse.map (OpenFrame.told last) := by
  have hnested : Nested front.length now := by
    simpa using h₁.nested (nested_inherited functions)
  have hwhole : Paired 0 (inherited 0 functions).reverse (front ++ rest) (spans₁ ++ spans₂) last :=
    h₁.append (by rwa [Nat.zero_add])
  rw [build_eq hwhole, Except.ok.injEq, Prod.mk.injEq] at hbuild
  have hlength : (front ++ rest).length ≠ 0 := by
    rw [List.length_append]
    omega
  have hpast : spans₁.filter (fun span => span.holds (front.length - 1)) = [] := by
    rw [List.filter_eq_nil_iff]
    intro span hspan
    have := h₁.stop_lt span hspan
    rw [Interval.holds_iff]
    omega
  have hcover : now.filter (fun frame => decide (frame.origin.first ≤ front.length - 1)) = now := by
    rw [List.filter_eq_self]
    intro frame hframe
    have := hnested.first_lt hfront frame hframe
    rw [decide_eq_true_eq]
    omega
  have hfound := h₂.perm_holding hnested (front.length - 1) (by omega)
  rw [hcover, ← List.length_append] at hfound
  have hsorted : (now.reverse.map (OpenFrame.told last)).Pairwise fun a b =>
      a.origin.le b.origin = true := by
    rw [List.pairwise_map, List.pairwise_reverse]
    refine hnested.inside.imp fun {inner outer} hin => ?_
    have := Origin.le_total inner.origin outer.origin
    rwa [hin, Bool.false_or] at this
  have hstack : (now.reverse.map (OpenFrame.told last)).Perm (now.map (OpenFrame.told last)) := by
    rw [List.map_reverse]
    exact List.reverse_perm _
  have hholding : List.Perm
      (((spans₁ ++ spans₂ ++ last.reverse.map fun frame =>
        frame.span ((front ++ rest).length - 1) false).filter
          fun span => span.holds (front.length - 1)).map Interval.value)
      (now.reverse.map (OpenFrame.told last)) := by
    rw [List.append_assoc, List.filter_append, hpast, List.nil_append]
    exact hfound.trans hstack.symm
  rw [← hbuild.1, framesAt, if_pos (by simp only [List.length_append]; omega), if_neg hlength]
  have hall := (List.mergeSort_perm _ fun a b : Frame => a.origin.le b.origin).trans
    (((Interval.Tree.query_ofList_perm _ (front.length - 1)).map Interval.value).trans hholding)
  refine List.Perm.eq_of_pairwise ?_ (List.pairwise_mergeSort ?_ ?_ _) hsorted hall
  · -- Origins tell the frames of one stack apart, so the order is strict on them.
    intro a b ha hb hab hba
    have hmem : ∀ frame ∈ now.reverse.map (OpenFrame.told last), ∃ f ∈ now, f.told last = frame := by
      simp
    obtain ⟨f, hf, rfl⟩ := hmem a (hall.mem_iff.1 ha)
    obtain ⟨g, hg, rfl⟩ := hmem b hb
    rw [hnested.eq_of_origin hf hg (Origin.eq_of_le hab hba)]
  · intro a b c
    exact Origin.le_trans _ _ _
  · intro a b
    exact Origin.le_total _ _

theorem stackAt_build (h₁ : Paired 0 (inherited 0 functions).reverse front spans₁ now)
    (h₂ : Paired front.length now rest spans₂ last) (hfront : 0 < front.length)
    (hbuild : build (functions.map Record.enter) (front ++ rest) = .ok (index, out)) :
    index.stackAt (front.length - 1) = (now.map OpenFrame.function).reverse.map Record.enter := by
  rw [stackAt, framesAt_build h₁ h₂ hfront hbuild, List.map_map, ← List.map_reverse, List.map_map]
  rfl

theorem exists_build {stack : List UInt64} (h : followAll functions.reverse records = some stack) :
    ∃ index, build (functions.map Record.enter) records =
        .ok (index, stack.reverse.map Record.enter) ∧
      index.length = records.length ∧
      ∀ place < records.length, ∃ opened,
        followAll functions.reverse (records.take (place + 1)) = some opened ∧
        index.stackAt place = opened.reverse.map Record.enter := by
  have hcarry : (inherited 0 functions).reverse.map OpenFrame.function = functions.reverse := by
    rw [List.map_reverse, map_function_inherited]
  rw [← hcarry] at h
  obtain ⟨spans, last, hwhole, rfl⟩ := exists_paired 0 _ h
  have hbuild := build_eq hwhole
  have hout : last.reverse.map OpenFrame.entry =
      (last.map OpenFrame.function).reverse.map Record.enter := by
    rw [← List.map_reverse, List.map_map]
    rfl
  refine ⟨_, hout ▸ hbuild, rfl, fun place hplace => ?_⟩
  rw [← List.take_append_drop (place + 1) records, followAll_append, Option.bind_eq_some_iff] at h
  obtain ⟨opened, hopened, hrest⟩ := h
  obtain ⟨spans₁, now, h₁, rfl⟩ := exists_paired 0 _ hopened
  obtain ⟨spans₂, last', h₂, -⟩ := exists_paired (records.take (place + 1)).length now hrest
  refine ⟨_, hcarry ▸ hopened, ?_⟩
  have hlength : (records.take (place + 1)).length = place + 1 := by
    rw [List.length_take]
    omega
  have hstack := stackAt_build h₁ h₂ (by omega) (by rw [List.take_append_drop]; exact hbuild)
  rwa [hlength, Nat.add_sub_cancel] at hstack

theorem build_eq_error {stack : List UInt64} {place : Nat} {function : UInt64}
    (hfront : followAll functions.reverse (records.take place) = some stack)
    (hexit : records[place]? = some (.exit function)) (hbreak : stack.head? ≠ some function) :
    build (functions.map Record.enter) records =
      .error (.unbalanced place stack.head? function) := by
  have hcarry : (inherited 0 functions).reverse.map OpenFrame.function = functions.reverse := by
    rw [List.map_reverse, map_function_inherited]
  obtain ⟨hplace, hat⟩ := List.getElem?_eq_some_iff.1 hexit
  have hsplit : records = records.take place ++ .exit function :: records.drop (place + 1) := by
    rw [← hat, List.getElem_cons_drop, List.take_append_drop]
  rw [← hcarry] at hfront
  obtain ⟨spans, now, h, rfl⟩ := exists_paired 0 _ hfront
  rw [List.head?_map] at hbreak ⊢
  have hlength : (records.take place).length = place := by
    rw [List.length_take]
    omega
  have hpair := h.pair_append (.exit function :: records.drop (place + 1)) []
  rw [← hsplit, pair_exit_eq_error hbreak, hlength, Nat.zero_add] at hpair
  have hstack := inherit_entries 0 [] functions
  rw [List.append_nil] at hstack
  simp only [build, hstack, hpair, bind, Except.bind]

end Index

end AccessTrace.CallStack
