import AccessTrace.Interval

/-!
What an interval tree keeps and what a query of it finds: the intervals of the list that it was made
of, or those of them that hold the point, arranged by start and otherwise in the order of the list.
Filling the tree tells every root how far its stretch reaches, so that a stretch which is left out
holds none of them.
-/

namespace AccessTrace.Interval

variable {α : Type}

theorem holds_iff {i : Interval α} {point : Nat} :
    i.holds point = true ↔ i.start ≤ point ∧ point ≤ i.stop := by
  simp [holds]

/-- An arrangement of intervals by start. Those with the same start stand as often, and in the same
order, as they were given. -/
structure Arranged (given arranged : List (Interval α)) : Prop where
  ascending : arranged.Pairwise fun a b => a.start ≤ b.start
  stable : ∀ start,
    (arranged.filter fun i => i.start = start) = given.filter fun i => i.start = start

namespace Arranged

variable {given xs ys : List (Interval α)}

/-- Of two lists in ascending order that hold the same intervals at each start, the first entries
agree, and so do what is behind them. -/
theorem eq_of_filter_eq (hx : xs.Pairwise fun a b => a.start ≤ b.start)
    (hy : ys.Pairwise fun a b => a.start ≤ b.start)
    (h : ∀ start, (xs.filter fun i => i.start = start) = ys.filter fun i => i.start = start) :
    xs = ys := by
  have hmem : ∀ i, i ∈ xs ↔ i ∈ ys := by
    intro i
    simpa using congrArg (i ∈ ·) (h i.start)
  induction xs generalizing ys with
  | nil =>
    symm
    apply List.eq_nil_iff_forall_not_mem.2
    intro i hi
    exact List.not_mem_nil ((hmem i).2 hi)
  | cons x xs ih =>
    cases ys with
    | nil => exact absurd ((hmem x).1 List.mem_cons_self) List.not_mem_nil
    | cons y ys =>
      have hstart : x.start = y.start := by
        apply Nat.le_antisymm
        · rcases List.mem_cons.1 ((hmem y).2 List.mem_cons_self) with rfl | hmem
          · exact Nat.le_refl _
          · exact List.rel_of_pairwise_cons hx hmem
        · rcases List.mem_cons.1 ((hmem x).1 List.mem_cons_self) with rfl | hmem
          · exact Nat.le_refl _
          · exact List.rel_of_pairwise_cons hy hmem
      have hhead : x = y := by
        have := h x.start
        rw [List.filter_cons_of_pos (by simp), List.filter_cons_of_pos (by simp [hstart])] at this
        exact (List.cons.inj this).1
      subst hhead
      have htail : ∀ start, (xs.filter fun i => i.start = start) =
          ys.filter fun i => i.start = start := by
        intro start
        have := h start
        rw [List.filter_cons, List.filter_cons] at this
        by_cases hx : x.start = start
        · simpa [hx] using this
        · simpa [hx] using this
      rw [ih hx.of_cons hy.of_cons htail fun i => by simpa using congrArg (i ∈ ·) (htail i.start)]

theorem unique (hx : Arranged given xs) (hy : Arranged given ys) : xs = ys :=
  eq_of_filter_eq hx.ascending hy.ascending fun start =>
    (hx.stable start).trans (hy.stable start).symm

theorem filter (h : Arranged given xs) (keep : Interval α → Bool) :
    Arranged (given.filter keep) (xs.filter keep) := by
  constructor
  · exact h.ascending.filter keep
  · intro start
    have := congrArg (List.filter keep) (h.stable start)
    simpa only [List.filter_filter, Bool.and_comm] using this

theorem mergeSort (given : List (Interval α)) :
    Arranged given (given.mergeSort fun a b => a.start ≤ b.start) := by
  let le := fun a b : Interval α => decide (a.start ≤ b.start)
  have trans : ∀ a b c, le a b = true → le b c = true → le a c = true := by
    intro a b c hab hbc
    simp only [le, decide_eq_true_eq] at *
    omega
  have total : ∀ a b, (le a b || le b a) = true := by
    intro a b
    simp only [le, Bool.or_eq_true, decide_eq_true_eq]
    omega
  constructor
  · simpa only [decide_eq_true_eq, le] using List.pairwise_mergeSort trans total given
  · intro start
    -- Entries with one start are in order as they stand, so the sorting keeps them so.
    have same : (given.filter fun i => i.start = start).Pairwise fun a b => le a b = true := by
      apply List.pairwise_of_forall_mem_list
      intro a ha b hb
      simp only [List.mem_filter, decide_eq_true_eq] at ha hb
      simp only [le, decide_eq_true_eq]
      omega
    have kept := (List.sublist_mergeSort trans total same List.filter_sublist).filter
      fun i => i.start = start
    rw [List.filter_filter] at kept
    simp only [Bool.and_self] at kept
    symm
    apply kept.eq_of_length
    exact ((List.mergeSort_perm given le).filter _).length_eq.symm

end Arranged

namespace Tree

def StopsWithin (intervals : Array (Interval α)) (low high bound : Nat) : Prop :=
  ∀ k i, low ≤ k → k < high → intervals[k]? = some i → i.stop ≤ bound

/-- The root of a stretch and those of all its subtrees know how far their stretches reach. -/
inductive Filled (intervals : Array (Interval α)) (maxStops : Array Nat) : Nat → Nat → Prop
  | empty {low high : Nat} (h : high ≤ low) : Filled intervals maxStops low high
  | node {low high bound : Nat} (lt : low < high) (hbound : maxStops[root low high]? = some bound)
      (within : StopsWithin intervals low high bound)
      (left : Filled intervals maxStops low (root low high))
      (right : Filled intervals maxStops (root low high + 1) high) :
      Filled intervals maxStops low high

section Fill

variable {intervals : Array (Interval α)} {low high : Nat} {maxStops maxStops' : Array Nat}

theorem Filled.congr (h : Filled intervals maxStops low high)
    (hsame : ∀ k, low ≤ k → k < high → maxStops'[k]? = maxStops[k]?) :
    Filled intervals maxStops' low high := by
  induction h with
  | empty h => exact .empty h
  | @node low high bound lt hbound within left right ihl ihr =>
    have hle := le_root low high
    have hlt := root_lt lt
    refine .node lt ((hsame _ hle hlt).trans hbound) within (ihl fun k hk hk' => ?_)
      (ihr fun k hk hk' => ?_)
    · exact hsame k hk (by omega)
    · exact hsame k (by omega) hk'

theorem getElem?_fill (h : high ≤ intervals.size) {k : Nat} (hk : k < low ∨ high ≤ k) :
    (fill intervals low high h maxStops).2[k]? = maxStops[k]? := by
  fun_induction fill intervals low high h maxStops with
  | case1 low high h maxStops lt inside left right largest ihl _ ihr =>
    have hle := le_root low high
    have hroot : root low high ≠ k := by omega
    rw [Array.getElem?_setIfInBounds_ne hroot]
    exact (ihr (by omega)).trans (ihl (by omega))
  | case2 => rfl

theorem StopsWithin.join {middle a b : Nat} (left : StopsWithin intervals low middle a)
    (right : StopsWithin intervals (middle + 1) high b) (h : middle < intervals.size) :
    StopsWithin intervals low high (max intervals[middle].stop (max a b)) := by
  intro k i hlow hhigh hi
  rcases Nat.lt_trichotomy k middle with hk | rfl | hk
  · have := left k i hlow hk hi
    omega
  · rw [Array.getElem?_eq_getElem h, Option.some.injEq] at hi
    rw [hi]
    exact Nat.le_max_left _ _
  · have := right k i hk hhigh hi
    omega

theorem filled_fill (h : high ≤ intervals.size) (hsize : intervals.size ≤ maxStops.size) :
    StopsWithin intervals low high ((fill intervals low high h maxStops).1.getD 0) ∧
      Filled intervals (fill intervals low high h maxStops).2 low high := by
  fun_induction fill intervals low high h maxStops with
  | case1 low high h maxStops lt inside left right largest ihl _ ihr =>
    have hle := le_root low high
    have hleft : left.2.size = maxStops.size := size_fill ..
    have hright : right.2.size = left.2.size := size_fill ..
    obtain ⟨withinLeft, filledLeft⟩ := ihl hsize
    obtain ⟨withinRight, filledRight⟩ := ihr (hleft ▸ hsize)
    have within : StopsWithin intervals low high largest :=
      withinLeft.join withinRight (Nat.lt_of_lt_of_le inside h)
    have hothers {k : Nat} (hk : root low high ≠ k) :
        (right.2.setIfInBounds (root low high) largest)[k]? = right.2[k]? :=
      Array.getElem?_setIfInBounds_ne hk
    refine ⟨within, .node lt ?_ within (filledLeft.congr fun k hk hk' => ?_)
      (filledRight.congr fun k hk hk' => ?_)⟩
    · exact Array.getElem?_setIfInBounds_self_of_lt (by omega)
    · exact (hothers (Nat.ne_of_gt hk')).trans (getElem?_fill h (.inl (Nat.lt_succ_of_lt hk')))
    · exact hothers (Nat.ne_of_lt hk)
  | case2 low high h maxStops lt =>
    refine ⟨fun k i hlow hhigh => ?_, .empty (Nat.le_of_not_lt lt)⟩
    omega

theorem filled_ofSorted (intervals : Array (Interval α)) :
    Filled intervals (ofSorted intervals).maxStops 0 intervals.size :=
  (filled_fill _ (Nat.le_of_eq Array.size_replicate.symm)).2

end Fill

section Stab

variable {t : Tree α} {point low high : Nat}

def stretch (xs : List (Interval α)) (low high : Nat) : List (Interval α) :=
  (xs.take high).drop low

theorem stretch_zero_length (xs : List (Interval α)) : stretch xs 0 xs.length = xs := by
  rw [stretch, List.take_length, List.drop_zero]

theorem stretch_eq_append {xs : List (Interval α)} {middle : Nat} (hlow : low ≤ middle)
    (hhigh : middle < high) (h : high ≤ xs.length) :
    stretch xs low high = stretch xs low middle ++ xs[middle] :: stretch xs (middle + 1) high := by
  have hmiddle : middle < (xs.take high).length := by
    rw [List.length_take]
    omega
  have hfront : (xs.take high).take middle = xs.take middle := by
    rw [List.take_take, Nat.min_eq_left (Nat.le_of_lt hhigh)]
  calc
    stretch xs low high = ((xs.take high).take middle ++ (xs.take high).drop middle).drop low := by
      rw [List.take_append_drop, stretch]
    _ = ((xs.take high).take middle).drop low ++ (xs.take high).drop middle := by
      apply List.drop_append_of_le_length
      rw [List.length_take]
      omega
    _ = stretch xs low middle ++ xs[middle] :: stretch xs (middle + 1) high := by
      rw [hfront, List.drop_eq_getElem_cons hmiddle, List.getElem_take]
      rfl

theorem getElem?_of_mem_stretch {xs : List (Interval α)} {i : Interval α}
    (h : i ∈ stretch xs low high) : ∃ k, low ≤ k ∧ k < high ∧ xs[k]? = some i := by
  obtain ⟨k, hk⟩ := List.mem_iff_getElem?.1 h
  rw [stretch, List.getElem?_drop, List.getElem?_take] at hk
  split at hk
  · exact ⟨low + k, Nat.le_add_right _ _, ‹_›, hk⟩
  · contradiction

theorem StopsWithin.filter_eq_nil {bound : Nat} (within : StopsWithin t.intervals low high bound)
    (h : bound < point) : ((stretch t.toList low high).filter fun i => i.holds point) = [] := by
  rw [List.filter_eq_nil_iff]
  intro i hi
  obtain ⟨k, hlow, hhigh, hk⟩ := getElem?_of_mem_stretch hi
  have := within k i hlow hhigh (Array.getElem?_toList.symm.trans hk)
  simp only [holds_iff]
  omega

theorem stab_eq (filled : Filled t.intervals t.maxStops low high) (h : high ≤ t.intervals.size)
    (sorted : t.toList.Pairwise fun a b => a.start ≤ b.start) :
    t.stab point low high h = (stretch t.toList low high).filter fun i => i.holds point := by
  have hlength : t.toList.length = t.intervals.size := t.length_toList
  induction filled with
  | empty hempty =>
    rw [stab, dif_neg (Nat.not_lt.2 hempty), stretch, List.drop_eq_nil_of_le, List.filter_nil]
    rw [List.length_take]
    omega
  | @node low high bound lt hknown within left right ihl ihr =>
    have inside := root_lt lt
    have hsplit := stretch_eq_append (le_root low high) inside (hlength ▸ h)
    have hroot : t.toList[root low high] = t.intervals[root low high] := Array.getElem_toList _
    have ascending : (stretch t.toList low high).Pairwise fun a b => a.start ≤ b.start :=
      sorted.sublist ((List.drop_sublist _ _).trans (List.take_sublist _ _))
    obtain ⟨hlt, hbound⟩ := Array.getElem?_eq_some_iff.1 hknown
    rw [stab, dif_pos lt]
    simp only [hbound]
    split
    · rename_i hshort
      rw [within.filter_eq_nil hshort]
    · rw [hsplit, hroot] at ascending ⊢
      rw [List.filter_append, List.filter_cons, ← ihl (Nat.le_trans (Nat.le_of_lt inside) h),
        ← ihr h]
      congr 1
      split
      · rename_i hstart
        simp only [holds_iff, hstart, true_and]
      · -- What stands behind the root starts no earlier than it does.
        rw [if_neg (by simp only [holds_iff]; omega), ihr h, eq_comm, List.filter_eq_nil_iff]
        intro i hi
        have := List.rel_of_pairwise_cons (List.pairwise_append.1 ascending).2.1 hi
        simp only [holds_iff]
        omega

end Stab

theorem toList_ofList (xs : List (Interval α)) :
    (ofList xs).toList =
      (xs.filter fun i => i.start ≤ i.stop).mergeSort fun a b => a.start ≤ b.start :=
  rfl

theorem mem_toList_ofList {xs : List (Interval α)} {i : Interval α} :
    i ∈ (ofList xs).toList ↔ i ∈ xs ∧ i.start ≤ i.stop := by
  rw [toList_ofList, List.mem_mergeSort, List.mem_filter, decide_eq_true_eq]

theorem query_ofList (xs : List (Interval α)) (point : Nat) :
    (ofList xs).query point = (ofList xs).toList.filter fun i => i.holds point := by
  have ascending : (ofList xs).toList.Pairwise fun a b => a.start ≤ b.start := by
    rw [toList_ofList]
    exact (Arranged.mergeSort _).ascending
  have hlength : (ofList xs).toList.length = (ofList xs).intervals.size := length_toList _
  rw [query, stab_eq (filled_ofSorted _) (Nat.le_refl _) ascending, ← hlength, stretch_zero_length]

theorem filter_holds (xs : List (Interval α)) (point : Nat) :
    (xs.filter fun i => i.start ≤ i.stop).filter (fun i => i.holds point) =
      xs.filter fun i => i.holds point := by
  rw [List.filter_filter]
  apply List.filter_congr
  intro i _
  unfold holds
  grind

theorem arranged_query_ofList (xs : List (Interval α)) (point : Nat) :
    Arranged (xs.filter fun i => i.holds point) ((ofList xs).query point) := by
  rw [query_ofList, toList_ofList, ← filter_holds xs]
  exact (Arranged.mergeSort _).filter _

theorem query_ofList_perm (xs : List (Interval α)) (point : Nat) :
    ((ofList xs).query point).Perm (xs.filter fun i => i.holds point) := by
  rw [query_ofList, toList_ofList, ← filter_holds xs]
  exact (List.mergeSort_perm _ _).filter _

/-- A tree lists the intervals of a list that are not inverted, and finds at a point those that hold
it, both arranged by start. -/
theorem query_ofList_eq_iff (xs : List (Interval α)) :
    (∀ point found, (ofList xs).query point = found ↔
        Arranged (xs.filter fun i => i.start ≤ point ∧ point ≤ i.stop) found) ∧
      (∀ listed, (ofList xs).toList = listed ↔
        Arranged (xs.filter fun i => i.start ≤ i.stop) listed) ∧
      (ofList xs).size = (xs.filter fun i => i.start ≤ i.stop).length := by
  refine ⟨fun point found => ?_, fun listed => ?_, ?_⟩
  · have hscan : (xs.filter fun i => i.start ≤ point ∧ point ≤ i.stop) =
        xs.filter fun i => i.holds point := by
      apply List.filter_congr
      intro i _
      rw [Bool.eq_iff_iff, decide_eq_true_eq, holds_iff]
    rw [hscan]
    constructor
    · rintro rfl
      exact arranged_query_ofList xs point
    · exact (arranged_query_ofList xs point).unique
  · rw [toList_ofList]
    constructor
    · rintro rfl
      exact Arranged.mergeSort _
    · exact (Arranged.mergeSort _).unique
  · rw [← length_toList, toList_ofList, List.length_mergeSort]

end Tree

end AccessTrace.Interval
