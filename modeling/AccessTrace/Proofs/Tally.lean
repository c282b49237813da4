import Mathlib.Data.List.Basic
import AccessTrace.PageActivity

/-!
The distinct members of a list are its members, each once and in ascending order. A tally gives them
with their counts, and does not tell in which order they stood.
-/

namespace AccessTrace.Tally

section Sorted

variable {α : Type} [LE α] [Std.IsLinearOrder α] [DecidableLE α] {xs ys : List α}

theorem pairwise_mergeSort (xs : List α) : (xs.mergeSort fun a b => a ≤ b).Pairwise (· ≤ ·) := by
  have hsorted := @List.pairwise_mergeSort α (fun a b => decide (a ≤ b))
    (fun a b c hab hbc =>
      decide_eq_true (Std.le_trans (of_decide_eq_true hab) (of_decide_eq_true hbc)))
    (fun a b => by simpa using Std.le_total) xs
  exact hsorted.imp of_decide_eq_true

theorem mergeSort_eq_of_perm (h : xs.Perm ys) :
    (xs.mergeSort fun a b => a ≤ b) = ys.mergeSort fun a b => a ≤ b := by
  have hx := List.mergeSort_perm xs fun a b => decide (a ≤ b)
  have hy := List.mergeSort_perm ys fun a b => decide (a ≤ b)
  exact (hx.trans (h.trans hy.symm)).eq_of_pairwise (fun a b _ _ => Std.le_antisymm)
    (pairwise_mergeSort xs) (pairwise_mergeSort ys)

theorem ofList_eq_of_perm [DecidableEq α] (h : xs.Perm ys) : ofList xs = ofList ys := by
  rw [ofList, ofList, mergeSort_eq_of_perm h]

end Sorted

section Members

variable {α : Type} [DecidableEq α] {x y : α} {tally : List (α × Nat)} {xs : List α}

theorem mem_push : y ∈ (push x tally).map Prod.fst ↔ y = x ∨ y ∈ tally.map Prod.fst := by
  cases tally with
  | nil => simp [push]
  | cons first rest =>
    obtain ⟨z, n⟩ := first
    rw [push]
    split
    · rename_i hxz
      simp [hxz]
    · simp

theorem mem_foldr_push : y ∈ (xs.foldr push []).map Prod.fst ↔ y ∈ xs := by
  induction xs with
  | nil => simp
  | cons x rest ih => rw [List.foldr_cons, mem_push, ih, List.mem_cons]

theorem mem_distinct [LE α] [DecidableLE α] : y ∈ distinct xs ↔ y ∈ xs := by
  rw [distinct, ofList, mem_foldr_push, List.mem_mergeSort]

end Members

section Order

variable {α : Type} [DecidableEq α] [LE α] [Std.IsLinearOrder α] [LT α] [Std.LawfulOrderLT α]
  {x : α} {tally : List (α × Nat)} {xs : List α}

theorem pairwise_push (h : (tally.map Prod.fst).Pairwise (· < ·))
    (hx : ∀ y ∈ tally.map Prod.fst, x ≤ y) : ((push x tally).map Prod.fst).Pairwise (· < ·) := by
  cases tally with
  | nil => simp [push]
  | cons first rest =>
    obtain ⟨y, n⟩ := first
    rw [push]
    split
    · exact h
    · rename_i hxy
      have hfirst : x < y := Std.lt_of_le_of_ne (hx y (by simp)) hxy
      refine List.pairwise_cons.2 ⟨fun z hz => ?_, h⟩
      rw [List.map_cons] at h hz
      rcases List.mem_cons.1 hz with rfl | hz
      · exact hfirst
      · exact Std.lt_trans hfirst ((List.pairwise_cons.1 h).1 z hz)

theorem pairwise_foldr_push (h : xs.Pairwise (· ≤ ·)) :
    ((xs.foldr push []).map Prod.fst).Pairwise (· < ·) := by
  induction xs with
  | nil => exact .nil
  | cons x rest ih =>
    obtain ⟨hx, hrest⟩ := List.pairwise_cons.1 h
    exact pairwise_push (ih hrest) fun y hy => hx y (mem_foldr_push.1 hy)

theorem pairwise_distinct [DecidableLE α] (xs : List α) : (distinct xs).Pairwise (· < ·) :=
  pairwise_foldr_push (pairwise_mergeSort xs)

theorem snd_of_mem_push (h : (tally.map Prod.fst).Pairwise (· < ·))
    (hx : ∀ y ∈ tally.map Prod.fst, x ≤ y) (hmem : ∀ y ∈ xs, y ∈ tally.map Prod.fst)
    (hcount : ∀ entry ∈ tally, entry.2 = xs.count entry.1) :
    ∀ entry ∈ push x tally, entry.2 = (x :: xs).count entry.1 := by
  intro entry hentry
  cases tally with
  | nil =>
    obtain rfl := List.mem_singleton.1 hentry
    rw [List.count_cons_self, List.count_eq_zero.2 fun hx => List.not_mem_nil (hmem x hx)]
  | cons first rest =>
    obtain ⟨y, n⟩ := first
    have hother : ∀ entry ∈ (y, n) :: rest, entry.1 ≠ x → entry.2 = (x :: xs).count entry.1 := by
      intro entry hentry hne
      rw [List.count_cons_of_ne hne.symm, hcount entry hentry]
    have hbehind : ∀ z ∈ rest.map Prod.fst, y < z := (List.pairwise_cons.1 h).1
    rw [push] at hentry
    split at hentry
    · rename_i hxy
      rcases List.mem_cons.1 hentry with rfl | hrest
      · rw [hxy, List.count_cons_self, ← hcount _ List.mem_cons_self]
      · refine hother entry (.tail _ hrest) (Std.ne_of_lt ?_).symm
        rw [hxy]
        exact hbehind _ (List.mem_map_of_mem hrest)
    · rename_i hxy
      have hnew : x ∉ ((y, n) :: rest).map Prod.fst := by
        intro hmem
        rcases List.mem_cons.1 hmem with heq | hrest
        · exact hxy heq
        · exact absurd (hbehind x hrest) (Std.not_lt.2 (hx y List.mem_cons_self))
      rcases List.mem_cons.1 hentry with rfl | hrest
      · rw [List.count_cons_self, List.count_eq_zero.2 fun hx => hnew (hmem x hx)]
      · exact hother entry hrest fun heq => hnew (heq ▸ List.mem_map_of_mem hrest)

theorem snd_of_mem_foldr_push (h : xs.Pairwise (· ≤ ·)) :
    ∀ entry ∈ xs.foldr push [], entry.2 = xs.count entry.1 := by
  induction xs with
  | nil => simp
  | cons x rest ih =>
    obtain ⟨hx, hrest⟩ := List.pairwise_cons.1 h
    exact snd_of_mem_push (pairwise_foldr_push hrest) (fun y hy => hx y (mem_foldr_push.1 hy))
      (fun y hy => mem_foldr_push.2 hy) (ih hrest)

variable [DecidableLE α]

theorem ofList_eq (xs : List α) : ofList xs = (distinct xs).map fun x => (x, xs.count x) := by
  have hcount : ∀ entry ∈ ofList xs, (entry.1, xs.count entry.1) = entry := by
    intro entry hentry
    have h := snd_of_mem_foldr_push (pairwise_mergeSort xs) entry hentry
    rw [(List.mergeSort_perm xs _).count_eq] at h
    rw [← h]
  rw [distinct, List.map_map]
  exact ((List.map_congr_left hcount).trans (List.map_id _)).symm

theorem getD_lookup_ofList (xs : List α) (x : α) :
    ((ofList xs).lookup x).getD 0 = xs.count x := by
  rw [ofList_eq]
  by_cases hx : x ∈ distinct xs
  · rw [List.lookup_graph _ hx, Option.getD_some]
  · have hnone : ((distinct xs).map fun y => (y, xs.count y)).lookup x = none := by
      rw [List.lookup_eq_none_iff]
      intro entry hentry
      obtain ⟨y, hy, rfl⟩ := List.mem_map.1 hentry
      exact bne_iff_ne.2 fun heq => hx (heq ▸ hy)
    rw [hnone, Option.getD_none, List.count_eq_zero.2 fun hmem => hx (mem_distinct.2 hmem)]

end Order

end AccessTrace.Tally
