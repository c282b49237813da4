import Mathlib.Data.List.DropRight
import AccessTrace.Proofs.Chunk.Chain
import AccessTrace.Proofs.PageActivity

/-!
The window over the chunks in front. No run fills it beyond its size, and what slides out of it is
not missed later, so that it shows the active pages of the last few chunks after any run.
-/

namespace AccessTrace.Processor

section Slide

variable {α : Type}

theorem length_slide_le {size : Nat} {window : List α} (h : window.length ≤ size) (x : α) :
    (slide size window x).length ≤ size := by
  unfold slide
  split
  · exact h
  · rw [List.length_append, List.length_singleton]
    split
    · rw [List.length_tail]
      omega
    · omega

/-- Dropping one entry at one length keeps the last entries of all only as long as no window
outgrows its size. -/
theorem slide_eq_rtake {size : Nat} {window : List α} (h : window.length ≤ size) (x : α) :
    slide size window x = (window ++ [x]).rtake size := by
  rw [slide, List.rtake, List.length_append, List.length_singleton]
  split
  · rename_i hzero
    obtain rfl := List.eq_nil_of_length_eq_zero (Nat.le_zero.1 (hzero ▸ h))
    rw [hzero]
    rfl
  · rename_i hpos
    split
    · rename_i hfull
      have hfirst : window ≠ [] := by
        rintro rfl
        exact hpos hfull.symm
      rw [hfull, Nat.add_sub_cancel_left, List.drop_one, List.tail_append_of_ne_nil hfirst]
    · rw [Nat.sub_eq_zero_of_le (by omega), List.drop_zero]

/-- A window that is too large is not cut down. -/
example : slide 1 [1, 2] 3 = [1, 2, 3] ∧ slide 0 [1, 2] 3 = [1, 2] :=
  ⟨rfl, rfl⟩

theorem length_rtake (size : Nat) (xs : List α) : (xs.rtake size).length = min size xs.length := by
  rw [List.rtake_eq_reverse_take_reverse, List.length_reverse, List.length_take,
    List.length_reverse]

theorem map_rtake {β : Type} (f : α → β) (size : Nat) (xs : List α) :
    (xs.rtake size).map f = (xs.map f).rtake size := by
  rw [List.rtake, List.rtake, List.map_drop, List.length_map]

theorem rtake_rtake_append (size : Nat) (xs ys : List α) :
    (xs.rtake size ++ ys).rtake size = (xs ++ ys).rtake size := by
  simp only [List.rtake_eq_reverse_take_reverse, List.reverse_append, List.reverse_reverse,
    List.take_append, List.take_take, List.length_reverse]
  rw [Nat.min_eq_left (Nat.sub_le _ _)]

end Slide

variable {p next last : Processor} {batch : Batch} {batches : List Batch} {chunk : Chunk}
  {chunks : List Chunk}

theorem Step.window_le (h : Step p batch chunk next)
    (hwindow : p.recentActive.length ≤ p.pages.lookback) :
    next.recentActive.length ≤ next.pages.lookback := by
  rw [h.behind]
  exact length_slide_le hwindow _

namespace Run

theorem pages (h : p.Run batches chunks last) : last.pages = p.pages := by
  induction h with
  | nil => rfl
  | cons head tail ih => rw [ih, (step_of_process head).behind]

theorem window_le (h : p.Run batches chunks last)
    (hwindow : p.recentActive.length ≤ p.pages.lookback) :
    last.recentActive.length ≤ p.pages.lookback := by
  rw [← h.pages]
  induction h with
  | nil => exact hwindow
  | cons head tail ih => exact ih ((step_of_process head).window_le hwindow)

theorem recentActive (h : p.Run batches chunks last)
    (hwindow : p.recentActive.length ≤ p.pages.lookback) :
    last.recentActive =
      (p.recentActive ++ chunks.map fun c => c.pages.active).rtake p.pages.lookback := by
  induction h with
  | nil p =>
    rw [List.map_nil, List.append_nil, List.rtake, Nat.sub_eq_zero_of_le hwindow, List.drop_zero]
  | @cons p next _ _ chunk _ _ head tail ih =>
    have step := step_of_process head
    have hpages : next.pages = p.pages := by rw [step.behind]
    have hnext : next.recentActive =
        (p.recentActive ++ [chunk.pages.active]).rtake p.pages.lookback := by
      rw [step.behind, ← slide_eq_rtake hwindow]
    rw [ih (step.window_le hwindow), hnext, hpages, rtake_rtake_append, List.append_assoc,
      List.map_cons, List.singleton_append]

end Run

/-- The axis of each chunk, whichever batches are refused on the way. -/
theorem axis_of_offerAll (pages : PageConfig) (retainDetail : Bool) (regions : Region.Table)
    (batches : List Batch) :
    let run := (offerAll batches).run (start pages retainDetail regions)
    let chunks := run.1.filterMap Except.toOption
    (∀ k chunk, chunks[k]? = some chunk →
      let earlier := (chunks.take k).rtake pages.lookback
      earlier.length = min pages.lookback k ∧
      chunk.pages.axisPages.Pairwise (· < ·) ∧
      ∀ page, page ∈ chunk.pages.axisPages ↔
        page ∈ chunk.pages.active ∨ ∃ c ∈ earlier, page ∈ c.pages.active) ∧
    run.2.recentActive = (chunks.rtake pages.lookback).map (fun c => c.pages.active) ∧
    run.2.recentActive.length ≤ pages.lookback := by
  intro run chunks
  have hrun := run_of_offerAll (start pages retainDetail regions) batches
  have hstart : (start pages retainDetail regions).recentActive.length ≤
      (start pages retainDetail regions).pages.lookback := Nat.zero_le _
  have hwindow : run.2.recentActive =
      (chunks.rtake pages.lookback).map fun c => c.pages.active := by
    rw [map_rtake]
    exact hrun.recentActive hstart
  refine ⟨?_, hwindow, hrun.window_le hstart⟩
  · intro k chunk hk earlier
    obtain ⟨front, batch, middle, next, hfront, hprocess⟩ := hrun.exists_process hk
    have hearlier : middle.recentActive = earlier.map fun c => c.pages.active := by
      rw [map_rtake]
      exact hfront.recentActive hstart
    have hpages := (step_of_process hprocess).pages.symm
    refine ⟨?_, PageActivity.pairwise_axisPages hpages, fun page => ?_⟩
    · have hlt := (List.getElem?_eq_some_iff.1 hk).1
      rw [length_rtake, List.length_take, Nat.min_eq_left (Nat.le_of_lt hlt)]
    · rw [PageActivity.mem_axisPages hpages, hearlier]
      simp only [List.mem_map, exists_exists_and_eq_and]

/-- One chunk back: the third chunk still shows page eight, and no more page one, which the second
showed beside its own. -/
theorem axis_of_offerAll_third :
    let access (addr : UInt64) := Record.access ⟨0, 0, 0, 0, addr, false⟩
    let run := (offerAll [⟨9, [access 0x1000]⟩, ⟨77, [.exit 2]⟩, ⟨145, [access 0x8000]⟩,
      ⟨213, [access 0x2000]⟩]).run (start { lookback := 1 } false .empty)
    let chunks := run.1.filterMap Except.toOption
    ∃ chunk, chunks[2]? = some chunk ∧ chunk.pages.axisPages.Pairwise (· < ·) ∧
      ∀ page, page ∈ chunk.pages.axisPages ↔ page = 2 ∨ page = 8 := by
  intro access run chunks
  obtain ⟨haxis, -, -⟩ := axis_of_offerAll { lookback := 1 } false .empty
    [⟨9, [access 0x1000]⟩, ⟨77, [.exit 2]⟩, ⟨145, [access 0x8000]⟩, ⟨213, [access 0x2000]⟩]
  have hactive : chunks[2]?.map (fun c => c.pages.active) = some [2] := by decide +kernel
  have hearlier : ((chunks.take 2).rtake 1).map (fun c => c.pages.active) = [[8]] := by
    decide +kernel
  obtain ⟨chunk, hchunk, hown⟩ := Option.map_eq_some_iff.1 hactive
  obtain ⟨second, hsecond, hbefore⟩ := List.map_eq_singleton_iff.1 hearlier
  obtain ⟨-, hascending, hpages⟩ := haxis 2 chunk hchunk
  refine ⟨chunk, hchunk, hascending, fun page => (hpages page).trans ?_⟩
  change page ∈ chunk.pages.active ∨ (∃ c ∈ (chunks.take 2).rtake 1, page ∈ c.pages.active) ↔ _
  rw [hsecond, hown, List.mem_singleton]
  simp [hbefore]

end AccessTrace.Processor
