import AccessTrace.PageActivity
import AccessTrace.Proofs.Tally

/-!
The parts of a page activity, each read off the addresses: their pages and how often each was hit,
the two sides, and the pages on the axis.
-/

namespace AccessTrace.PageActivity

theorem map_fst_axisFrom (previous skipped : UInt64) (pages : List UInt64) :
    (axisFrom previous skipped pages).map Prod.fst = pages := by
  induction pages generalizing previous skipped with
  | nil => rfl
  | cons page rest ih => rw [axisFrom, List.map_cons, ih]

theorem map_fst_axisOf (pages : List UInt64) : (axisOf pages).map Prod.fst = pages := by
  cases pages with
  | nil => rfl
  | cons page rest => rw [axisOf, List.map_cons, map_fst_axisFrom]

section OfAddresses

variable {addresses : List UInt64} {config : PageConfig} {lookback : List (List UInt64)}
  {p : PageActivity} {page : UInt64}

theorem count_eq (h : ofAddresses addresses config lookback = p) (page : UInt64) :
    p.count page = addresses.countP fun addr => addr / max config.pageSize 1 = page := by
  have hcount : p.count page = (addresses.map (· / max config.pageSize 1)).count page := by
    rw [← h]
    exact Tally.getD_lookup_ofList _ _
  rw [hcount, List.count_eq_countP, List.countP_map]
  exact List.countP_congr fun addr _ => by simp

theorem mem_touched (h : ofAddresses addresses config lookback = p) :
    page ∈ p.touched ↔ ∃ addr ∈ addresses, addr / max config.pageSize 1 = page := by
  have htouched : p.touched = Tally.distinct (addresses.map (· / max config.pageSize 1)) :=
    h ▸ rfl
  rw [htouched, Tally.mem_distinct, List.mem_map]

theorem counts_eq (h : ofAddresses addresses config lookback = p) :
    p.counts = p.touched.map fun page => (page, p.count page) := by
  have hcount : p.count = (addresses.map (· / max config.pageSize 1)).count := by
    funext page
    rw [← h]
    exact Tally.getD_lookup_ofList _ _
  rw [hcount, ← h]
  exact Tally.ofList_eq _

theorem map_fst_filter_counts (h : ofAddresses addresses config lookback = p)
    (test : Nat → Bool) :
    (p.counts.filter fun entry => test entry.2).map Prod.fst =
      p.touched.filter fun page => test (p.count page) := by
  rw [counts_eq h, List.filter_map, List.map_map]
  exact List.map_id _

theorem quiet_eq (h : ofAddresses addresses config lookback = p) :
    p.quiet = p.touched.filter fun page => isQuiet (p.count page) p.peak config.quietThreshold := by
  have hquiet : p.quiet = (p.counts.partition fun entry =>
      isQuiet entry.2 p.peak config.quietThreshold).1.map Prod.fst := h ▸ rfl
  rw [hquiet, List.partition_eq_filter_filter]
  exact map_fst_filter_counts h fun n => isQuiet n p.peak config.quietThreshold

theorem active_eq (h : ofAddresses addresses config lookback = p) :
    p.active =
      p.touched.filter fun page => !isQuiet (p.count page) p.peak config.quietThreshold := by
  have hactive : p.active = (p.counts.partition fun entry =>
      isQuiet entry.2 p.peak config.quietThreshold).2.map Prod.fst := h ▸ rfl
  rw [hactive, List.partition_eq_filter_filter]
  exact map_fst_filter_counts h fun n => !isQuiet n p.peak config.quietThreshold

theorem axisPages_eq (h : ofAddresses addresses config lookback = p) :
    p.axisPages = Tally.distinct (p.active ++ lookback.flatten) := by
  rw [← h]
  exact map_fst_axisOf _

theorem mem_axisPages (h : ofAddresses addresses config lookback = p) :
    page ∈ p.axisPages ↔ page ∈ p.active ∨ ∃ pages ∈ lookback, page ∈ pages := by
  rw [axisPages_eq h, Tally.mem_distinct, List.mem_append, List.mem_flatten]

theorem pairwise_axisPages (h : ofAddresses addresses config lookback = p) :
    p.axisPages.Pairwise (· < ·) := by
  rw [axisPages_eq h]
  exact Tally.pairwise_distinct _

end OfAddresses

end AccessTrace.PageActivity
