import Mathlib.Data.List.Permutation
import Mathlib.Data.Set.Operations
import Mathlib.Order.Bounds.Defs
import AccessTrace.Proofs.PageActivity

/-!
Quiet pages and active ones. A touched page is quiet when it would stay within its part of the
busiest page with one access more, so that the busiest page itself never is; neither the order of
the addresses nor the chunks in front change the sides.
-/

namespace AccessTrace.PageActivity

section IsQuiet

variable {count peak threshold : Nat}

theorem isQuiet_iff :
    isQuiet count peak threshold = true ↔ 1 ≤ threshold ∧ (count + 1) * threshold ≤ peak := by
  simp only [isQuiet, Bool.and_eq_true, decide_eq_true_eq]
  constructor
  · rintro ⟨⟨hthreshold, -⟩, hcount⟩
    have hpos : 0 < threshold := Nat.pos_of_ne_zero hthreshold
    exact ⟨hpos, (Nat.le_div_iff_mul_le hpos).1 hcount⟩
  · rintro ⟨hpos, hcount⟩
    have hone : 1 * 1 ≤ (count + 1) * threshold := Nat.mul_le_mul (Nat.le_add_left 1 count) hpos
    exact ⟨⟨Nat.ne_of_gt hpos, Nat.le_trans hone hcount⟩, (Nat.le_div_iff_mul_le hpos).2 hcount⟩

theorem mul_lt_of_isQuiet (h : isQuiet count peak threshold = true) : count * threshold < peak := by
  obtain ⟨hpos, hcount⟩ := isQuiet_iff.1 h
  calc
    count * threshold < (count + 1) * threshold := Nat.mul_lt_mul_of_pos_right (Nat.lt_succ_self _) hpos
    _ ≤ peak := hcount

theorem not_isQuiet_peak : isQuiet peak peak threshold = false := by
  refine Bool.eq_false_iff.2 fun h => ?_
  have hpos := (isQuiet_iff.1 h).1
  exact Nat.not_lt.2 (Nat.le_mul_of_pos_right peak hpos) (mul_lt_of_isQuiet h)

theorem isQuiet_of_le {raised : Nat} (hpos : 1 ≤ threshold) (hle : threshold ≤ raised)
    (h : isQuiet count peak raised = true) : isQuiet count peak threshold = true :=
  isQuiet_iff.2 ⟨hpos, Nat.le_trans (Nat.mul_le_mul_left _ hle) (isQuiet_iff.1 h).2⟩

end IsQuiet

/-- The pages of some addresses are counted, and those that are hardly hit beside the busiest one
are set apart from the others. -/
structure Classifies (addresses : List UInt64) (config : PageConfig) (p : PageActivity) : Prop where
  count : ∀ page, p.count page = addresses.countP fun addr => addr / max config.pageSize 1 = page
  peak : IsGreatest (Set.range p.count) p.peak
  touched : ∀ page, page ∈ p.touched ↔ ∃ addr ∈ addresses, addr / max config.pageSize 1 = page
  disjoint : p.quiet.Disjoint p.active
  together : ∀ page, page ∈ p.quiet ∨ page ∈ p.active ↔ page ∈ p.touched
  quiet : 1 ≤ config.quietThreshold → ∀ page ∈ p.touched,
    (page ∈ p.quiet ↔ (p.count page + 1) * config.quietThreshold ≤ p.peak)
  below : ∀ page ∈ p.quiet, p.count page * config.quietThreshold < p.peak
  busiest : addresses ≠ [] → ∀ page, p.count page = p.peak → page ∈ p.active
  untouched : p.active = [] → addresses = []
  unset : config.quietThreshold = 0 → p.quiet = []

section OfAddresses

variable {addresses : List UInt64} {config : PageConfig} {lookback : List (List UInt64)}
  {p : PageActivity} {page : UInt64}

theorem mem_quiet (h : ofAddresses addresses config lookback = p) :
    page ∈ p.quiet ↔
      page ∈ p.touched ∧ isQuiet (p.count page) p.peak config.quietThreshold = true := by
  rw [quiet_eq h, List.mem_filter]

theorem mem_active (h : ofAddresses addresses config lookback = p) :
    page ∈ p.active ↔
      page ∈ p.touched ∧ isQuiet (p.count page) p.peak config.quietThreshold = false := by
  rw [active_eq h, List.mem_filter, Bool.not_eq_true']

theorem count_pos_iff (h : ofAddresses addresses config lookback = p) :
    0 < p.count page ↔ page ∈ p.touched := by
  rw [count_eq h, List.countP_pos_iff, mem_touched h]
  simp only [decide_eq_true_eq]

theorem peak_eq (h : ofAddresses addresses config lookback = p) :
    (0 :: p.touched.map p.count).max? = some p.peak := by
  have hpeak : p.peak = (p.counts.map Prod.snd).foldl max 0 := h ▸ rfl
  rw [hpeak, List.max?_cons', counts_eq h, List.map_map]
  rfl

theorem count_le_peak (h : ofAddresses addresses config lookback = p) (page : UInt64) :
    p.count page ≤ p.peak := by
  rcases Nat.eq_zero_or_pos (p.count page) with hzero | hpos
  · rw [hzero]
    exact Nat.zero_le _
  · have htouched := (count_pos_iff h).1 hpos
    exact (List.max?_eq_some_iff.1 (peak_eq h)).2 _ (.tail _ (List.mem_map_of_mem htouched))

theorem isGreatest_peak (h : ofAddresses addresses config lookback = p) :
    IsGreatest (Set.range p.count) p.peak := by
  constructor
  · rcases List.mem_cons.1 (List.max?_eq_some_iff.1 (peak_eq h)).1 with hzero | htouched
    · -- Nothing was touched, and any page was hit as often as that.
      have hle := count_le_peak h 0
      exact ⟨0, by omega⟩
    · obtain ⟨page, -, hpage⟩ := List.mem_map.1 htouched
      exact ⟨page, hpage⟩
  · rintro _ ⟨page, rfl⟩
    exact count_le_peak h page

theorem active_of_count_eq_peak (h : ofAddresses addresses config lookback = p)
    (hne : addresses ≠ []) (hpeak : p.count page = p.peak) : page ∈ p.active := by
  obtain ⟨addr, haddr⟩ := List.exists_mem_of_ne_nil addresses hne
  have hpos := (count_pos_iff h).2 ((mem_touched h).2 ⟨addr, haddr, rfl⟩)
  have htouched : page ∈ p.touched := by
    rw [← count_pos_iff h, hpeak]
    exact Nat.lt_of_lt_of_le hpos (count_le_peak h _)
  rw [mem_active h, hpeak]
  exact ⟨htouched, not_isQuiet_peak⟩

theorem classifies (h : ofAddresses addresses config lookback = p) :
    Classifies addresses config p where
  count := count_eq h
  peak := isGreatest_peak h
  touched _ := mem_touched h
  disjoint := by
    intro page hquiet hactive
    rw [mem_quiet h] at hquiet
    rw [mem_active h, hquiet.2] at hactive
    exact Bool.noConfusion hactive.2
  together page := by
    rw [mem_quiet h, mem_active h, ← and_or_left]
    exact and_iff_left (Bool.eq_false_or_eq_true _)
  quiet hpos page htouched := by
    rw [mem_quiet h, isQuiet_iff]
    exact ⟨fun hquiet => hquiet.2.2, fun hcount => ⟨htouched, hpos, hcount⟩⟩
  below page hquiet := mul_lt_of_isQuiet ((mem_quiet h).1 hquiet).2
  busiest hne page hpeak := active_of_count_eq_peak h hne hpeak
  untouched hnone := by
    by_contra hne
    obtain ⟨page, hpeak⟩ := (isGreatest_peak h).1
    have hactive := active_of_count_eq_peak h hne hpeak
    rw [hnone] at hactive
    exact List.not_mem_nil hactive
  unset hzero := by
    rw [List.eq_nil_iff_forall_not_mem]
    intro page hquiet
    have hpos := (isQuiet_iff.1 ((mem_quiet h).1 hquiet).2).1
    omega

end OfAddresses

theorem active_of_le (addresses : List UInt64) (config : PageConfig)
    (lookback : List (List UInt64)) {raised : Nat} {page : UInt64}
    (hpos : 1 ≤ config.quietThreshold) (hle : config.quietThreshold ≤ raised)
    (hactive : page ∈ (ofAddresses addresses config lookback).active) :
    page ∈ (ofAddresses addresses { config with quietThreshold := raised } lookback).active := by
  obtain ⟨htouched, hquiet⟩ := (mem_active rfl).1 hactive
  refine (mem_active rfl).2 ⟨htouched, Bool.eq_false_iff.2 fun h => ?_⟩
  exact Bool.eq_false_iff.1 hquiet (isQuiet_of_le hpos hle h)

theorem ofAddresses_eq_of_perm {addresses others : List UInt64} (h : others.Perm addresses)
    (config : PageConfig) (lookback : List (List UInt64)) :
    ofAddresses others config lookback = ofAddresses addresses config lookback := by
  simp only [ofAddresses, Tally.ofList_eq_of_perm (h.map _)]

/-- Pages are told apart by their counts alone. A higher threshold leaves active pages active; the
order of the addresses changes nothing, and earlier chunks change the axis only. -/
theorem classifies_ofAddresses (addresses : List UInt64) (config : PageConfig)
    (lookback : List (List UInt64)) :
    let p := ofAddresses addresses config lookback
    Classifies addresses config p ∧
      (∀ raised, 1 ≤ config.quietThreshold → config.quietThreshold ≤ raised → ∀ page ∈ p.active,
        page ∈ (ofAddresses addresses { config with quietThreshold := raised } lookback).active) ∧
      ∀ others earlier, others.Perm addresses →
        ofAddresses others config earlier =
          { p with axis := (ofAddresses addresses config earlier).axis } := by
  intro p
  refine ⟨classifies rfl, ?_, ?_⟩
  · intro raised hpos hle page hactive
    exact active_of_le addresses config lookback hpos hle hactive
  · intro others earlier hperm
    rw [ofAddresses_eq_of_perm hperm]
    rfl

/-- One access to page four beside three to page three: quiet at the threshold one, active at
two. -/
theorem classifies_ofAddresses_of_four :
    let addresses := [0x3008, 0x4008, 0x3010, 0x3018]
    let p := ofAddresses addresses { quietThreshold := 1 } []
    p.quiet = [4] ∧ 3 ∈ (ofAddresses addresses { quietThreshold := 2 } []).active ∧
      ofAddresses addresses.reverse { quietThreshold := 1 } [[9]] =
        { p with axis := (ofAddresses addresses { quietThreshold := 1 } [[9]]).axis } := by
  intro addresses p
  have hquiet : p.quiet = [4] := by cbv
  have hactive : p.active = [3] := by cbv
  obtain ⟨-, hraised, hothers⟩ := classifies_ofAddresses addresses { quietThreshold := 1 } []
  refine ⟨hquiet, hraised 2 (by decide) (by decide) 3 ?_, hothers _ _ (List.reverse_perm addresses)⟩
  exact hactive ▸ List.mem_singleton_self 3

end AccessTrace.PageActivity
