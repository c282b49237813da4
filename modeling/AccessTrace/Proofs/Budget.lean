import Mathlib.Algebra.GroupWithZero.Nat
import Mathlib.Algebra.Ring.Int.Defs
import AccessTrace.Config
import AccessTrace.Proofs.Budget.Gate

/-!
What the spare figure tells of memory. A word holds every figure that is not too far below zero;
such a figure is exact, and a larger margin never makes it larger. As it counts whole megabytes and
is rounded toward zero, a gate that is to leave nothing to spare passes when up to a megabyte is
missing.
-/

namespace AccessTrace

/-- A snapshot of a host of the same size on which nothing is scarcer. -/
structure Snapshot.Eased (s s' : Snapshot) : Prop where
  total : s'.total = s.total
  free : s.free ≤ s'.free
  reclaimable : s.reclaimable ≤ s'.reclaimable
  idle : s.idle ≤ s'.idle

namespace Budget

def Fits (b : Budget) (s : Snapshot) : Prop :=
  -2 ^ 63 ≤ b.spare s

instance (b : Budget) (s : Snapshot) : Decidable (b.Fits s) :=
  inferInstanceAs (Decidable (-2 ^ 63 ≤ b.spare s))

def withMargin (b : Budget) (safetyMarginMb : UInt64) : Budget :=
  { b with safetyMarginMb }

variable {b : Budget} {s s' : Snapshot} {marginMb : UInt64} {n k : Int}

section Rounding

theorem le_tdiv_bytesPerMb_of_pos (hk : 0 < k) : k ≤ n.tdiv bytesPerMb ↔ k * bytesPerMb ≤ n := by
  have hmb : (0 : Int) < bytesPerMb := by decide
  have hpos : 0 < k * bytesPerMb := Int.mul_pos hk hmb
  by_cases hn : 0 ≤ n
  · rw [Int.tdiv_eq_ediv_of_nonneg hn, Int.le_ediv_iff_mul_le hmb]
  · have hdown : 0 ≤ (-n).tdiv bytesPerMb := Int.tdiv_nonneg (by omega) (Int.le_of_lt hmb)
    rw [Int.neg_tdiv] at hdown
    exact iff_of_false (by omega) (by omega)

theorem le_tdiv_bytesPerMb_of_nonpos (hk : k ≤ 0) :
    k ≤ n.tdiv bytesPerMb ↔ k * bytesPerMb < n + bytesPerMb := by
  have hmb : (0 : Int) < bytesPerMb := by decide
  by_cases hn : 0 ≤ n
  · have hup : 0 ≤ n.tdiv bytesPerMb := Int.tdiv_nonneg hn (Int.le_of_lt hmb)
    have hneg : k * bytesPerMb ≤ 0 := Int.mul_nonpos_of_nonpos_of_nonneg hk (Int.le_of_lt hmb)
    exact iff_of_true (by omega) (by omega)
  · have hround : n.tdiv bytesPerMb = -(-n / bytesPerMb) := by
      rw [← Int.tdiv_eq_ediv_of_nonneg (by omega), Int.neg_tdiv, Int.neg_neg]
    calc k ≤ n.tdiv bytesPerMb
      _ ↔ -n / bytesPerMb < 1 - k := by rw [hround]; omega
      _ ↔ -n < (1 - k) * bytesPerMb := Int.ediv_lt_iff_lt_mul hmb
      _ ↔ k * bytesPerMb < n + bytesPerMb := by rw [Int.sub_mul, Int.one_mul]; omega

end Rounding

section Range

theorem available_lt (s : Snapshot) : available s < 3 * 2 ^ 64 := by
  have := s.free.toNat_lt
  have := s.reclaimable.toNat_lt
  have := s.idle.toNat_lt
  unfold available
  omega

/-- A share is taken in signed words of 128 bits, which hold each that is checked. -/
theorem share_lt (h : b.relativeMarginPercent ≤ 100) (s : Snapshot) :
    s.total.toNat * b.relativeMarginPercent.toNat < 2 ^ 127 := by
  have hpercent : b.relativeMarginPercent.toNat ≤ 100 := UInt64.le_iff_toNat_le.1 h
  calc s.total.toNat * b.relativeMarginPercent.toNat
    _ ≤ 2 ^ 64 * 100 := Nat.mul_le_mul (Nat.le_of_lt s.total.toNat_lt) hpercent
    _ < 2 ^ 127 := by decide

theorem margin_le (h : b.relativeMarginPercent ≤ 100) (s : Snapshot) :
    b.margin s ≤ b.safetyMarginMb.toNat * bytesPerMb + s.total.toNat := by
  have hpercent : b.relativeMarginPercent.toNat ≤ 100 := UInt64.le_iff_toNat_le.1 h
  have hshare : s.total.toNat * b.relativeMarginPercent.toNat ≤ s.total.toNat * 100 :=
    Nat.mul_le_mul_left _ hpercent
  unfold margin
  omega

theorem spare_lt (b : Budget) (s : Snapshot) : b.spare s < 2 ^ 63 := by
  have := available_lt s
  refine Int.not_le.1 fun hle => ?_
  rw [spare, le_tdiv_bytesPerMb_of_pos (by decide), bytesPerMb] at hle
  omega

theorem fits_iff : b.Fits s ↔ (b.margin s : Int) < available s + (2 ^ 63 + 1) * bytesPerMb := by
  rw [Fits, spare, le_tdiv_bytesPerMb_of_nonpos (by decide), bytesPerMb]
  omega

/-- A host has less than two to the power of forty-four megabytes, so a fixed margin that leaves
room for as many fits with every share of them. -/
theorem fits_of_safetyMarginMb_le (h : b.relativeMarginPercent ≤ 100)
    (hmargin : b.safetyMarginMb.toNat ≤ 2 ^ 63 + 1 - 2 ^ 44) (s : Snapshot) : b.Fits s := by
  have := margin_le h s
  have := s.total.toNat_lt
  rw [fits_iff]
  unfold bytesPerMb at *
  omega

theorem toInt_spareMb (h : b.Fits s) : (b.spareMb s).toInt = b.spare s :=
  Int64.toInt_ofInt_of_le h (spare_lt b s)

/-- A figure that does not fit comes out as one that is larger by the number of words. -/
theorem toInt_spareMb_of_not_fits (h : b.relativeMarginPercent ≤ 100) (hfits : ¬b.Fits s) :
    (b.spareMb s).toInt = b.spare s + 2 ^ 64 := by
  have hlow : -2 ^ 64 - 2 ^ 44 ≤ b.spare s := by
    have := margin_le h s
    have := s.total.toNat_lt
    have := b.safetyMarginMb.toNat_lt
    rw [spare, le_tdiv_bytesPerMb_of_nonpos (by decide)]
    unfold bytesPerMb at *
    omega
  have hwrap : b.spareMb s = Int64.ofInt (b.spare s + 2 ^ 64) := by
    rw [Int64.ofInt_add]
    exact (Int64.add_zero _).symm
  rw [Fits] at hfits
  rw [hwrap, Int64.toInt_ofInt_of_le (by omega) (by omega)]

theorem fits_iff_toInt_spareMb (h : b.relativeMarginPercent ≤ 100) :
    b.Fits s ↔ (b.spareMb s).toInt = b.spare s := by
  refine ⟨toInt_spareMb, fun heq => by_contra fun hfits => ?_⟩
  rw [toInt_spareMb_of_not_fits h hfits] at heq
  omega

end Range

section Order

theorem spare_le_of_eased (h : s.Eased s') : b.spare s ≤ b.spare s' := by
  have hmargin : b.margin s' = b.margin s := by rw [margin, margin, h.total]
  have hfree : s.free.toNat ≤ s'.free.toNat := UInt64.le_iff_toNat_le.1 h.free
  have hreclaimable := UInt64.le_iff_toNat_le.1 h.reclaimable
  have hidle := UInt64.le_iff_toNat_le.1 h.idle
  have havailable : available s ≤ available s' := by
    unfold available
    omega
  rw [spare, spare, hmargin]
  exact Int.tdiv_le_tdiv (by decide) (by omega)

theorem spare_withMargin_le (h : b.safetyMarginMb ≤ marginMb) :
    (b.withMargin marginMb).spare s ≤ b.spare s := by
  have hmargin : b.margin s ≤ (b.withMargin marginMb).margin s :=
    Nat.add_le_add_right (Nat.mul_le_mul_right _ (UInt64.le_iff_toNat_le.1 h)) _
  exact Int.tdiv_le_tdiv (by decide) (by omega)

theorem spareMb_le_of_eased (h : s.Eased s') (hfits : b.Fits s) : b.spareMb s ≤ b.spareMb s' := by
  have hle : b.spare s ≤ b.spare s' := spare_le_of_eased h
  rw [Int64.le_iff_toInt_le, toInt_spareMb hfits, toInt_spareMb (Int.le_trans hfits hle)]
  exact hle

theorem spareMb_withMargin_le (h : b.safetyMarginMb ≤ marginMb)
    (hfits : (b.withMargin marginMb).Fits s) :
    (b.withMargin marginMb).spareMb s ≤ b.spareMb s := by
  have hle : (b.withMargin marginMb).spare s ≤ b.spare s := spare_withMargin_le h
  rw [Int64.le_iff_toInt_le, toInt_spareMb hfits, toInt_spareMb (Int.le_trans hfits hle)]
  exact hle

end Order

end Budget

namespace Gate

variable {g : Gate} {minSpareMb : Int64} {p : Poll} {s : Snapshot}

theorem exists_satisfied_iff (hs : p.snapshot = some s) :
    (∃ spareMb, g.judge minSpareMb p = some (.satisfied spareMb)) ↔
      minSpareMb ≤ g.budget.spareMb s := by
  rw [judge_of_some hs]
  split <;> simp [*]

theorem judge_eq_none_iff (hs : p.snapshot = some s) :
    g.judge minSpareMb p = none ↔ ¬minSpareMb ≤ g.budget.spareMb s := by
  rw [judge_of_some hs]
  split <;> simp [*]

theorem judge_eq_none_of_le {b : Budget} (hs : p.snapshot = some s)
    (hle : b.spareMb s ≤ g.budget.spareMb s) (h : g.judge minSpareMb p = none) :
    Gate.judge { g with budget := b } minSpareMb p = none := by
  rw [judge_eq_none_iff hs] at h ⊢
  exact fun hmin => h (Int64.le_trans hmin hle)

end Gate

namespace Budget

variable {b : Budget} {s : Snapshot}

/-- What the figure tells of a snapshot. It is exact unless it is below the least word, and among
exact figures less memory or a larger fixed margin never makes for a larger one, nor for a gate that
passes when it did not before. -/
structure Measures (b : Budget) (s : Snapshot) : Prop where
  share : s.total.toNat * b.relativeMarginPercent.toNat < 2 ^ 127
  exact : (b.spareMb s).toInt = b.spare s ↔ b.Fits s
  wrapped : ¬b.Fits s → (b.spareMb s).toInt = b.spare s + 2 ^ 64
  fits : b.Fits s ↔ (b.margin s : Int) < available s + (2 ^ 63 + 1) * bytesPerMb
  fitting : b.safetyMarginMb.toNat ≤ 2 ^ 63 + 1 - 2 ^ 44 → b.Fits s
  eased : b.Fits s → ∀ s', s.Eased s' → b.spareMb s ≤ b.spareMb s'
  larger : ∀ marginMb, b.safetyMarginMb ≤ marginMb → (b.withMargin marginMb).Fits s →
    (b.withMargin marginMb).spareMb s ≤ b.spareMb s
  refused : ∀ marginMb, b.safetyMarginMb ≤ marginMb → (b.withMargin marginMb).Fits s →
    ∀ g : Gate, g.budget = b → ∀ minSpareMb p, p.snapshot = some s →
      g.judge minSpareMb p = none →
        Gate.judge { g with budget := b.withMargin marginMb } minSpareMb p = none

theorem measures_of_validate (c : Config) (h : c.validate = .ok ()) (s : Snapshot) :
    c.budget.Measures s := by
  have hpercent := Config.relativeMarginPercent_le_of_validate h
  exact {
    share := share_lt hpercent s
    exact := (fits_iff_toInt_spareMb hpercent).symm
    wrapped := toInt_spareMb_of_not_fits hpercent
    fits := fits_iff
    fitting := fun hmargin => fits_of_safetyMarginMb_le hpercent hmargin s
    eased := fun hfits s' heased => spareMb_le_of_eased heased hfits
    larger := fun marginMb hle hfits => spareMb_withMargin_le hle hfits
    refused := by
      rintro marginMb hle hfits g hg minSpareMb p hs hrefused
      refine Gate.judge_eq_none_of_le hs ?_ hrefused
      rw [hg]
      exact spareMb_withMargin_le hle hfits }

/-- The largest fixed margin that fits whatever the host says, on a host that is all taken. -/
theorem measures_of_least_word :
    let c : Config :=
      { budget := { safetyMarginMb := 9223354444668731393, relativeMarginPercent := 100 } }
    let s : Snapshot := ⟨18446744073709551615, 0, 0, 0⟩
    c.validate = .ok () ∧ c.budget.spareMb s = Int64.minValue ∧ c.budget.Fits s ∧
      (c.budget.spareMb s).toInt = c.budget.spare s := by
  intro c s
  have hvalid : c.validate = .ok () := rfl
  have hmargin : c.budget.safetyMarginMb.toNat ≤ 2 ^ 63 + 1 - 2 ^ 44 := by decide +kernel
  have hleast : c.budget.spareMb s = Int64.minValue := by decide +kernel
  have hmeasures := measures_of_validate c hvalid s
  have hfits := hmeasures.fitting hmargin
  exact ⟨hvalid, hleast, hfits, hmeasures.exact.2 hfits⟩

/-- With nothing to spare and no margin a gate refuses to go on, and with a margin that no memory
could cover it passes. -/
theorem satisfied_of_largest_margin :
    let config (safetyMarginMb : UInt64) : Config :=
      { budget := { minSpareMb := 1, safetyMarginMb, relativeMarginPercent := 0 } }
    let bare : Budget := (config 0).budget
    let largest : Budget := (config 18446744073709551615).budget
    let s : Snapshot := ⟨0, 0, 0, 0⟩
    (config 18446744073709551615).validate = .ok () ∧
      largest.spare s = -18446744073709551615 ∧ (largest.spareMb s).toInt = 1 ∧
      Gate.judge ⟨bare, true, false⟩ 1 ⟨some s, false⟩ = none ∧
      Gate.judge ⟨largest, true, false⟩ 1 ⟨some s, false⟩ = some (.satisfied 1) := by
  decide +kernel

end Budget

namespace Gate

/-- What a gate takes for enough, in bytes. A wish for more than nothing is granted exactly when it
can be met; otherwise the gate passes as well when less than a megabyte is missing. The margin is
the one of unbounded numbers, which is what words give for every budget that `share_lt` covers. -/
theorem satisfied_iff_bytes (g : Gate) (minSpareMb : Int64) {p : Poll} {s : Snapshot}
    (hs : p.snapshot = some s) (hfits : g.budget.Fits s) :
    let needed : Int := g.budget.margin s + minSpareMb.toInt * bytesPerMb
    let satisfied := ∃ spareMb, g.judge minSpareMb p = some (.satisfied spareMb)
    (0 < minSpareMb.toInt → (satisfied ↔ needed ≤ Budget.available s)) ∧
    (minSpareMb.toInt ≤ 0 → (satisfied ↔ needed < Budget.available s + bytesPerMb)) ∧
    (needed ≤ Budget.available s → satisfied) ∧
    (¬satisfied → g.judge minSpareMb p = none) := by
  intro needed satisfied
  have hspare : satisfied ↔ minSpareMb.toInt ≤ g.budget.spare s := by
    rw [← Budget.toInt_spareMb hfits, ← Int64.le_iff_toInt_le]
    exact exists_satisfied_iff hs
  have hmb : 0 < (bytesPerMb : Int) := by decide
  have hpositive (hmin : 0 < minSpareMb.toInt) : satisfied ↔ needed ≤ Budget.available s := by
    rw [hspare, Budget.spare, Budget.le_tdiv_bytesPerMb_of_pos hmin]
    omega
  have hnonpositive (hmin : minSpareMb.toInt ≤ 0) :
      satisfied ↔ needed < Budget.available s + bytesPerMb := by
    rw [hspare, Budget.spare, Budget.le_tdiv_bytesPerMb_of_nonpos hmin]
    omega
  refine ⟨hpositive, hnonpositive, fun henough => ?_, fun hshort => ?_⟩
  · rcases Int.lt_or_le 0 minSpareMb.toInt with hmin | hmin
    · exact (hpositive hmin).2 henough
    · exact (hnonpositive hmin).2 (by omega)
  · exact (judge_eq_none_iff hs).2 fun hmin => hshort ((exists_satisfied_iff hs).2 hmin)

/-- Four megabytes are set aside, a byte more than two are there, and one may be missing. -/
theorem satisfied_of_missing_megabytes :
    let g : Gate := ⟨{ safetyMarginMb := 3, relativeMarginPercent := 10 }, true, false⟩
    let s : Snapshot := ⟨10485765, 2097153, 0, 0⟩
    let needed : Int := g.budget.margin s + (-1 : Int64).toInt * bytesPerMb
    g.budget.Fits s ∧ Budget.available s < needed ∧
      ∃ spareMb, g.judge (-1) ⟨some s, false⟩ = some (.satisfied spareMb) := by
  intro g s needed
  have hfits : g.budget.Fits s := by decide +kernel
  have hmissing : Budget.available s < needed ∧ needed < Budget.available s + bytesPerMb := by
    decide +kernel
  obtain ⟨-, hnonpositive, -, -⟩ :=
    satisfied_iff_bytes g (-1) (p := ⟨some s, false⟩) rfl hfits
  exact ⟨hfits, hmissing.1, (hnonpositive (by decide)).2 hmissing.2⟩

/-- One byte is missing, and a gate that wants nothing to spare passes. -/
theorem satisfied_of_missing_byte :
    let g : Gate :=
      ⟨{ safetyMarginMb := 1, relativeMarginPercent := 0 }, true, false⟩
    let s : Snapshot := ⟨0, 1048575, 0, 0⟩
    g.budget.relativeMarginPercent ≤ 100 ∧ g.budget.Fits s ∧
      g.judge 0 ⟨some s, false⟩ = some (.satisfied 0) ∧
      ¬((g.budget.margin s : Int) + (0 : Int64).toInt * bytesPerMb ≤ Budget.available s) := by
  decide +kernel

end Gate

end AccessTrace
