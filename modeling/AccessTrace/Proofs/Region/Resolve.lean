import AccessTrace.Proofs.Region.Lookup
import AccessTrace.Proofs.Region.Text

/-!
Which lists make a table, and what a table says of an address. The neighbours in a list decide about
all its pairs; of the regions of a table at most one holds an address, and that one names it.
-/

namespace AccessTrace.Region

/-- The first place of a list at which a region does not lie behind the one before it. -/
def IsFirstDisorder (regions : List Region) (d : Disorder) : Prop :=
  ∃ i a b, regions[i]? = some a ∧ regions[i + 1]? = some b ∧ ¬ Precedes a b ∧
    (∀ j < i, ∀ c e, regions[j]? = some c → regions[j + 1]? = some e → Precedes c e) ∧
    d = { index := i + 1, low := b.low, previousHigh := a.high }

variable {index : Nat} {regions : List Region} {d : Disorder}

theorem pairwise_precedes_iff : regions.Pairwise Precedes ↔ ∀ (i j : Nat) (a b : Region), i < j →
    regions[i]? = some a → regions[j]? = some b → a.low < b.low ∧ a.high ≤ b.low := by
  rw [List.pairwise_iff_getElem]
  constructor
  · intro h i j a b hij ha hb
    obtain ⟨hi, rfl⟩ := List.getElem?_eq_some_iff.1 ha
    obtain ⟨hj, rfl⟩ := List.getElem?_eq_some_iff.1 hb
    exact h i j hi hj hij
  · intro h i j hi hj hij
    exact h i j _ _ hij (List.getElem?_eq_getElem hi) (List.getElem?_eq_getElem hj)

theorem exists_of_firstDisorder (h : firstDisorder index regions = some d) :
    ∃ first, IsFirstDisorder regions first ∧ d = { first with index := index + first.index } := by
  fun_induction firstDisorder index regions with
  | case1 index a b rest hab ih =>
    obtain ⟨_, ⟨i, c, e, hc, he, hce, hfront, rfl⟩, rfl⟩ := ih h
    refine ⟨_, ⟨i + 1, c, e, hc, he, hce, ?_, rfl⟩, ?_⟩
    · rintro (_ | j) hj c' e' hc' he'
      · obtain rfl := Option.some.inj hc'
        obtain rfl := Option.some.inj he'
        exact hab
      · exact hfront j (by omega) c' e' hc' he'
    · simp only [Disorder.mk.injEq, and_true]
      omega
  | case2 index a b rest hab =>
    obtain rfl := Option.some.inj h
    exact ⟨_, ⟨0, a, b, rfl, rfl, hab, fun j hj => absurd hj (Nat.not_lt_zero j), rfl⟩, rfl⟩
  | case3 => contradiction

theorem IsFirstDisorder.unique {d e : Disorder} (hd : IsFirstDisorder regions d)
    (he : IsFirstDisorder regions e) : d = e := by
  obtain ⟨i, a, b, ha, hb, hab, hfront, rfl⟩ := hd
  obtain ⟨j, a', b', ha', hb', hab', hfront', rfl⟩ := he
  rcases Nat.lt_trichotomy i j with hij | rfl | hji
  · exact absurd (hfront' i hij a b ha hb) hab
  · obtain rfl := Option.some.inj (ha.symm.trans ha')
    obtain rfl := Option.some.inj (hb.symm.trans hb')
    rfl
  · exact absurd (hfront j hji a' b' ha' hb') hab'

theorem IsFirstDisorder.not_pairwise (h : IsFirstDisorder regions d) :
    ¬ regions.Pairwise Precedes := by
  obtain ⟨i, a, b, ha, hb, hab, -, -⟩ := h
  exact fun hpairs => hab (pairwise_precedes_iff.1 hpairs i (i + 1) a b (Nat.lt_succ_self i) ha hb)

theorem firstDisorder_eq_some_iff :
    firstDisorder 0 regions = some d ↔ IsFirstDisorder regions d := by
  have hfirst {e : Disorder} (h : firstDisorder 0 regions = some e) :
      IsFirstDisorder regions e := by
    obtain ⟨first, hfirst, rfl⟩ := exists_of_firstDisorder h
    rwa [Nat.zero_add]
  refine ⟨hfirst, fun h => ?_⟩
  cases hnone : firstDisorder 0 regions with
  | none => exact absurd (firstDisorder_eq_none_iff.1 hnone) h.not_pairwise
  | some e => rw [(hfirst hnone).unique h]

variable {r : Region} {addr : UInt64}

theorem isUnknown_of_contains (h : r.contains addr) : r.isUnknown = false := by
  obtain ⟨hlow, hhigh⟩ := contains_iff.1 h
  have hwide : r.low ≠ r.high := UInt64.ne_of_lt (UInt64.lt_of_le_of_lt hlow hhigh)
  rw [isUnknown, beq_false_of_ne hwide, Bool.false_and]

@[simp] theorem symbol_unknown (addr : UInt64) : (unknown addr).symbol addr = Word.hex addr := by
  rw [symbol, isUnknown_unknown, Bool.true_or, if_pos rfl]

theorem symbol_of_contains (h : r.contains addr) :
    ∃ mapping, r.symbol addr = mapping ++ "+" ++ Word.hex (addr - r.low) := by
  rw [symbol, isUnknown_of_contains h, h]
  exact ⟨_, rfl⟩

theorem symbol_ne_hex (h : r.contains addr) (w : UInt64) : r.symbol addr ≠ Word.hex w := by
  obtain ⟨mapping, hsymbol⟩ := symbol_of_contains h
  intro heq
  apply Word.plus_not_mem_hex w
  simp [← heq, hsymbol]

namespace Table

variable {t : Table}

theorem ofList_eq_error_iff : ofList regions = .error d ↔ IsFirstDisorder regions d := by
  rw [← firstDisorder_eq_some_iff]
  unfold ofList
  split
  · rename_i e he
    rw [he, Except.error.injEq, Option.some.injEq]
  · rename_i hnone
    simp [hnone]

theorem exists_ofList_iff : (∃ t, ofList regions = .ok t) ↔ regions.Pairwise Precedes := by
  rw [← @firstDisorder_eq_none_iff 0]
  unfold ofList
  split
  · rename_i e he
    simp [he]
  · rename_i hnone
    simp [hnone]

theorem eq_of_contains {i j : Nat} {s : Region} (hr : t.get? i = some r) (hs : t.get? j = some s)
    (hri : r.contains addr) (hsj : s.contains addr) : i = j := by
  have hi := lookup_eq_some_iff.2 ⟨hr, hri⟩
  have hj := lookup_eq_some_iff.2 ⟨hs, hsj⟩
  exact congrArg Prod.fst (Option.some.inj (hi.symm.trans hj))

theorem resolve_of_contains (hr : r ∈ t.toList) (h : r.contains addr) : t.resolve addr = r := by
  obtain ⟨id, hid⟩ := List.mem_iff_getElem?.1 hr
  rw [toList, Array.getElem?_toList] at hid
  rw [resolve, lookup_eq_some_iff.2 ⟨hid, h⟩]

theorem resolve_of_unmapped (h : ∀ r ∈ t.toList, r.contains addr = false) :
    t.resolve addr = unknown addr := by
  rw [resolve, lookup_eq_none_iff.2 h]

/-- What a table says of an address: the region that holds it, with its place, and a name that
begins with that region's and ends with the distance from its start. -/
structure Answers (t : Table) (addr : UInt64) : Prop where
  unique : ∀ i j r s, t.get? i = some r → t.get? j = some s → r.contains addr → s.contains addr →
    i = j
  lookup : ∀ id r, t.lookup addr = some (id, r) ↔ t.get? id = some r ∧ r.contains addr
  resolve : ∀ r ∈ t.toList, r.contains addr → t.resolve addr = r
  unknown : (t.resolve addr).isUnknown ↔ ∀ r ∈ t.toList, r.contains addr = false
  bare : t.symbol addr = Word.hex addr ↔ ∀ r ∈ t.toList, r.contains addr = false
  named : ∀ r ∈ t.toList, r.contains addr → ∃ mapping distance,
    t.symbol addr = mapping ++ "+" ++ Word.hex distance ∧
      r.low.toNat + distance.toNat = addr.toNat

theorem answers (t : Table) (addr : UInt64) : Answers t addr where
  unique _ _ _ _ := eq_of_contains
  lookup _ _ := lookup_eq_some_iff
  resolve _ := resolve_of_contains
  unknown := by
    refine ⟨fun h r hr => ?_, fun h => ?_⟩
    · refine Bool.eq_false_iff.2 fun hcontains => ?_
      rw [resolve_of_contains hr hcontains, isUnknown_of_contains hcontains] at h
      contradiction
    · rw [resolve_of_unmapped h, isUnknown_unknown]
  bare := by
    refine ⟨fun h r hr => ?_, fun h => ?_⟩
    · refine Bool.eq_false_iff.2 fun hcontains => ?_
      rw [symbol, resolve_of_contains hr hcontains] at h
      exact symbol_ne_hex hcontains addr h
    · rw [symbol, resolve_of_unmapped h, symbol_unknown]
  named r hr h := by
    obtain ⟨mapping, hsymbol⟩ := symbol_of_contains h
    have hlow := (contains_iff.1 h).1
    refine ⟨mapping, addr - r.low, ?_, ?_⟩
    · rw [symbol, resolve_of_contains hr h, hsymbol]
    · rw [UInt64.toNat_sub_of_le _ _ hlow]
      have := UInt64.le_iff_toNat_le.1 hlow
      omega

/-- A list makes a table when all its pairs are in order, else the first neighbours that are not are
reported; and the table of a list answers for the regions of that list. -/
theorem answers_ofList (regions : List Region) :
    ((∃ t, ofList regions = .ok t) ↔ ∀ (i j : Nat) (a b : Region), i < j →
        regions[i]? = some a → regions[j]? = some b → a.low < b.low ∧ a.high ≤ b.low) ∧
      (∀ d, ofList regions = .error d ↔ IsFirstDisorder regions d) ∧
      ∀ t, ofList regions = .ok t → t.toList = regions ∧ ∀ addr, Answers t addr := by
  rw [exists_ofList_iff, pairwise_precedes_iff]
  exact ⟨Iff.rfl, fun d => ofList_eq_error_iff, fun t ht => ⟨toList_of_ofList ht, t.answers⟩⟩

/-- Beside a region without width that is named as unmapped addresses are, and one that is reversed:
neither holds an address, and the regions around them are found. -/
theorem answers_ofList_degenerate :
    let regions : List Region := [⟨0x10, 0x20, "r--p", "0", "0:0", "0", "/a"⟩,
      ⟨0x20, 0x20, "r--p", "0", "0:0", "0", "unknown"⟩, ⟨0x30, 0x28, "r--p", "0", "0:0", "0", ""⟩,
      ⟨0x31, 0x40, "r--p", "0", "0:0", "0", ""⟩]
    ∃ t, ofList regions = .ok t ∧ (t.resolve 0x20).isUnknown ∧ t.symbol 0x30 = Word.hex 0x30 ∧
      ∃ mapping distance, t.symbol 0x3f = mapping ++ "+" ++ Word.hex distance ∧
        0x31 + distance.toNat = 0x3f := by
  intro regions
  obtain ⟨hiff, -, hanswers⟩ := answers_ofList regions
  obtain ⟨t, ht⟩ := hiff.2 (pairwise_precedes_iff.1 (by decide))
  obtain ⟨hlist, haddr⟩ := hanswers t ht
  refine ⟨t, ht, (haddr 0x20).unknown.2 ?_, (haddr 0x30).bare.2 ?_, ?_⟩
  · rw [hlist]; decide
  · rw [hlist]; decide
  · exact (haddr 0x3f).named ⟨0x31, 0x40, "r--p", "0", "0:0", "0", ""⟩ (by rw [hlist]; decide) rfl

end Table

end AccessTrace.Region
