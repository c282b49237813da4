import AccessTrace.Region.Table

/-!
Looking up an address finds the one region that holds it.
-/

namespace AccessTrace.Region.Table

variable {t : Table} {id : Nat} {r : Region} {addr : UInt64}

theorem precedes_of_lt {i j : Nat} {a b : Region} (ha : t.get? i = some a) (hb : t.get? j = some b)
    (h : i < j) : Precedes a b := by
  rw [get?, ← Array.getElem?_toList, List.getElem?_eq_some_iff] at ha hb
  obtain ⟨hi, rfl⟩ := ha
  obtain ⟨hj, rfl⟩ := hb
  exact List.pairwise_iff_getElem.1 t.sorted i j hi hj h

theorem partitionPoint_of_contains (hr : t.get? id = some r) (h : r.contains addr = true) :
    Search.partitionPoint (fun r : Region => r.low ≤ addr) t.regions = id + 1 := by
  obtain ⟨hlow, hhigh⟩ := contains_iff.1 h
  obtain ⟨hid, -⟩ := Array.getElem?_eq_some_iff.1 hr
  refine Search.partitionPoint_eq hid (fun i hi hfront => ?_) fun i hi hback => ?_
  · rw [decide_eq_true_eq]
    rcases Nat.lt_or_eq_of_le (Nat.le_of_lt_succ hfront) with hlt | rfl
    · have hprecedes := precedes_of_lt (Array.getElem?_eq_getElem hi) hr hlt
      exact UInt64.le_trans (UInt64.le_of_lt hprecedes.1) hlow
    · obtain rfl : t.regions[i] = r :=
        Option.some.inj ((Array.getElem?_eq_getElem hi).symm.trans hr)
      exact hlow
  · rw [decide_eq_false_iff_not, UInt64.not_le]
    have hprecedes := precedes_of_lt hr (Array.getElem?_eq_getElem hi) hback
    exact UInt64.lt_of_lt_of_le hhigh hprecedes.2

theorem lookup_eq_some_iff :
    t.lookup addr = some (id, r) ↔ t.get? id = some r ∧ r.contains addr := by
  constructor
  · intro h
    simp only [lookup] at h
    split at h
    · rename_i found hfound
      split at h
      · rename_i hcontains
        obtain ⟨rfl, rfl⟩ := Prod.mk.inj (Option.some.inj h)
        exact ⟨hfound, hcontains⟩
      · contradiction
    · contradiction
  · rintro ⟨hr, hcontains⟩
    simp only [lookup, partitionPoint_of_contains hr hcontains, Nat.add_sub_cancel, hr, hcontains,
      if_true]

theorem lookup_eq_none_iff : t.lookup addr = none ↔ ∀ r ∈ t.toList, r.contains addr = false := by
  constructor
  · intro h r hr
    obtain ⟨id, hid⟩ := List.mem_iff_getElem?.1 hr
    rw [toList, Array.getElem?_toList] at hid
    refine Bool.eq_false_iff.2 fun hcontains => ?_
    rw [lookup_eq_some_iff.2 ⟨hid, hcontains⟩] at h
    contradiction
  · intro h
    cases hlookup : t.lookup addr with
    | none => rfl
    | some found =>
      obtain ⟨hid, hcontains⟩ := lookup_eq_some_iff.1 hlookup
      rw [h found.2 (Array.mem_toList_iff.2 (Array.mem_of_getElem? hid))] at hcontains
      contradiction

end AccessTrace.Region.Table
