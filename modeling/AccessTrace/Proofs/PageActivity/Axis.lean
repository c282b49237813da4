import Mathlib.Data.List.NodupEquivFin
import Mathlib.Data.List.Permutation
import Mathlib.Order.Hom.Basic
import AccessTrace.PageActivity
import AccessTrace.Proofs.Computation
import AccessTrace.Proofs.PageActivity

/-!
The display axis is dense. The gaps below a page add up to the pages that are left out, so its rank
is what remains of its number, and addresses keep their order when the pages between them go.
-/

namespace AccessTrace.PageActivity

section Axis

variable {pages : List UInt64} {page previous skipped : UInt64}

/-- Telescoping takes words as they are, whether they wrap around or not. -/
theorem axisFrom_eq (previous : UInt64) (rank : Nat) (pages : List UInt64) :
    axisFrom previous (previous - .ofNat rank) pages =
      pages.mapIdx fun k page => (page, page - .ofNat (rank + 1 + k)) := by
  induction pages generalizing previous rank with
  | nil => rfl
  | cons page rest ih =>
    have hskipped : previous - .ofNat rank + (page - previous - 1) = page - .ofNat (rank + 1) := by
      have hone : UInt64.ofNat 1 = 1 := rfl
      rw [UInt64.ofNat_add, hone]
      grind
    rw [axisFrom, hskipped, ih, List.mapIdx_cons]
    simp only [Nat.add_zero, Nat.add_assoc, Nat.add_comm 1]

theorem axisOf_eq (pages : List UInt64) :
    axisOf pages = pages.mapIdx fun rank page => (page, page - .ofNat rank) := by
  cases pages with
  | nil => rfl
  | cons page rest =>
    have hzero : page - .ofNat 0 = page := UInt64.sub_zero page
    have h := axisFrom_eq page 0 rest
    rw [hzero] at h
    rw [axisOf, h, List.mapIdx_cons, hzero]
    simp only [Nat.zero_add, Nat.add_comm 1]

theorem lookup_mapIdx (f : Nat → UInt64 → UInt64) (pages : List UInt64) (page : UInt64) :
    (pages.mapIdx fun rank page => (page, f rank page)).lookup page =
      (pages.idxOf? page).map fun rank => f rank page := by
  induction pages generalizing f with
  | nil => rfl
  | cons first rest ih =>
    rw [List.mapIdx_cons, List.lookup_cons, List.idxOf?_cons, ih fun rank => f (rank + 1)]
    by_cases hfirst : page = first
    · rw [hfirst, beq_self_eq_true, if_pos rfl]
      rfl
    · rw [beq_false_of_ne hfirst, beq_false_of_ne (Ne.symm hfirst), if_neg Bool.false_ne_true,
        Option.map_map]
      rfl

theorem toNat_gap (h : previous < page) :
    1 ≤ page - previous ∧ previous.toNat + (page - previous - 1).toNat + 1 = page.toNat := by
  have hlt : previous.toNat < page.toNat := UInt64.lt_iff_toNat_lt.1 h
  have hdistance : (page - previous).toNat = page.toNat - previous.toNat :=
    UInt64.toNat_sub_of_le _ _ (UInt64.le_of_lt h)
  have hone : 1 ≤ page - previous := by
    rw [UInt64.le_iff_toNat_le, hdistance, UInt64.toNat_one]
    omega
  refine ⟨hone, ?_⟩
  rw [UInt64.toNat_sub_of_le _ _ hone, hdistance, UInt64.toNat_one]
  omega

/-- No more is left out below a page than the pages below it, and so no step wraps around. -/
theorem axisFrom?_eq (h : (previous :: pages).Pairwise (· < ·)) (hskipped : skipped ≤ previous) :
    axisFrom? previous skipped pages = .ok (axisFrom previous skipped pages) := by
  induction pages generalizing previous skipped with
  | nil => rfl
  | cons page rest ih =>
    obtain ⟨hprevious, hrest⟩ := List.pairwise_cons.1 h
    have hlt := hprevious page List.mem_cons_self
    obtain ⟨hone, hgap⟩ := toNat_gap hlt
    rw [UInt64.le_iff_toNat_le] at hskipped
    have hpage := page.toNat_lt_size
    have hfits : skipped.toNat + (page - previous - 1).toNat < UInt64.size := by omega
    have hbelow : skipped + (page - previous - 1) ≤ page := by
      rw [UInt64.le_iff_toNat_le, Word.toNat_add_of_lt hfits]
      omega
    rw [axisFrom?, Word.sub?_eq (UInt64.le_of_lt hlt), ok_bind, Word.sub?_eq hone, ok_bind,
      Word.add?_eq hfits, ok_bind, ih hrest hbelow, ok_bind]
    rfl

theorem axisOf?_eq (h : pages.Pairwise (· < ·)) : axisOf? pages = .ok (axisOf pages) := by
  cases pages with
  | nil => rfl
  | cons page rest =>
    have hfits : (0 : UInt64).toNat + page.toNat < UInt64.size := by
      rw [UInt64.toNat_zero, Nat.zero_add]
      exact page.toNat_lt_size
    rw [axisOf?, Word.add?_eq hfits, ok_bind, UInt64.zero_add, axisFrom?_eq h (UInt64.le_refl page),
      ok_bind]
    rfl

theorem toNat_add_le (h : pages.Pairwise (· < ·)) {rank distance : Nat}
    (hprevious : pages[rank]? = some previous) (hpage : pages[rank + distance]? = some page) :
    previous.toNat + distance ≤ page.toNat := by
  induction distance generalizing page with
  | zero =>
    obtain rfl := Option.some.inj (hprevious.symm.trans hpage)
    exact Nat.le_refl _
  | succ distance ih =>
    obtain ⟨hlt, rfl⟩ := List.getElem?_eq_some_iff.1 hpage
    have hle : previous.toNat + distance ≤ pages[rank + distance].toNat :=
      ih (List.getElem?_eq_getElem (Nat.lt_of_succ_lt hlt))
    have hstep := List.pairwise_iff_getElem.1 h (rank + distance) (rank + distance + 1)
      (Nat.lt_of_succ_lt hlt) hlt (Nat.lt_succ_self _)
    rw [UInt64.lt_iff_toNat_lt] at hstep
    change previous.toNat + distance + 1 ≤ pages[rank + distance + 1].toNat
    omega

theorem le_toNat (h : pages.Pairwise (· < ·)) {rank : Nat} (hpage : pages[rank]? = some page) :
    rank ≤ page.toNat := by
  have hlt := (List.getElem?_eq_some_iff.1 hpage).1
  have hfirst := List.getElem?_eq_getElem (Nat.zero_lt_of_lt hlt)
  have hpage' : pages[0 + rank]? = some page := by rwa [Nat.zero_add]
  have hle := toNat_add_le h hfirst hpage'
  omega

end Axis

section Order

variable {α : Type} [LE α] [Std.IsLinearOrder α] [LT α] [Std.LawfulOrderLT α] {xs : List α}

theorem getElem_le_getElem_iff (h : xs.Pairwise (· < ·)) {i j : Nat} (hi : i < xs.length)
    (hj : j < xs.length) : xs[i] ≤ xs[j] ↔ i ≤ j := by
  rcases Nat.lt_trichotomy i j with hlt | rfl | hgt
  · have hless := List.pairwise_iff_getElem.1 h i j hi hj hlt
    exact iff_of_true (Std.le_of_lt hless) (Nat.le_of_lt hlt)
  · exact iff_of_true (Std.le_refl _) (Nat.le_refl _)
  · have hless := List.pairwise_iff_getElem.1 h j i hj hi hgt
    exact iff_of_false (Std.not_le.2 hless) (Nat.not_le.2 hgt)

/-- The members of an ascending list, in step with the places where they stand. -/
def placeOrder [DecidableEq α] (xs : List α) (h : xs.Pairwise (· < ·)) :
    {x // x ∈ xs} ≃o Fin xs.length where
  toEquiv := (List.Nodup.getEquiv xs (h.imp Std.ne_of_lt)).symm
  map_rel_iff' := by
    rintro ⟨a, ha⟩ ⟨b, hb⟩
    have hiff := getElem_le_getElem_iff h (List.idxOf_lt_length_of_mem ha)
      (List.idxOf_lt_length_of_mem hb)
    rw [List.getElem_idxOf, List.getElem_idxOf] at hiff
    exact hiff.symm

end Order

structure Laid (p : PageActivity) : Prop where
  ascending : p.axisPages.Pairwise (· < ·)
  axis : p.axis = axisOf p.axisPages
  pageSize : 0 < p.pageSize.toNat

theorem one_le_max (size : UInt64) : 1 ≤ max size 1 := by
  change 1 ≤ if size ≤ 1 then 1 else size
  split
  · exact UInt64.le_refl 1
  · rename_i hgt
    exact UInt64.le_of_lt (UInt64.not_le.1 hgt)

theorem laid_ofAddresses {addresses : List UInt64} {config : PageConfig}
    {lookback : List (List UInt64)} {p : PageActivity}
    (h : ofAddresses addresses config lookback = p) : Laid p where
  ascending := pairwise_axisPages h
  axis := by
    rw [axisPages_eq h, ← h]
    rfl
  pageSize := by
    have hsize : p.pageSize = max config.pageSize 1 := h ▸ rfl
    rw [hsize]
    exact UInt64.le_iff_toNat_le.1 (one_le_max _)

theorem toNat_pageOf (p : PageActivity) (addr : UInt64) :
    (p.pageOf addr).toNat = addr.toNat / p.pageSize.toNat :=
  UInt64.toNat_div addr p.pageSize

theorem pageOf_mul_add_mod (p : PageActivity) (addr : UInt64) :
    (p.pageOf addr).toNat * p.pageSize.toNat + addr.toNat % p.pageSize.toNat = addr.toNat := by
  rw [toNat_pageOf]
  exact Nat.div_add_mod' _ _

/-- Pages stand on the axis side by side, and addresses in their pages. -/
structure Dense (p : PageActivity) : Prop where
  ranked : ∃ order : {page // page ∈ p.axisPages} ≃o Fin p.axisPages.length,
    ∀ page, p.rank page.1 = some (order page).1
  unranked : ∀ page, page ∉ p.axisPages → p.rank page = none
  skipped : ∀ page, (p.skippedBelow page).map (fun skipped => (skipped.toNat : Int)) =
    (p.rank page).map fun rank : Nat => (page.toNat : Int) - rank
  growing : ∀ a b skippedA skippedB, a ≤ b → p.skippedBelow a = some skippedA →
    p.skippedBelow b = some skippedB → skippedA ≤ skippedB
  onAxis : ∀ addr, (p.compact addr).isSome ↔ p.pageOf addr ∈ p.axisPages
  place : ∀ addr, (p.compact addr).map UInt64.toNat = (p.rank (p.pageOf addr)).map fun rank =>
    rank * p.pageSize.toNat + addr.toNat % p.pageSize.toNat
  ordered : ∀ a b x y, p.compact a = some x → p.compact b = some y → (a < b ↔ x < y)
  injective : ∀ a b x, p.compact a = some x → p.compact b = some x → a = b
  inside : ∀ addr x, p.compact addr = some x →
    x.toNat < p.axisPages.length * p.pageSize.toNat

namespace Laid

variable {p : PageActivity} {page addr a b x y skipped : UInt64} {rank i j : Nat}

theorem rank_eq (p : PageActivity) (page : UInt64) : p.rank page = p.axisPages.idxOf? page := by
  rw [axisPages, List.idxOf?, List.findIdx?_map]
  rfl

theorem rank_eq_some_iff (h : Laid p) :
    p.rank page = some rank ↔ p.axisPages[rank]? = some page := by
  rw [rank_eq, List.idxOf?_eq_some_iff, List.getElem?_eq_some_iff]
  constructor
  · rintro ⟨hlt, hpage, -⟩
    exact ⟨hlt, hpage⟩
  · rintro ⟨hlt, rfl⟩
    refine ⟨hlt, rfl, fun k hk heq => ?_⟩
    have hless := List.pairwise_iff_getElem.1 h.ascending k rank (Nat.lt_trans hk hlt) hlt hk
    rw [heq] at hless
    exact UInt64.lt_irrefl _ hless

theorem exists_rank_iff (h : Laid p) : (∃ rank, p.rank page = some rank) ↔ page ∈ p.axisPages := by
  simp only [h.rank_eq_some_iff, List.mem_iff_getElem?]

theorem le_iff_of_rank (h : Laid p) (ha : p.rank a = some i) (hb : p.rank b = some j) :
    a ≤ b ↔ i ≤ j := by
  obtain ⟨hi, rfl⟩ := List.getElem?_eq_some_iff.1 (h.rank_eq_some_iff.1 ha)
  obtain ⟨hj, rfl⟩ := List.getElem?_eq_some_iff.1 (h.rank_eq_some_iff.1 hb)
  exact getElem_le_getElem_iff h.ascending hi hj

theorem skippedBelow_eq (h : Laid p) :
    p.skippedBelow page = (p.rank page).map fun rank => page - .ofNat rank := by
  rw [skippedBelow, h.axis, axisOf_eq, lookup_mapIdx, rank_eq]

theorem exists_rank_of_skippedBelow (h : Laid p) (hskipped : p.skippedBelow page = some skipped) :
    ∃ rank, p.rank page = some rank ∧ skipped.toNat + rank = page.toNat := by
  rw [h.skippedBelow_eq, Option.map_eq_some_iff] at hskipped
  obtain ⟨rank, hrank, rfl⟩ := hskipped
  have hle := le_toNat h.ascending (h.rank_eq_some_iff.1 hrank)
  have hword : (UInt64.ofNat rank).toNat = rank :=
    UInt64.toNat_ofNat_of_lt' (Nat.lt_of_le_of_lt hle page.toNat_lt)
  refine ⟨rank, hrank, ?_⟩
  rw [UInt64.toNat_sub_of_le _ _ (UInt64.le_iff_toNat_le.2 (by rwa [hword])), hword]
  omega

theorem rank_eq_none (h : Laid p) (hskipped : p.skippedBelow page = none) : p.rank page = none := by
  rwa [h.skippedBelow_eq, Option.map_eq_none_iff] at hskipped

theorem map_skippedBelow (h : Laid p) (page : UInt64) :
    (p.skippedBelow page).map (fun skipped => (skipped.toNat : Int)) =
      (p.rank page).map fun rank : Nat => (page.toNat : Int) - rank := by
  cases hskipped : p.skippedBelow page with
  | none => rw [h.rank_eq_none hskipped, Option.map_none, Option.map_none]
  | some skipped =>
    obtain ⟨rank, hrank, hpage⟩ := h.exists_rank_of_skippedBelow hskipped
    have heq : (skipped.toNat : Int) = page.toNat - rank := by omega
    rw [hrank, Option.map_some, Option.map_some, heq]

theorem skippedBelow_le (h : Laid p) (hle : a ≤ b) (ha : p.skippedBelow a = some x)
    (hb : p.skippedBelow b = some y) : x ≤ y := by
  obtain ⟨i, hi, hx⟩ := h.exists_rank_of_skippedBelow ha
  obtain ⟨j, hj, hy⟩ := h.exists_rank_of_skippedBelow hb
  have hij : i + (j - i) = j := Nat.add_sub_cancel' ((h.le_iff_of_rank hi hj).1 hle)
  have hapart : a.toNat + (j - i) ≤ b.toNat := by
    refine toNat_add_le h.ascending (h.rank_eq_some_iff.1 hi) ?_
    rw [hij]
    exact h.rank_eq_some_iff.1 hj
  rw [UInt64.le_iff_toNat_le]
  omega

theorem skipped_mul_le (h : Laid p) (hskipped : p.skippedBelow (p.pageOf addr) = some skipped) :
    skipped.toNat * p.pageSize.toNat ≤ addr.toNat := by
  obtain ⟨rank, -, hpage⟩ := h.exists_rank_of_skippedBelow hskipped
  have hle : skipped.toNat ≤ (p.pageOf addr).toNat := hpage ▸ Nat.le_add_right _ _
  calc
    skipped.toNat * p.pageSize.toNat ≤ (p.pageOf addr).toNat * p.pageSize.toNat :=
      Nat.mul_le_mul_right _ hle
    _ ≤ addr.toNat := Nat.le.intro (pageOf_mul_add_mod p addr)

theorem toNat_mul (h : Laid p) (hskipped : p.skippedBelow (p.pageOf addr) = some skipped) :
    (skipped * p.pageSize).toNat = skipped.toNat * p.pageSize.toNat :=
  Word.toNat_mul_of_lt (Nat.lt_of_le_of_lt (h.skipped_mul_le hskipped) addr.toNat_lt_size)

theorem mul_le (h : Laid p) (hskipped : p.skippedBelow (p.pageOf addr) = some skipped) :
    skipped * p.pageSize ≤ addr := by
  rw [UInt64.le_iff_toNat_le, h.toNat_mul hskipped]
  exact h.skipped_mul_le hskipped

theorem compact?_eq (h : Laid p) (addr : UInt64) : p.compact? addr = .ok (p.compact addr) := by
  rw [compact?, compact]
  cases hskipped : p.skippedBelow (p.pageOf addr) with
  | none => rfl
  | some skipped =>
    have hfits := Nat.lt_of_le_of_lt (h.skipped_mul_le hskipped) addr.toNat_lt_size
    change (Word.mul? skipped p.pageSize >>= fun left => _) = _
    rw [Word.mul?_eq hfits, ok_bind, Word.sub?_eq (h.mul_le hskipped), ok_bind]
    rfl

theorem map_compact (h : Laid p) (addr : UInt64) :
    (p.compact addr).map UInt64.toNat = (p.rank (p.pageOf addr)).map fun rank =>
      rank * p.pageSize.toNat + addr.toNat % p.pageSize.toNat := by
  rw [compact]
  cases hskipped : p.skippedBelow (p.pageOf addr) with
  | none => rw [h.rank_eq_none hskipped, Option.map_none, Option.map_none, Option.map_none]
  | some skipped =>
    obtain ⟨rank, hrank, hpage⟩ := h.exists_rank_of_skippedBelow hskipped
    have haddr := pageOf_mul_add_mod p addr
    rw [← hpage, Nat.add_mul] at haddr
    rw [hrank, Option.map_some, Option.map_some, Option.map_some,
      UInt64.toNat_sub_of_le _ _ (h.mul_le hskipped), h.toNat_mul hskipped]
    congr 1
    omega

theorem exists_rank_of_compact (h : Laid p) (hx : p.compact addr = some x) :
    ∃ rank, p.rank (p.pageOf addr) = some rank ∧
      x.toNat = rank * p.pageSize.toNat + addr.toNat % p.pageSize.toNat := by
  have hplace := h.map_compact addr
  rw [hx, Option.map_some, eq_comm, Option.map_eq_some_iff] at hplace
  obtain ⟨rank, hrank, heq⟩ := hplace
  exact ⟨rank, hrank, heq.symm⟩

theorem compact_lt (h : Laid p) (hlt : a < b) (hx : p.compact a = some x)
    (hy : p.compact b = some y) : x < y := by
  obtain ⟨i, hi, hx⟩ := h.exists_rank_of_compact hx
  obtain ⟨j, hj, hy⟩ := h.exists_rank_of_compact hy
  rw [UInt64.lt_iff_toNat_lt] at hlt ⊢
  have hpages : p.pageOf a ≤ p.pageOf b := by
    rw [UInt64.le_iff_toNat_le, toNat_pageOf, toNat_pageOf]
    exact Nat.div_le_div_right (Nat.le_of_lt hlt)
  rcases Nat.eq_or_lt_of_le ((h.le_iff_of_rank hi hj).1 hpages) with rfl | hij
  · -- One page: the addresses are as far apart as their places in it.
    have hpage := Option.some.inj
      ((h.rank_eq_some_iff.1 hi).symm.trans (h.rank_eq_some_iff.1 hj))
    have ha := pageOf_mul_add_mod p a
    have hb := pageOf_mul_add_mod p b
    rw [hpage] at ha
    omega
  · have hin := Nat.mod_lt a.toNat h.pageSize
    have hnext := Nat.mul_le_mul_right p.pageSize.toNat hij
    rw [Nat.succ_mul] at hnext
    omega

theorem compact_lt_length (h : Laid p) (hx : p.compact addr = some x) :
    x.toNat < p.axisPages.length * p.pageSize.toNat := by
  obtain ⟨rank, hrank, hx⟩ := h.exists_rank_of_compact hx
  have hlt := (List.getElem?_eq_some_iff.1 (h.rank_eq_some_iff.1 hrank)).1
  have hin := Nat.mod_lt addr.toNat h.pageSize
  calc
    x.toNat < (rank + 1) * p.pageSize.toNat := by rw [Nat.succ_mul]; omega
    _ ≤ p.axisPages.length * p.pageSize.toNat := Nat.mul_le_mul_right _ hlt

theorem exists_order (h : Laid p) : ∃ order : {page // page ∈ p.axisPages} ≃o
    Fin p.axisPages.length, ∀ page, p.rank page.1 = some (order page).1 := by
  refine ⟨placeOrder p.axisPages h.ascending, fun page => ?_⟩
  rw [h.rank_eq_some_iff]
  exact List.getElem?_idxOf page.2

theorem dense (h : Laid p) : Dense p where
  ranked := h.exists_order
  unranked page hpage := by
    rw [Option.eq_none_iff_forall_ne_some]
    intro rank hrank
    exact hpage (h.exists_rank_iff.1 ⟨rank, hrank⟩)
  skipped := h.map_skippedBelow
  growing _ _ _ _ := h.skippedBelow_le
  onAxis addr := by
    have hsome := congrArg Option.isSome (h.map_compact addr)
    rw [Option.isSome_map, Option.isSome_map] at hsome
    rw [hsome, Option.isSome_iff_exists]
    exact h.exists_rank_iff
  place := h.map_compact
  ordered a b x y hx hy := by
    refine ⟨fun hlt => h.compact_lt hlt hx hy, fun hlt => ?_⟩
    rcases Std.lt_trichotomy a b with hab | rfl | hba
    · exact hab
    · exact absurd (Option.some.inj (hx.symm.trans hy)) (Std.ne_of_lt hlt)
    · exact absurd (h.compact_lt hba hy hx) (Std.not_lt.2 (Std.le_of_lt hlt))
  injective a b x ha hb := by
    rcases Std.lt_trichotomy a b with hab | rfl | hba
    · exact absurd (h.compact_lt hab ha hb) (UInt64.lt_irrefl x)
    · rfl
    · exact absurd (h.compact_lt hba hb ha) (UInt64.lt_irrefl x)
  inside _ _ := h.compact_lt_length

end Laid

/-- The pages that are not quiet and those of earlier chunks stand side by side, and no word wraps
around when they are laid out or an address is put in its place. -/
theorem dense_ofAddresses (addresses : List UInt64) (config : PageConfig)
    (lookback : List (List UInt64)) :
    let p := ofAddresses addresses config lookback
    p.pageSize = max config.pageSize 1 ∧
      (∀ page, page ∈ p.axisPages ↔ page ∈ p.active ∨ ∃ pages ∈ lookback, page ∈ pages) ∧
      Dense p ∧ axisOf? p.axisPages = .ok p.axis ∧
      ∀ addr, p.compact? addr = .ok (p.compact addr) := by
  intro p
  have hlaid : Laid p := laid_ofAddresses rfl
  refine ⟨rfl, fun page => mem_axisPages rfl, hlaid.dense, ?_, hlaid.compact?_eq⟩
  rw [axisOf?_eq hlaid.ascending, hlaid.axis]

example : (ofAddresses [0xffffffffffffffff, 0x10] { pageSize := 0 } [[7]]).compact
    0xffffffffffffffff = some 2 := by cbv

end AccessTrace.PageActivity
