import AccessTrace.Proofs.Chunk.Run
import AccessTrace.Proofs.Region.Lookup
import AccessTrace.Proofs.Tally

/-!
What chunks count, added up, is what their records count together, wherever the cuts between the
chunks are.
-/

namespace AccessTrace

namespace Counts

def recount (regions : Region.Table) (records : List Record) : Counts where
  accesses := records.countP fun r => r.access?.isSome
  writes := records.countP fun r => r.access?.any Access.isWrite
  enters := records.countP fun r => r matches .enter _
  exits := records.countP fun r => r matches .exit _
  unmapped := records.countP fun r =>
    r.access?.any fun a => regions.toList.all fun region => !region.contains a.addr

variable {regions : Region.Table}

theorem add_assoc (a b c : Counts) : a + b + c = a + (b + c) := by
  change add (add a b) c = add a (add b c)
  simp only [add, Nat.add_assoc]

theorem zero_add (c : Counts) : zero + c = c := by
  change add zero c = c
  simp only [add, zero, Nat.zero_add]

theorem recount_append (front rest : List Record) :
    recount regions (front ++ rest) = recount regions front + recount regions rest := by
  change _ = add _ _
  simp only [recount, List.countP_append, add]

theorem recount_singleton (r : Record) : recount regions [r] = ofRecord regions r := by
  cases r with
  | access a =>
    have hunmapped : (regions.toList.all fun region => !region.contains a.addr) =
        !(regions.lookup a.addr).isSome := by
      rw [Bool.eq_iff_iff, List.all_eq_true, Bool.not_eq_true', Option.isSome_eq_false_iff,
        Option.isNone_iff_eq_none, Region.Table.lookup_eq_none_iff]
      simp
    cases hlookup : regions.lookup a.addr <;>
      simp [recount, ofRecord, Record.access?, List.countP_cons, hunmapped, hlookup, zero]
  | enter function => rfl
  | exit function => rfl

theorem foldl_ofRecord (c : Counts) (records : List Record) :
    records.foldl (fun c r => c + ofRecord regions r) c = c + recount regions records := by
  induction records generalizing c with
  | nil => rfl
  | cons r rest ih =>
    rw [List.foldl_cons, ih, ← recount_singleton, add_assoc, ← recount_append,
      List.singleton_append]

theorem ofRecords_eq (records : List Record) :
    ofRecords regions records = recount regions records := by
  rw [ofRecords, foldl_ofRecord, zero_add]

theorem total_add (a b : Counts) : (a + b).total = a.total + b.total := by
  change (add a b).total = _
  simp only [total, add]
  omega

theorem total_recount (records : List Record) :
    (recount regions records).total = records.length := by
  induction records with
  | nil => rfl
  | cons r rest ih =>
    have hone : (ofRecord regions r).total = 1 := by cases r <;> rfl
    rw [← List.singleton_append, recount_append, total_add, ih, recount_singleton, hone,
      List.length_append, List.length_singleton]

end Counts

/-- Whether a region with this number holds the address of some access. -/
def Touches (regions : Region.Table) (records : List Record) (id : Nat) : Prop :=
  ∃ r, regions.get? id = some r ∧ ∃ a, Record.access a ∈ records ∧ r.contains a.addr = true

section Touches

variable {regions : Region.Table} {front rest records : List Record} {id : Nat} {addr : UInt64}

theorem mem_addresses : addr ∈ PageActivity.addresses records ↔
    ∃ a, Record.access a ∈ records ∧ a.addr = addr := by
  rw [PageActivity.addresses, List.mem_filterMap]
  constructor
  · rintro ⟨r, hr, haddr⟩
    cases r with
    | access a => exact ⟨a, hr, Option.some.inj haddr⟩
    | enter function => contradiction
    | exit function => contradiction
  · rintro ⟨a, ha, rfl⟩
    exact ⟨_, ha, rfl⟩

theorem mem_touchedRegions : id ∈ touchedRegions regions records ↔ Touches regions records id := by
  rw [touchedRegions, Tally.mem_distinct, List.mem_filterMap]
  constructor
  · rintro ⟨addr, haddr, hid⟩
    obtain ⟨a, ha, rfl⟩ := mem_addresses.1 haddr
    obtain ⟨⟨found, r⟩, hlookup, rfl⟩ := Option.map_eq_some_iff.1 hid
    obtain ⟨hr, hcontains⟩ := Region.Table.lookup_eq_some_iff.1 hlookup
    exact ⟨r, hr, a, ha, hcontains⟩
  · rintro ⟨r, hr, a, ha, hcontains⟩
    refine ⟨a.addr, mem_addresses.2 ⟨a, ha, rfl⟩, ?_⟩
    rw [Region.Table.lookup_eq_some_iff.2 ⟨hr, hcontains⟩, Option.map_some]

theorem touches_append :
    Touches regions (front ++ rest) id ↔ Touches regions front id ∨ Touches regions rest id := by
  simp only [Touches, List.mem_append, or_and_right, exists_or, and_or_left]

theorem not_touches_nil : ¬Touches regions [] id := by
  rintro ⟨r, -, a, ha, -⟩
  contradiction

end Touches

namespace Processor.Run

variable {p last : Processor} {batches : List Batch} {chunks : List Chunk}

theorem sum_counts (h : p.Run batches chunks last) :
    Counts.sum (chunks.map Chunk.counts) =
      Counts.recount p.regions (batches.flatMap Batch.records) := by
  -- The sum starts at any counts, so that the induction can go on behind the first chunk.
  have hfrom (c : Counts) : (chunks.map Chunk.counts).foldl (· + ·) c =
      c + Counts.recount p.regions (batches.flatMap Batch.records) := by
    induction h generalizing c with
    | nil => rfl
    | cons head tail ih =>
      have step := step_of_process head
      have hregions := (Run.cons head (.nil _)).regions
      rw [List.map_cons, List.foldl_cons, ih, step.counts, Counts.ofRecords_eq, hregions,
        List.flatMap_cons, Counts.recount_append, Counts.add_assoc]
  exact (hfrom _).trans (Counts.zero_add _)

theorem mem_touchedRegions (h : p.Run batches chunks last) {id : Nat} :
    id ∈ chunks.flatMap Chunk.touchedRegions ↔
      Touches p.regions (batches.flatMap Batch.records) id := by
  induction h with
  | nil => exact iff_of_false (List.not_mem_nil) not_touches_nil
  | cons head tail ih =>
    have step := step_of_process head
    have hregions := (Run.cons head (.nil _)).regions
    rw [List.flatMap_cons, List.mem_append, ih, step.touchedRegions,
      AccessTrace.mem_touchedRegions, hregions, List.flatMap_cons, touches_append]

end Processor.Run

end AccessTrace
