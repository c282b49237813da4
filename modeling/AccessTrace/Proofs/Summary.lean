import Mathlib.Data.UInt
import AccessTrace.Proofs.Chunk.Counts
import AccessTrace.Proofs.Store.Stack
import AccessTrace.Summary

/-!
What a summary says is what a count over the whole trace would say. The figures of the chunks are
added up, their regions united, and the frames are those that the last of them leaves open; in the
end it does not show where the trace was cut, nor which batches were refused on the way.
-/

namespace AccessTrace

structure Store.Recounts (regions : Region.Table) (records : List Record) (s : Store) : Prop where
  counts : s.counts = Counts.recount regions records
  total : s.counts.total = s.totalRecords
  totalRecords : s.totalRecords = records.length
  touched : ∀ id, id ∈ s.touchedRegions ↔ Touches regions records id
  ascending : s.touchedRegions.Pairwise (· < ·)

namespace Summary

def numbered (regions : Region.Table) (ids : List Nat) : List (Nat × Region) :=
  ids.filterMap fun id => (regions.get? id).map (id, ·)

/-- A summary says of a store what there is to say of the records in it. -/
structure Tells (regions : Region.Table) (records : List Record) (s : Store) (summary : Summary) :
    Prop where
  totalRecords : summary.totalRecords = .ofNat records.length
  counts : summary.counts = .ofCounts (Counts.recount regions records)
  chunks : summary.chunks.length = s.chunks.size
  chunkCount : summary.chunkCount = .ofNat s.chunks.size
  activePages : summary.activePages = (summary.chunks.map ChunkEntry.activePages).sum
  quietPages : summary.quietPages = (summary.chunks.map ChunkEntry.quietPages).sum
  touched : ∃ entries : List (Nat × Region), entries.map Prod.fst = s.touchedRegions ∧
    (∀ entry ∈ entries, regions.get? entry.1 = some entry.2) ∧
    entries.Pairwise (fun a b => a.1 < b.1 ∧ a.2.Precedes b.2) ∧
    summary.touchedRegions = entries.map fun entry => .ofRegion entry.1 entry.2
  openFrames : ∃ stack, CallStack.followAll [] records = some stack ∧
    summary.openFrames = stack.reverse.map regions.symbol
  openDepth : ∀ entry, summary.chunks.getLast? = some entry →
    entry.openDepth = .ofNat summary.openFrames.length
  nothingOpen : summary.chunks = [] → summary.openFrames = []

end Summary

section Run

variable {s : Store} {p last : Processor} {batches : List Batch} {chunks : List Chunk}
  {regions : Region.Table}

theorem Store.recounts_of_run (hrun : p.Run batches chunks last) (hrecord : p.nextRecord = 0)
    (hchunks : s.chunks.toList = chunks) : s.Recounts p.regions (batches.flatMap Batch.records) := by
  have hcounts : s.counts = Counts.recount p.regions (batches.flatMap Batch.records) := by
    rw [Store.counts, hchunks, hrun.sum_counts]
  have htotal := totalRecords_eq_length hrun hrecord hchunks
  refine ⟨hcounts, ?_, htotal, fun id => ?_, Tally.pairwise_distinct _⟩
  · rw [hcounts, Counts.total_recount, htotal]
  · rw [Store.touchedRegions, Tally.mem_distinct, hchunks, hrun.mem_touchedRegions]

end Run

namespace Summary

section Parts

variable {regions : Region.Table} {ids : List Nat} {entry : Nat × Region}

theorem ofNat_foldl_add (f : Chunk → Nat) (n : Nat) (chunks : List Chunk) :
    UInt64.ofNat (chunks.foldl (fun n c => n + f c) n) =
      .ofNat n + (chunks.map fun c => UInt64.ofNat (f c)).sum := by
  induction chunks generalizing n with
  | nil => exact (UInt64.add_zero _).symm
  | cons c rest ih =>
    rw [List.foldl_cons, ih, UInt64.ofNat_add, List.map_cons, List.sum_cons, UInt64.add_assoc]

theorem mem_numbered :
    entry ∈ numbered regions ids ↔ entry.1 ∈ ids ∧ regions.get? entry.1 = some entry.2 := by
  rw [numbered, List.mem_filterMap]
  constructor
  · rintro ⟨id, hid, hentry⟩
    obtain ⟨r, hr, rfl⟩ := Option.map_eq_some_iff.1 hentry
    exact ⟨hid, hr⟩
  · rintro ⟨hid, hr⟩
    exact ⟨entry.1, hid, by rw [hr, Option.map_some]⟩

theorem map_fst_numbered (h : ∀ id ∈ ids, ∃ r, regions.get? id = some r) :
    (numbered regions ids).map Prod.fst = ids := by
  induction ids with
  | nil => rfl
  | cons id rest ih =>
    obtain ⟨r, hr⟩ := h id List.mem_cons_self
    rw [numbered, List.filterMap_cons_some (by rw [hr, Option.map_some]), List.map_cons, ← numbered,
      ih fun id hid => h id (.tail _ hid)]

theorem pairwise_numbered (h : ((numbered regions ids).map Prod.fst).Pairwise (· < ·)) :
    (numbered regions ids).Pairwise fun a b => a.1 < b.1 ∧ a.2.Precedes b.2 := by
  refine (List.pairwise_map.1 h).imp_of_mem fun ha hb hlt => ⟨hlt, ?_⟩
  exact Region.Table.precedes_of_lt (mem_numbered.1 ha).2 (mem_numbered.1 hb).2 hlt

theorem map_ofRegion_numbered :
    (numbered regions ids).map (fun entry => RegionEntry.ofRegion entry.1 entry.2) =
      ids.filterMap fun id => (regions.get? id).map (RegionEntry.ofRegion id) := by
  rw [numbered, List.map_filterMap]
  simp only [Option.map_map, Function.comp_def]

end Parts

section Store

variable {s : Store} {records : List Record} {stack : List UInt64}

theorem openDepth_of_getLast? {entry : ChunkEntry}
    (hlast : (s.chunks.toList.map ChunkEntry.ofChunk).getLast? = some entry) :
    entry.openDepth = .ofNat s.openFrames.length := by
  rw [List.getLast?_map, Option.map_eq_some_iff] at hlast
  obtain ⟨c, hc, rfl⟩ := hlast
  rw [Store.openFrames_eq, hc]
  rfl

theorem tells_ofStore (trace : String) (pageSize : UInt64) (generatedAt : String)
    (recounts : s.Recounts s.regions records) (hstack : CallStack.followAll [] records = some stack)
    (hopen : s.openFrames = stack.reverse.map Record.enter) :
    Tells s.regions records s (ofStore s trace pageSize generatedAt) := by
  have hnames : (ofStore s trace pageSize generatedAt).openFrames =
      stack.reverse.map s.regions.symbol := by
    change (s.openFrames.filterMap Record.function?).map s.regions.symbol = _
    have hfunctions : Record.function? ∘ Record.enter = some := rfl
    rw [hopen, List.filterMap_map, hfunctions, List.filterMap_some]
  have hlength :
      (ofStore s trace pageSize generatedAt).openFrames.length = s.openFrames.length := by
    rw [hnames, hopen, List.length_map, List.length_map]
  have hsum (f : Chunk → Nat) (g : ChunkEntry → UInt64)
      (hg : ∀ c, g (.ofChunk c) = .ofNat (f c)) :
      UInt64.ofNat (s.chunks.toList.foldl (fun n c => n + f c) 0) =
        ((s.chunks.toList.map ChunkEntry.ofChunk).map g).sum := by
    rw [ofNat_foldl_add, List.map_map]
    simp only [Function.comp_def, hg]
    exact UInt64.zero_add _
  have hfst := map_fst_numbered fun id hid =>
    ((recounts.touched id).1 hid).imp fun r hr => hr.1
  exact {
    totalRecords := congrArg UInt64.ofNat recounts.totalRecords
    counts := congrArg CountFigures.ofCounts recounts.counts
    chunks := (List.length_map _).trans Array.length_toList
    chunkCount := congrArg UInt64.ofNat Array.length_toList
    activePages := hsum _ _ fun _ => rfl
    quietPages := hsum _ _ fun _ => rfl
    touched := ⟨numbered s.regions s.touchedRegions, hfst, fun entry h => (mem_numbered.1 h).2,
      pairwise_numbered (by rw [hfst]; exact recounts.ascending), map_ofRegion_numbered.symm⟩
    openFrames := ⟨stack, hstack, hnames⟩
    openDepth := fun entry hentry => hlength ▸ openDepth_of_getLast? hentry
    nothingOpen := fun hnone => by
      have hempty : s.chunks.toList = [] := List.map_eq_nil_iff.1 hnone
      rw [← List.length_eq_zero_iff, hlength, Store.openFrames_eq, hempty]
      rfl }

/-- However a trace is cut into batches and whichever of these are refused, the store of those that
were taken in, and its summary, say what their records do. -/
theorem tells_ofStore_appendAll_feed (pages : PageConfig) (retainDetail rereads : Bool)
    (regions : Region.Table) (hydratedLimit : Nat) (batches : List Batch) (trace : String)
    (pageSize : UInt64) (generatedAt : String) :
    let p := Processor.start pages retainDetail regions
    let s := (Store.start regions rereads hydratedLimit).appendAll (p.feed batches).1
    let records := (p.taken batches).flatMap Batch.records
    s.chunks.size = (p.taken batches).length ∧ s.Recounts regions records ∧
      Tells regions records s (ofStore s trace pageSize generatedAt) := by
  intro p s records
  have hrun := p.run_taken batches
  have hchunks : s.chunks.toList = (p.feed batches).1 := Store.toList_chunks_appendAll _ _
  have hregions : s.regions = regions := by
    rw [show s = _ from Store.appendAll_eq _ _]
    rfl
  have recounts : s.Recounts regions records := Store.recounts_of_run hrun rfl hchunks
  obtain ⟨stack, hstack⟩ := hrun.exists_followAll [] rfl
  have hopen : s.openFrames = stack.reverse.map Record.enter := by
    rw [Store.openFrames_of_run hrun rfl hchunks, hrun.carry_of_followAll [] rfl hstack]
  refine ⟨?_, recounts, ?_⟩
  · rw [← Array.length_toList, hchunks, hrun.length_eq]
  · rw [← hregions] at recounts ⊢
    exact tells_ofStore trace pageSize generatedAt recounts hstack hopen

end Store

end Summary

end AccessTrace
