import Mathlib.Data.List.Infix
import Mathlib.Data.List.Sort
import AccessTrace.Proofs.Summary
import AccessTrace.Summary.Observation

/-!
The moments of a summary. Each part of it is that of the store at some moment, the later parts of
later moments. They agree with one another unless a record was published between the first reading
and the last; then the summary is that of no moment at all.
-/

namespace AccessTrace

section Run

variable {s t : Store} {p last : Processor} {batches : List Batch} {chunks front : List Chunk}
  {regions : Region.Table} {records : List Record}

theorem Processor.Run.of_prefix (h : p.Run batches chunks last) (hfront : front <+: chunks) :
    ∃ middle, p.Run (batches.take front.length) front middle := by
  induction h generalizing front with
  | nil p =>
    obtain rfl := List.prefix_nil.1 hfront
    exact ⟨p, .nil p⟩
  | @cons p _ _ _ _ _ _ head tail ih =>
    cases front with
    | nil => exact ⟨p, .nil p⟩
    | cons c rest =>
      obtain ⟨rfl, hrest⟩ := List.cons_prefix_cons.1 hfront
      exact (ih hrest).imp fun middle hrun => .cons head hrun

theorem Store.Recounts.touchedRegions_eq (hs : s.Recounts regions records)
    (ht : t.Recounts regions records) : s.touchedRegions = t.touchedRegions :=
  List.Pairwise.eq_of_mem_iff hs.ascending ht.ascending fun id =>
    (hs.touched id).trans (ht.touched id).symm

theorem Store.total_of_run (hrun : p.Run batches chunks last) (hrecord : p.nextRecord = 0)
    (hs : s.chunks.toList <+: chunks) :
    s.totalRecords = (s.chunks.toList.map Chunk.recordCount).sum ∧
      s.counts.total = (s.chunks.toList.map Chunk.recordCount).sum := by
  obtain ⟨middle, hfront⟩ := hrun.of_prefix hs
  have recounts := recounts_of_run hfront hrecord rfl
  rw [recounts.total, recounts.totalRecords, hfront.sum_recordCount]
  exact ⟨rfl, rfl⟩

/-- What a store says besides its chunks stays as it is while no record comes in. -/
theorem Store.aggregates_eq_of_run (hrun : p.Run batches chunks last) (hrecord : p.nextRecord = 0)
    (hcarry : p.carry = []) (hs : s.chunks.toList <+: t.chunks.toList)
    (ht : t.chunks.toList <+: chunks)
    (hsum : (s.chunks.toList.map Chunk.recordCount).sum =
      (t.chunks.toList.map Chunk.recordCount).sum) :
    s.touchedRegions = t.touchedRegions ∧ s.openFrames = t.openFrames ∧
      s.totalRecords = t.totalRecords ∧ s.counts = t.counts := by
  obtain ⟨_, before⟩ := hrun.of_prefix (hs.trans ht)
  obtain ⟨_, behind⟩ := hrun.of_prefix ht
  have hrecords := ((List.take_prefix_take_left hs.length_le).flatMap Batch.records).eq_of_length
    (before.sum_recordCount.symm.trans (hsum.trans behind.sum_recordCount))
  have recounts := recounts_of_run before hrecord rfl
  have recounts' := recounts_of_run behind hrecord rfl
  obtain ⟨stack, hstack⟩ := before.exists_followAll [] hcarry
  have hopen := openFrames_of_run before hcarry rfl
  have hopen' := openFrames_of_run behind hcarry rfl
  rw [before.carry_of_followAll [] hcarry hstack] at hopen
  rw [hrecords] at recounts hstack
  rw [behind.carry_of_followAll [] hcarry hstack] at hopen'
  exact ⟨recounts.touchedRegions_eq recounts', hopen.trans hopen'.symm,
    recounts.totalRecords.trans recounts'.totalRecords.symm,
    recounts.counts.trans recounts'.counts.symm⟩

end Run

namespace Summary

def Reading.ofStores (a b c d e : Store) : Reading where
  chunks := a.chunks.toList
  touched := b.touchedRegions
  openFrames := c.openFrames
  totalRecords := d.totalRecords
  counts := e.counts

def Stage.ofStores : List Store → Stage
  | [] => .begun
  | [a] => .chunks a.chunks.toList
  | [a, b] => .touched a.chunks.toList b.touchedRegions
  | [a, b, c] => .openFrames a.chunks.toList b.touchedRegions c.openFrames
  | [a, b, c, d] => .totalRecords a.chunks.toList b.touchedRegions c.openFrames d.totalRecords
  | a :: b :: c :: d :: e :: _ => .taken (.ofStores a b c d e)

theorem Stage.read_ofStores (stores : List Store) (s : Store) :
    (ofStores stores).read s = ofStores (stores ++ [s]) := by
  match stores with
  | [] | [_] | [_, _] | [_, _, _] | [_, _, _, _] | _ :: _ :: _ :: _ :: _ :: _ => rfl

namespace Observation

/-- The chunks published so far, and those that each reading so far has met. -/
structure Sees (s : Store) (done : List Chunk) (met : List (List Chunk)) (o : Observation) : Prop
    where
  store : o.store = s.appendAll done
  stage : o.stage = .ofStores (met.map s.appendAll)
  growing : met.Pairwise (· <+: ·)
  behind : ∀ front ∈ met, front <+: done

variable {s : Store} {done : List Chunk} {met : List (List Chunk)} {o : Observation}

theorem sees_start (s : Store) : (start s).Sees s [] [] where
  store := rfl
  stage := rfl
  growing := .nil
  behind := by simp

namespace Sees

theorem append (h : o.Sees s done met) (c : Chunk) :
    (o.step (.append c)).Sees s (done ++ [c]) met where
  store := by
    rw [step, h.store, Store.appendAll, Store.appendAll, List.foldl_append]
    rfl
  stage := h.stage
  growing := h.growing
  behind := fun front hfront => (h.behind front hfront).trans (List.prefix_append _ _)

theorem read (h : o.Sees s done met) : (o.step .read).Sees s done (met ++ [done]) where
  store := h.store
  stage := by
    rw [step, h.stage, h.store, Stage.read_ofStores, List.map_append, List.map_singleton]
  growing := by
    refine List.pairwise_append.2 ⟨h.growing, List.pairwise_singleton _ _, ?_⟩
    intro front hfront now hnow
    rw [List.mem_singleton.1 hnow]
    exact h.behind front hfront
  behind := by
    intro front hfront
    rcases List.mem_append.1 hfront with hfront | hnow
    · exact h.behind front hfront
    · rw [List.mem_singleton.1 hnow]

theorem run (h : o.Sees s done met) (events : List Event) :
    ∃ more, more.length = events.countP Event.isRead ∧
      (o.run events).Sees s (done ++ events.filterMap Event.chunk?) (met ++ more) := by
  induction events generalizing o done met with
  | nil => exact ⟨[], rfl, by rwa [List.filterMap_nil, List.append_nil, List.append_nil]⟩
  | cons e rest ih =>
    cases e with
    | append c =>
      obtain ⟨more, hlength, hrun⟩ := ih (h.append c)
      rw [List.append_assoc] at hrun
      exact ⟨more, hlength, hrun⟩
    | read =>
      obtain ⟨more, hlength, hrun⟩ := ih h.read
      rw [List.append_assoc] at hrun
      exact ⟨done :: more, by rw [List.length_cons, hlength, List.countP_cons_of_pos rfl], hrun⟩

end Sees

/-- Five readings take a summary, whatever is appended in between; each meets what the one in front
of it met, and perhaps more. -/
theorem exists_reading (s : Store) {events : List Event}
    (hreads : 5 ≤ events.countP Event.isRead) :
    ∃ a b c d e : List Chunk, a <+: b ∧ b <+: c ∧ c <+: d ∧ d <+: e ∧
      e <+: events.filterMap Event.chunk? ∧ ((start s).run events).reading? =
        some (.ofStores (s.appendAll a) (s.appendAll b) (s.appendAll c) (s.appendAll d)
          (s.appendAll e)) := by
  obtain ⟨met, hlength, sees⟩ := (sees_start s).run events
  rw [List.nil_append, List.nil_append] at sees
  match met, hlength ▸ hreads with
  | a :: b :: c :: d :: e :: more, _ =>
    obtain ⟨ha, hb, hc, hd, -⟩ := by simpa only [List.pairwise_cons] using sees.growing
    refine ⟨a, b, c, d, e, ha b ?_, hb c ?_, hc d ?_, hd e ?_, sees.behind e (by simp), ?_⟩
    any_goals exact List.mem_cons_self
    rw [reading?, sees.stage]
    rfl

end Observation

section Words

variable {m n : Nat} {c c' : Counts} {chunks chunks' : List Chunk}

theorem eq_of_ofNat_eq (h : UInt64.ofNat m = .ofNat n) (hm : m < UInt64.size)
    (hn : n < UInt64.size) : m = n := by
  rw [← UInt64.toNat_ofNat_of_lt' hm, h, UInt64.toNat_ofNat_of_lt' hn]

theorem total_eq_of_ofCounts (h : CountFigures.ofCounts c = .ofCounts c')
    (hc : c.total < UInt64.size) (hc' : c'.total < UInt64.size) : c.total = c'.total := by
  obtain ⟨haccesses, -, henters, hexits, -⟩ := CountFigures.mk.inj h
  unfold Counts.total at *
  rw [eq_of_ofNat_eq haccesses (by omega) (by omega), eq_of_ofNat_eq henters (by omega) (by omega),
    eq_of_ofNat_eq hexits (by omega) (by omega)]

theorem sum_recordCount_ofChunk (chunks : List Chunk) :
    ((chunks.map ChunkEntry.ofChunk).map ChunkEntry.recordCount).sum =
      .ofNat (chunks.map Chunk.recordCount).sum := by
  induction chunks with
  | nil => rfl
  | cons c rest ih =>
    rw [List.map_cons, List.map_cons, List.sum_cons, ih, List.map_cons, List.sum_cons,
      UInt64.ofNat_add]
    rfl

theorem eq_of_ofReading_eq {regions : Region.Table} {trace generatedAt : String} {pageSize : UInt64}
    {r r' : Reading} (h : ofReading regions trace pageSize generatedAt r =
      ofReading regions trace pageSize generatedAt r')
    (hchunks : (r.chunks.map Chunk.recordCount).sum < UInt64.size)
    (hchunks' : (r'.chunks.map Chunk.recordCount).sum < UInt64.size)
    (hcounts : r.counts.total < UInt64.size) (hcounts' : r'.counts.total < UInt64.size) :
    (r.chunks.map Chunk.recordCount).sum = (r'.chunks.map Chunk.recordCount).sum ∧
      r.counts.total = r'.counts.total := by
  have hentries : r.chunks.map ChunkEntry.ofChunk = r'.chunks.map ChunkEntry.ofChunk :=
    congrArg Summary.chunks h
  have hsum := congrArg (fun entries => (entries.map ChunkEntry.recordCount).sum) hentries
  simp only [sum_recordCount_ofChunk] at hsum
  exact ⟨eq_of_ofNat_eq hsum hchunks hchunks',
    total_eq_of_ofCounts (congrArg Summary.counts h) hcounts hcounts'⟩

end Words

section Moments

variable {p last : Processor} {batches : List Batch} {published front rest : List Chunk}
  {s a b c d e : Store}

theorem sum_recordCount_le (h : front <+: rest) :
    (front.map Chunk.recordCount).sum ≤ (rest.map Chunk.recordCount).sum := by
  obtain ⟨more, rfl⟩ := h
  rw [List.map_append, List.sum_append]
  exact Nat.le_add_right _ _

theorem Reading.sum_eq_total_ofStore (hrun : p.Run batches published last)
    (hrecord : p.nextRecord = 0) (hs : s.chunks.toList <+: published) :
    ((ofStore s).chunks.map Chunk.recordCount).sum = (ofStore s).counts.total :=
  (Store.total_of_run hrun hrecord hs).2.symm

theorem Reading.sum_le_total_ofStores (hrun : p.Run batches published last)
    (hrecord : p.nextRecord = 0) (had : a.chunks.toList <+: d.chunks.toList)
    (hde : d.chunks.toList <+: e.chunks.toList) (he : e.chunks.toList <+: published) :
    ((ofStores a b c d e).chunks.map Chunk.recordCount).sum ≤ (ofStores a b c d e).totalRecords ∧
      (ofStores a b c d e).totalRecords ≤ (ofStores a b c d e).counts.total := by
  have hrecords := (Store.total_of_run hrun hrecord (hde.trans he)).1
  have hcounts := (Store.total_of_run hrun hrecord he).2
  constructor
  · exact Nat.le_trans (sum_recordCount_le had) (Nat.le_of_eq hrecords.symm)
  · calc
      d.totalRecords = (d.chunks.toList.map Chunk.recordCount).sum := hrecords
      _ ≤ (e.chunks.toList.map Chunk.recordCount).sum := sum_recordCount_le hde
      _ = e.counts.total := hcounts.symm

theorem Reading.ofStores_eq_ofStore (hrun : p.Run batches published last)
    (hrecord : p.nextRecord = 0) (hcarry : p.carry = [])
    (hab : a.chunks.toList <+: b.chunks.toList) (hbc : b.chunks.toList <+: c.chunks.toList)
    (hcd : c.chunks.toList <+: d.chunks.toList) (hde : d.chunks.toList <+: e.chunks.toList)
    (he : e.chunks.toList <+: published)
    (hsum : (a.chunks.toList.map Chunk.recordCount).sum =
      (e.chunks.toList.map Chunk.recordCount).sum) : ofStores a b c d e = ofStore a := by
  have hce := hcd.trans hde
  have hac := hab.trans hbc
  have hsame {s : Store} (has : a.chunks.toList <+: s.chunks.toList)
      (hse : s.chunks.toList <+: e.chunks.toList) :=
    Store.aggregates_eq_of_run hrun hrecord hcarry has (hse.trans he)
      (Nat.le_antisymm (sum_recordCount_le has) (hsum ▸ sum_recordCount_le hse))
  rw [ofStores, ofStore, (hsame hab (hbc.trans hce)).1, (hsame hac hce).2.1,
    (hsame (hac.trans hcd) hde).2.2.1, (hsame (hac.trans hce) (List.prefix_refl _)).2.2.2]

theorem sum_eq_total_of_ofReading_eq {regions : Region.Table} {trace generatedAt : String}
    {pageSize : UInt64} (hrun : p.Run batches published last) (hrecord : p.nextRecord = 0)
    (hsize : (published.map Chunk.recordCount).sum < UInt64.size)
    (ha : a.chunks.toList <+: published) (he : e.chunks.toList <+: published)
    (hs : s.chunks.toList <+: published)
    (h : ofReading regions trace pageSize generatedAt (.ofStores a b c d e) =
      ofReading regions trace pageSize generatedAt (.ofStore s)) :
    (a.chunks.toList.map Chunk.recordCount).sum = e.counts.total := by
  have hfits {t : Store} (ht : t.chunks.toList <+: published) :
      (t.chunks.toList.map Chunk.recordCount).sum < UInt64.size ∧ t.counts.total < UInt64.size := by
    have hlt := Nat.lt_of_le_of_lt (sum_recordCount_le ht) hsize
    exact ⟨hlt, (Store.total_of_run hrun hrecord ht).2 ▸ hlt⟩
  obtain ⟨hsum, htotal⟩ := eq_of_ofReading_eq h (hfits ha).1 (hfits hs).1 (hfits he).2 (hfits hs).2
  exact hsum.trans ((Reading.sum_eq_total_ofStore hrun hrecord hs).trans htotal.symm)

end Moments

/-- The summary that is taken of a store while the chunks of a trace are published. Its parts are
those of five moments, no one earlier than the one before it, so that the records of the chunks may
be fewer than the total and these fewer than the counts. It is the summary of a single moment
exactly if the first and the last agree on the number of the records. -/
theorem ofReading_eq_ofStore_iff (pages : PageConfig) (retainDetail rereads : Bool)
    (regions : Region.Table) (hydratedLimit : Nat) (batches : List Batch) (events : List Event)
    (hpublished : events.filterMap Event.chunk? =
      ((Processor.start pages retainDetail regions).feed batches).1)
    (hreads : 5 ≤ events.countP Event.isRead) :
    let published := ((Processor.start pages retainDetail regions).feed batches).1
    let empty := Store.start regions rereads hydratedLimit
    ∃ (r : Reading) (a b c d e : List Chunk),
      ((Observation.start empty).run events).reading? = some r ∧
      (a <+: b ∧ b <+: c ∧ c <+: d ∧ d <+: e ∧ e <+: published) ∧
      r = .ofStores (empty.appendAll a) (empty.appendAll b) (empty.appendAll c)
        (empty.appendAll d) (empty.appendAll e) ∧
      (r.chunks.map Chunk.recordCount).sum ≤ r.totalRecords ∧ r.totalRecords ≤ r.counts.total ∧
      ((∃ front, front <+: published ∧ r = .ofStore (empty.appendAll front)) ↔
        (r.chunks.map Chunk.recordCount).sum = r.counts.total) ∧
      ((published.map Chunk.recordCount).sum < UInt64.size →
        ∀ trace pageSize generatedAt,
          (∃ front, front <+: published ∧ ofReading regions trace pageSize generatedAt r =
            ofStore (empty.appendAll front) trace pageSize generatedAt) ↔
          (r.chunks.map Chunk.recordCount).sum = r.counts.total) := by
  intro published empty
  have hrun := (Processor.start pages retainDetail regions).run_taken batches
  have hlist (front : List Chunk) : (empty.appendAll front).chunks.toList = front :=
    Store.toList_chunks_appendAll empty front
  have hregions (front : List Chunk) : (empty.appendAll front).regions = regions := by
    rw [Store.appendAll_eq]
    rfl
  have hstores {front rest : List Chunk} (h : front <+: rest) :
      (empty.appendAll front).chunks.toList <+: (empty.appendAll rest).chunks.toList := by
    rwa [hlist, hlist]
  have hfront {front : List Chunk} (h : front <+: published) :
      (empty.appendAll front).chunks.toList <+: published := by
    rwa [hlist]
  obtain ⟨a, b, c, d, e, hab, hbc, hcd, hde, he, hreading⟩ :=
    Observation.exists_reading empty hreads
  rw [hpublished] at he
  have hac := hab.trans hbc
  have ha := hac.trans (hcd.trans (hde.trans he))
  obtain ⟨hrecords, hcounts⟩ := Reading.sum_le_total_ofStores (b := empty.appendAll b)
    (c := empty.appendAll c) hrun rfl (hstores (hac.trans hcd)) (hstores hde) (hfront he)
  -- If the last moment counts what the first one lists, all five are like the first.
  have hmeet (hsum : ((empty.appendAll a).chunks.toList.map Chunk.recordCount).sum =
      (empty.appendAll e).counts.total) :=
    Reading.ofStores_eq_ofStore hrun rfl rfl (hstores hab) (hstores hbc) (hstores hcd)
      (hstores hde) (hfront he) (hsum.trans (Store.total_of_run hrun rfl (hfront he)).2)
  refine ⟨_, a, b, c, d, e, hreading, ⟨hab, hbc, hcd, hde, he⟩, rfl, hrecords, hcounts, ?_, ?_⟩
  · constructor
    · rintro ⟨front, hprefix, h⟩
      rw [h]
      exact Reading.sum_eq_total_ofStore hrun rfl (hfront hprefix)
    · exact fun hsum => ⟨a, ha, hmeet hsum⟩
  · intro hsize trace pageSize generatedAt
    constructor
    · rintro ⟨front, hprefix, h⟩
      rw [ofStore, hregions] at h
      exact sum_eq_total_of_ofReading_eq hrun rfl hsize (hfront ha) (hfront he) (hfront hprefix) h
    · exact fun hsum => ⟨a, ha, by rw [hmeet hsum, ofStore, hregions]⟩

/-- A frame is entered in front of the first reading, and left behind the third. -/
def lateExit : List Event :=
  ((Processor.start {} false .empty).feed [⟨9, [.enter 1]⟩, ⟨77, [.exit 1]⟩]).1.flatMap fun c =>
    [.append c, .read, .read, .read]

theorem ofReading_eq_ofStore_iff_late_exit :
    let published :=
      ((Processor.start {} false .empty).feed [⟨9, [.enter 1]⟩, ⟨77, [.exit 1]⟩]).1
    let empty := Store.start .empty false 0
    lateExit.filterMap Event.chunk? = published ∧ 5 ≤ lateExit.countP Event.isRead ∧
      ∃ r, ((Observation.start empty).run lateExit).reading? = some r ∧
        ¬∃ front, front <+: published ∧ r = .ofStore (empty.appendAll front) := by
  intro published empty
  have hpublished : lateExit.filterMap Event.chunk? = published := rfl
  have hreads : 5 ≤ lateExit.countP Event.isRead := by decide
  obtain ⟨r, -, -, -, -, -, hreading, -, -, -, -, hiff, -⟩ :=
    ofReading_eq_ofStore_iff {} false false .empty 0 [⟨9, [.enter 1]⟩, ⟨77, [.exit 1]⟩] lateExit
      hpublished hreads
  have hnumbers : ((Observation.start empty).run lateExit).reading?.map
      (fun r => ((r.chunks.map Chunk.recordCount).sum, r.counts.total)) = some (1, 2) := by rfl
  refine ⟨hpublished, hreads, r, hreading, fun hmoment => ?_⟩
  rw [hreading, Option.map_some, Option.some.injEq, Prod.mk.injEq, hiff.1 hmoment] at hnumbers
  omega

/-- The chunk that is listed holds one record of two, and no moment has such a summary. -/
theorem ofReading_ne_ofStore_late_exit :
    let published :=
      ((Processor.start {} false .empty).feed [⟨9, [.enter 1]⟩, ⟨77, [.exit 1]⟩]).1
    let empty := Store.start .empty false 0
    ∃ r, ((Observation.start empty).run lateExit).reading? = some r ∧
      let summary := ofReading .empty "t" 4096 "" r
      summary.totalRecords = 2 ∧ summary.counts = ⟨0, 0, 1, 1, 0⟩ ∧
        summary.chunks.map ChunkEntry.recordCount = [1] ∧
        ∀ front, front <+: published → summary ≠ ofStore (empty.appendAll front) "t" 4096 "" := by
  intro published empty
  refine ⟨_, rfl, rfl, rfl, rfl, fun front hfront => ?_⟩
  revert front
  simp only [← List.mem_inits]
  decide +kernel

end Summary

end AccessTrace
