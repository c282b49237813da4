import AccessTrace.Proofs.Ingest.Pipeline
import AccessTrace.Proofs.Store.Detail
import AccessTrace.Proofs.TraceFile.Header

/-!
Records read again from a trace file that stays as it is. Whatever was read again or let go before,
each chunk gives back the records of the block that it was made of, and each position its record.
-/

namespace AccessTrace

namespace Ingest

variable {file : Bytes} {blocks rest : TraceFile.Blocks} {raw : TraceFile.RawBlock} {batch : Batch}

theorem batchOf_eq_ok_iff :
    batchOf raw = .ok batch ↔
      decodePayload raw.payload = .ok batch.records ∧ batch.fileOffset = raw.fileOffset := by
  unfold batchOf
  cases decodePayload raw.payload with
  | error e => simp [Except.map]
  | ok records => cases batch; simp [Except.map, eq_comm, and_comm]

theorem loadBlock_of_next (hrest : blocks.rest = file.drop blocks.offset)
    (hoffset : blocks.offset ≤ file.length) (hnext : blocks.next = (.ok (some raw), rest)) :
    loadBlock (.ok file) blocks.offset = decodePayload raw.payload := by
  have hblocks : blocksFrom (.ok file) blocks.offset = .ok blocks := by
    have hinside : ¬max file.length maxFileSize < blocks.offset := by omega
    simp only [blocksFrom, bind, Except.bind, hinside, if_false, pure, Except.pure,
      TraceFile.Blocks.startingAt, ← hrest]
  have hopen : (blocksFrom (.ok file) blocks.offset).mapError
      (fun fault => TraceError.file (.unreadable fault)) = .ok blocks := by
    rw [hblocks]
    rfl
  simp only [loadBlock, hopen, bind, Except.bind, hnext]

theorem loadBlock_of_mem_batches (hrest : blocks.rest = file.drop blocks.offset)
    (hoffset : blocks.offset ≤ file.length) (h : batch ∈ (batches blocks).1) :
    loadBlock (.ok file) batch.fileOffset = .ok batch.records := by
  fun_induction batches blocks with
  | case1 | case2 | case3 => contradiction
  | case4 blocks raw rest hnext _ first hbatch ih =>
    obtain ⟨hdecode, hfirst⟩ := batchOf_eq_ok_iff.1 hbatch
    obtain ⟨hraw, -, hsplit, hbehind⟩ := TraceFile.Blocks.next_eq_some_iff.1 hnext
    rcases List.mem_cons.1 h with rfl | h
    · rw [hfirst, hraw, loadBlock_of_next hrest hoffset hnext, hdecode]
    · have hlength := congrArg List.length hsplit
      rw [List.length_append, TraceFile.length_frame, hrest, List.length_drop] at hlength
      apply ih _ _ h
      · rw [hbehind, Nat.add_assoc, ← List.drop_drop, ← hrest, hsplit,
          List.drop_left' (TraceFile.length_frame _)]
      · omega

theorem loadBlock_of_read {strict : Bool} {opened : TraceFile.Opened}
    (hopened : TraceFile.read strict file = .ok opened) :
    ∀ batch ∈ (batches opened.blocks).1,
      loadBlock (.ok file) batch.fileOffset = .ok batch.records := by
  intro batch hbatch
  obtain ⟨hblocks, hoffset⟩ := TraceFile.blocks_of_read hopened
  exact loadBlock_of_mem_batches (by rw [hblocks]; rfl) (by rw [hblocks]; exact hoffset) hbatch

end Ingest

structure Chunk.Genuine (c : Chunk) (batch : Batch) : Prop where
  fileOffset : c.fileOffset = batch.fileOffset
  recordCount : c.recordCount = batch.records.length
  detail : ∀ records, c.detail = some records → records = batch.records

theorem Chunk.Genuine.release {c : Chunk} {batch : Batch} (h : c.Genuine batch) :
    c.release.Genuine batch :=
  ⟨h.fileOffset, h.recordCount, nofun⟩

theorem Chunk.Genuine.hold {c : Chunk} {batch : Batch} (h : c.Genuine batch) :
    (c.hold batch.records).Genuine batch :=
  ⟨h.fileOffset, h.recordCount, fun _ hrecords => (Option.some.inj hrecords).symm⟩

theorem Processor.Run.genuine {p last : Processor} {batches : List Batch} {chunks : List Chunk}
    (h : p.Run batches chunks last) {index : Nat} {c : Chunk} {batch : Batch}
    (hc : chunks[index]? = some c) (hbatch : batches[index]? = some batch) : c.Genuine batch := by
  induction h generalizing index with
  | nil => contradiction
  | cons head tail ih =>
    cases index with
    | zero =>
      obtain rfl := Option.some.inj hc
      obtain rfl := Option.some.inj hbatch
      have step := Processor.step_of_process head
      refine ⟨step.fileOffset, step.recordCount, fun records hrecords => ?_⟩
      rw [step.detail] at hrecords
      split at hrecords
      · exact (Option.some.inj hrecords).symm
      · contradiction
    | succ index => exact ih hc hbatch

namespace Store

structure Holds (s : Store) (batches : List Batch) : Prop where
  rereads : s.rereads = true
  size : s.chunks.size = batches.length
  genuine : ∀ index c batch, s.chunk? index = some c → batches[index]? = some batch → c.Genuine batch

def Action.Rereads (file : Bytes) : Action → Prop
  | .append _ => False
  | .recordAt content _ | .hydrate content _ => content = .ok file
  | .release _ | .releaseChunk _ => True

variable {s t : Store} {batches : List Batch} {file : Bytes}

theorem Holds.setChunk {index : Nat} {change : Chunk → Chunk} (h : Holds s batches)
    (hchange : ∀ c batch, batches[index]? = some batch → c.Genuine batch →
      (change c).Genuine batch) : Holds (s.setChunk index change) batches where
  rereads := h.rereads
  size := by rw [Store.setChunk, Array.size_modify, h.size]
  genuine := by
    have hall := forall_chunk?_setChunk
      (P := fun i c => ∀ batch, batches[i]? = some batch → c.Genuine batch)
      (fun i c hc batch hbatch => h.genuine i c batch hc hbatch)
      fun c hc batch hbatch => hchange c batch hbatch (h.genuine index c batch hc hbatch)
    exact fun i c batch hc hbatch => hall i c hc batch hbatch

theorem Holds.releaseChunk (h : Holds s batches) (index : Nat) :
    Holds (s.setChunk index Chunk.release) batches :=
  h.setChunk fun _ _ _ hc => hc.release

theorem Holds.withHydrated (h : Holds s batches) (hydrated : List Nat) :
    Holds { s with hydrated } batches :=
  ⟨h.rereads, h.size, h.genuine⟩

theorem Holds.track (h : Holds s batches) (index : Nat) : Holds (s.track index) batches := by
  suffices ∀ (queue : List Nat) (s : Store), Holds s batches →
      Holds (queue.foldl (fun s old => s.setChunk old Chunk.release) s) batches from
    this _ _ (h.withHydrated _)
  intro queue
  induction queue with
  | nil => exact fun s hs => hs
  | cons old rest ih => exact fun s hs => ih _ (hs.releaseChunk old)

theorem Holds.keep {index : Nat} {batch : Batch} (h : Holds s batches)
    (hbatch : batches[index]? = some batch) (c : Chunk) :
    Holds (s.keep index c batch.records) batches := by
  unfold Store.keep
  split
  · exact h
  · apply Holds.track
    apply h.setChunk
    intro c batch' hbatch' hc
    obtain rfl := Option.some.inj (hbatch.symm.trans hbatch')
    exact hc.hold

theorem Holds.chunk?_eq_none_iff (h : Holds s batches) (index : Nat) :
    s.chunk? index = none ↔ batches[index]? = none := by
  rw [chunk?, Array.getElem?_eq_none_iff, List.getElem?_eq_none_iff, h.size]

theorem Holds.hydrate (h : Holds s batches)
    (hfile : ∀ batch ∈ batches, loadBlock (.ok file) batch.fileOffset = .ok batch.records)
    (index : Nat) :
    (s.hydrate (.ok file) index).1 =
        (match batches[index]? with
        | some batch => .ok batch.records
        | none => .error (.noChunk index)) ∧
      Holds (s.hydrate (.ok file) index).2 batches := by
  unfold Store.hydrate
  cases hc : s.chunk? index with
  | none =>
    rw [(h.chunk?_eq_none_iff index).1 hc]
    exact ⟨rfl, h⟩
  | some c =>
    obtain ⟨batch, hbatch⟩ : ∃ batch, batches[index]? = some batch := by
      cases hbatch : batches[index]? with
      | none => simp [(h.chunk?_eq_none_iff index).2 hbatch] at hc
      | some batch => exact ⟨batch, rfl⟩
    have genuine := h.genuine index c batch hc hbatch
    rw [hbatch]
    dsimp only
    cases hdetail : c.detail with
    | some records => exact ⟨by rw [genuine.detail records hdetail], h⟩
    | none =>
      have hreread : s.reread (.ok file) c = .ok batch.records := by
        simp only [reread, h.rereads, genuine.fileOffset, genuine.recordCount,
          hfile batch (List.mem_of_getElem? hbatch), bind, Except.bind, pure, Except.pure]
        simp
      rw [hreread]
      exact ⟨rfl, h.keep hbatch c⟩

theorem Holds.act {a : Action} (h : Holds s batches)
    (hfile : ∀ batch ∈ batches, loadBlock (.ok file) batch.fileOffset = .ok batch.records)
    (ha : a.Rereads file) : Holds (s.act a) batches := by
  cases a with
  | append c => exact ha.elim
  | recordAt content position =>
    obtain rfl : content = .ok file := ha
    simp only [Store.act, Store.recordAt]
    split
    · exact h
    · exact (h.hydrate hfile _).2
  | hydrate content index =>
    obtain rfl : content = .ok file := ha
    exact (h.hydrate hfile index).2
  | release index =>
    simp only [Store.act, Store.release]
    split
    · exact h
    · exact (h.releaseChunk index).withHydrated _
  | releaseChunk index => exact h.releaseChunk index

theorem Holds.actAll {actions : List Action} (h : Holds s batches)
    (hfile : ∀ batch ∈ batches, loadBlock (.ok file) batch.fileOffset = .ok batch.records)
    (hactions : ∀ a ∈ actions, a.Rereads file) : Holds (s.actAll actions) batches := by
  induction actions generalizing s with
  | nil => exact h
  | cons a rest ih =>
    exact ih (h.act hfile (hactions a List.mem_cons_self)) fun b hb => hactions b (.tail _ hb)

theorem Holds.recordAt {position index place : Nat} {batch : Batch} {r : Record}
    (h : Holds s batches)
    (hfile : ∀ batch ∈ batches, loadBlock (.ok file) batch.fileOffset = .ok batch.records)
    (hlocate : s.locate position = some (index, place)) (hbatch : batches[index]? = some batch)
    (hr : batch.records[place]? = some r) : (s.recordAt (.ok file) position).1 = .ok r := by
  have hanswer := (h.hydrate hfile index).1
  rw [hbatch] at hanswer
  simp only [Store.recordAt, hlocate, hanswer, Except.bind, hr]

theorem Action.Rereads.chunk?_eq_none {a : Action} (h : a.Rereads file) : a.chunk? = none := by
  cases a with
  | append c => exact h.elim
  | recordAt | hydrate | release | releaseChunk => rfl

end Store

namespace Pipeline

variable {s : Pipeline} {c : Config} {opened : TraceFile.Opened} {done read : List Batch}

theorem Sound.holds (h : Sound c opened true done read s) : s.store.Holds done where
  rereads := by rw [h.store]; rfl
  size := by rw [← Array.length_toList, h.published.length_eq]
  genuine := by
    intro index c batch hc hbatch
    rw [Store.chunk?_eq] at hc
    exact h.published.genuine hc hbatch

/-- Reading records again shows only in the time that it takes. -/
theorem answers_of_rereads {file : Bytes} {moves : List Move} {actions : List Store.Action}
    (hopened : TraceFile.read c.strictRegions file = .ok opened)
    (hrun : (start c opened true).run moves = some s)
    (hactions : ∀ a ∈ actions, a.Rereads file) :
    let batches := (Ingest.batches opened.blocks).1
    let t := s.store.actAll actions
    (∀ position < s.store.totalRecords, ∃ r, (batches.flatMap Batch.records)[position]? = some r ∧
      (t.recordAt (.ok file) position).1 = .ok r) ∧
    (∀ position, s.store.totalRecords ≤ position →
      (t.recordAt (.ok file) position).1 = .error (.noRecord position)) ∧
    (∀ index < s.store.chunks.size, ∃ batch, batches[index]? = some batch ∧
      (t.hydrate (.ok file) index).1 = .ok batch.records) ∧
    (∀ index, s.store.chunks.size ≤ index →
      (t.hydrate (.ok file) index).1 = .error (.noChunk index)) ∧
    (∀ index, (t.release index).1 =
      if index < s.store.chunks.size then .ok () else .error (.noChunk index)) ∧
    s.store.Agrees t := by
  intro batches t
  obtain ⟨done, read, sound⟩ := (sound_start c opened true).run hrun
  have hdone : done <+: batches := by
    have hbatches : batches = read ++ s.ahead.1 := congrArg Prod.fst sound.batches
    rw [hbatches]
    exact sound.progress.done_within.trans (List.prefix_append _ _)
  have hfile : ∀ batch ∈ done, loadBlock (.ok file) batch.fileOffset = .ok batch.records :=
    fun batch hbatch => Ingest.loadBlock_of_read hopened batch (hdone.subset hbatch)
  have holds : t.Holds done := sound.holds.actAll hfile hactions
  have agrees : s.store.Agrees t :=
    Store.agrees_of_bare_eq (Store.bare_actAll (fun a ha => (hactions a ha).chunk?_eq_none) _)
  have htotal := Store.totalRecords_eq_length sound.published rfl rfl
  refine ⟨?_, ?_, ?_, ?_, ?_, agrees⟩
  · intro position hposition
    rw [htotal] at hposition
    obtain ⟨front, batch, rest, place, rfl, rfl, hplace⟩ := Batch.exists_split_of_lt hposition
    obtain ⟨-, -, -, -, -, -, -, hlocate⟩ := Store.chunk_of_run sound.published rfl rfl
    have hrecord : batch.records[place]? = some batch.records[place] :=
      List.getElem?_eq_getElem hplace
    refine ⟨batch.records[place], ?_, ?_⟩
    · obtain ⟨more, hmore⟩ := hdone
      rw [← hmore, List.append_assoc, List.flatMap_append, List.getElem?_append_right (by omega),
        Nat.add_sub_cancel_left, List.cons_append, List.flatMap_cons,
        List.getElem?_append_left hplace, hrecord]
    · exact holds.recordAt hfile ((agrees.locate _).trans (hlocate place hplace)) (by simp) hrecord
  · intro position hposition
    have hlocate := Store.locate_eq_none_of_run sound.published rfl hposition
    rw [← agrees.locate] at hlocate
    simp only [Store.recordAt, hlocate]
  · intro index hindex
    rw [sound.holds.size] at hindex
    have hbatch : done[index]? = some done[index] := List.getElem?_eq_getElem hindex
    refine ⟨done[index], ?_, ?_⟩
    · obtain ⟨more, hmore⟩ := hdone
      rw [← hmore, List.getElem?_append_left hindex, hbatch]
    · rw [(holds.hydrate hfile index).1, hbatch]
  · intro index hindex
    rw [sound.holds.size] at hindex
    rw [(holds.hydrate hfile index).1, List.getElem?_eq_none hindex]
  · intro index
    rw [← agrees.size]
    by_cases hindex : index < t.chunks.size
    · simp [Store.release, Store.chunk?, hindex]
    · simp [Store.release, Store.chunk?, hindex]

/-- No chunk may keep its records, and the one asked for was let go. -/
theorem answers_of_rereads_unkept :
    let file := TraceFile.encode [] [[], [.enter 7]]
    let c : Config := { hydratedChunks := 0, retainDetail := true }
    let quietPoll : Move := .poll ⟨none, false⟩
    let moves : List Move := [.read, quietPoll, .read, .read, .read, quietPoll, .read, .process,
      .process, .process, .process, .read, .process, .process, .process, .process]
    let actions : List Store.Action := [.releaseChunk 1, .recordAt (.ok file) 0, .release 0]
    ∃ opened s, TraceFile.read false file = .ok opened ∧ (start c opened true).run moves = some s ∧
      ((s.store.actAll actions).recordAt (.ok file) 0).1 = .ok (.enter 7) := by
  intro file c quietPoll moves actions
  have hany : ((TraceFile.read false file).toOption.any fun opened =>
      ((start c opened true).run moves).any fun s => 0 < s.store.totalRecords &&
        ((Ingest.batches opened.blocks).1.flatMap Batch.records)[0]? == some (.enter 7)) = true := by
    decide +kernel +revert
  rw [Option.any_eq_true] at hany
  obtain ⟨opened, hopened, hany⟩ := hany
  obtain ⟨s, hrun, hs⟩ := (Option.any_eq_true _ _).1 hany
  simp only [Bool.and_eq_true, decide_eq_true_eq, beq_iff_eq] at hs
  have hread : TraceFile.read c.strictRegions file = .ok opened := by
    cases hread : TraceFile.read false file with
    | error e => simp [hread, Except.toOption] at hopened
    | ok o => simpa [hread, Except.toOption] using hopened
  have hactions : ∀ a ∈ actions, a.Rereads file := by simp [actions, Store.Action.Rereads]
  obtain ⟨r, hr, hanswer⟩ := (answers_of_rereads hread hrun hactions).1 0 hs.1
  obtain rfl : Record.enter 7 = r := Option.some.inj (hs.2.symm.trans hr)
  exact ⟨opened, s, hread, hrun, hanswer⟩

end Pipeline

end AccessTrace
