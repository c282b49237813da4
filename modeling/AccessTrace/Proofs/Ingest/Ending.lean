import AccessTrace.Proofs.Ingest.Completion

/-!
What two workers have made of a trace: at any moment a first part of what the one loop over its
blocks makes, and in the end all of it, unless the flag stopped them.
-/

namespace AccessTrace.Pipeline

/-- The chunks that one loop makes of an opened file, and the fault that ends it, if any. -/
def loop (c : Config) (opened : TraceFile.Opened) : List Chunk × Option TraceError :=
  Ingest.sequence (Processor.start c.pages c.retainDetail opened.regions) opened.blocks

inductive Ending (c : Config) (opened : TraceFile.Opened) (s : Pipeline) : Prop
  | clean (reader : s.reader = .ended (.ok false)) (worker : s.worker = .ended (.ok ()))
      (down : s.raised = false) (loops : loop c opened = (s.store.chunks.toList, none))
      (blocks : s.stats.blocks = s.store.chunks.size)
  | unreadable {e : TraceError} (reader : s.reader = .ended (.error e))
      (worker : s.worker = .ended (.ok ()))
      (loops : loop c opened = (s.store.chunks.toList, some e))
  | refused {outcome : Except TraceError Bool} {f : CallStack.Error}
      (reader : s.reader = .ended outcome) (worker : s.worker = .ended (.error f))
      (loops : loop c opened = (s.store.chunks.toList, some (.stack f)))
      (found : ∀ e, outcome = .error e → (Ingest.batches opened.blocks).2 = some e)
  | stopped {outcome : Except TraceError Bool} (reader : s.reader = .ended outcome)
      (worker : s.worker = .ended (.ok ())) (raised : s.raised = true)

variable {c : Config} {opened : TraceFile.Opened} {rereads : Bool} {done read : List Batch}
  {s : Pipeline} {moves : List Move}

theorem Sound.chunks_prefix (h : Sound c opened rereads done read s) :
    s.store.chunks.toList <+: (loop c opened).1 := by
  obtain ⟨behind, rfl⟩ := h.progress.done_within
  have hbatches := congrArg Prod.fst h.batches
  rw [List.append_assoc] at hbatches
  obtain ⟨rest, -, hloop⟩ := Ingest.sequence_of_run h.published hbatches
  exact ⟨_, (congrArg Prod.fst hloop).symm⟩

theorem Sound.records_eq (h : Sound c opened rereads done read s) :
    s.stats.records = s.store.totalRecords := by
  rw [h.records, Store.totalRecords_of_run h.published rfl rfl]

/-- A reader that read to the end or to a fault behind which the processor published everything left
nothing that the loop would find. -/
theorem Sound.ending_of_complete {outcome : Except TraceError Bool}
    (h : Sound c opened rereads done done s) (reader : s.reader = .ended outcome)
    (worker : s.worker = .ended (.ok ())) : Ending c opened s := by
  cases outcome with
  | error e =>
    have hahead : s.ahead = ([], some e) := by rw [ahead, reader, ReaderPhase.ahead]
    have hloop := h.sequence_of_complete (congrArg Prod.fst hahead)
    rw [hahead] at hloop
    exact .unreadable reader worker hloop
  | ok stopped =>
    cases hraised : s.raised with
    | true => exact .stopped reader worker hraised
    | false =>
      obtain ⟨rfl, hend⟩ := (h.stops stopped reader).resolve_left (by simp [hraised])
      have hahead : s.ahead = ([], none) := by
        rw [ahead, reader, ReaderPhase.ahead, hend]
        exact fun _ h => by simp at h
      have hloop := h.sequence_of_complete (congrArg Prod.fst hahead)
      rw [hahead] at hloop
      refine .clean reader worker hraised hloop ?_
      rw [h.blocks, ← Array.length_toList, h.published.length_eq]

theorem Sound.ending (h : Sound c opened rereads done read s) (hreader : s.readerGone = true)
    (hprocessor : s.processorGone = true) : Ending c opened s := by
  obtain ⟨outcome, reader⟩ := exists_ended_of_readerGone hreader
  obtain ⟨result, hresult⟩ := exists_ended_of_processorGone hprocessor
  cases h.progress with
  | working holds accounted =>
    rw [holds.processorGone] at hprocessor
    contradiction
  | @failed batch f worker raised refused within =>
    refine .refused reader (worker.resolve_left (by simp [hresult]))
      (h.sequence_of_refused refused within) ?_
    rintro e rfl
    rw [h.batches, ahead, reader]
    rfl
  | stopped worker raised within =>
    exact .stopped reader (worker.resolve_left (by simp [hresult])) raised
  | finished worker gone complete =>
    subst complete
    exact h.ending_of_complete reader (worker.resolve_left (by simp [hresult]))

theorem RaisedByFault.down (h : RaisedByFault s) (worker : s.worker = .ended (.ok ())) :
    s.raised = false := by
  refine Bool.eq_false_iff.2 fun hraised => ?_
  obtain ⟨e, hworker | hworker⟩ := h hraised <;> simp [worker] at hworker

theorem raisedByFault_of_quiet (quiet : ∀ move ∈ moves, move.quiet = true)
    (hrun : (start c opened rereads).run moves = some s) : RaisedByFault s :=
  RaisedByFault.run (by simp [RaisedByFault, start, raised]) quiet hrun

theorem gone_of_result?_eq_some {r : Except TraceError Ingest.Stats} (h : s.result? = some r) :
    s.readerGone = true ∧ s.processorGone = true := by
  unfold result? at h
  split at h
  · simp only [readerGone, processorGone, *, and_self]
  · simp only [readerGone, processorGone, *, and_self]
  · simp only [readerGone, processorGone, *, and_self]
  · contradiction

/-- A run of a load that nobody stops, up to the end of both workers. The reader has heard the first
of the given answers about memory. -/
structure CompleteRun (c : Config) (opened : TraceFile.Opened) (rereads : Bool) (answers : List Poll)
    (moves : List Move) (s : Pipeline) : Prop where
  run : (start c opened rereads).run moves = some s
  quiet : ∀ move ∈ moves, move.quiet = true
  heard : moves.filterMap Move.answer? <+: answers
  reader : s.readerGone = true
  processor : s.processorGone = true

deriving instance DecidableEq for Except

def completes (c : Config) (opened : TraceFile.Opened) (rereads : Bool) (answers : List Poll)
    (moves : List Move) (result : Except TraceError Ingest.Stats) : Bool :=
  moves.all Move.quiet && decide (moves.filterMap Move.answer? <+: answers) &&
    ((start c opened rereads).run moves).any fun s =>
      s.readerGone && s.processorGone && s.result? = some result

variable {answers : List Poll}

theorem exists_completeRun (capacity : 0 < c.channelCapacity) (opened : TraceFile.Opened)
    (rereads : Bool) : ∃ answers moves s, CompleteRun c opened rereads answers moves s := by
  obtain ⟨moves, s, quiet, hrun, hreader, hprocessor⟩ :=
    exists_run_to_end (s := start c opened rereads) capacity
  exact ⟨_, moves, s, hrun, quiet, List.prefix_rfl, hreader, hprocessor⟩

namespace CompleteRun

theorem of_completes {result : Except TraceError Ingest.Stats}
    (h : completes c opened rereads answers moves result = true) :
    ∃ s, CompleteRun c opened rereads answers moves s ∧ s.result? = some result := by
  simp only [completes, Bool.and_eq_true, List.all_eq_true, decide_eq_true_eq,
    Option.any_eq_true] at h
  obtain ⟨⟨quiet, heard⟩, s, hrun, ⟨hreader, hprocessor⟩, hresult⟩ := h
  exact ⟨s, ⟨hrun, quiet, heard, hreader, hprocessor⟩, hresult⟩

theorem exists_sound (h : CompleteRun c opened rereads answers moves s) :
    ∃ done read, Sound c opened rereads done read s :=
  (sound_start c opened rereads).run h.run

theorem ending (h : CompleteRun c opened rereads answers moves s) : Ending c opened s := by
  obtain ⟨done, read, sound⟩ := h.exists_sound
  exact sound.ending h.reader h.processor

theorem down (h : CompleteRun c opened rereads answers moves s)
    (worker : s.worker = .ended (.ok ())) : s.raised = false :=
  (raisedByFault_of_quiet h.quiet h.run).down worker

theorem chunks_eq (h : CompleteRun c opened rereads answers moves s) :
    s.store.chunks.toList = (loop c opened).1 := by
  cases h.ending with
  | clean reader worker down loops => rw [loops]
  | unreadable reader worker loops => rw [loops]
  | refused reader worker loops => rw [loops]
  | stopped reader worker raised =>
    rw [h.down worker] at raised
    contradiction

end CompleteRun

end AccessTrace.Pipeline
