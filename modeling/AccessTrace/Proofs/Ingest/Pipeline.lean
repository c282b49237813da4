import AccessTrace.Proofs.Ingest.Sequence
import AccessTrace.Proofs.Ingest.Turn
import AccessTrace.Proofs.Store.Stack
import AccessTrace.Proofs.TraceFile.Blocks

/-!
Where the batches of a trace are while two workers load it. Each batch that was read is published,
in the hands of the processor, in the queue, or being sent, and in this order; only the end of the
processor leaves batches behind.
-/

namespace AccessTrace.Pipeline

namespace ReaderPhase

def held : ReaderPhase → List Batch
  | .sending batch => [batch]
  | _ => []

def ahead (blocks : TraceFile.Blocks) : ReaderPhase → List Batch × Option TraceError
  | .ended (.error e) => ([], some e)
  | _ => Ingest.batches blocks

end ReaderPhase

/-- The batches that were read and that the processor has not taken out of the queue. -/
def underway (s : Pipeline) : List Batch :=
  s.queue ++ s.reader.held

def ahead (s : Pipeline) : List Batch × Option TraceError :=
  s.reader.ahead s.blocks

/-- What a move of the reader does to the batches: `fresh` are those that it reads. The flag goes up
in it when it `raises`. -/
structure ReaderStep (s t : Pipeline) (fresh : List Batch) (raises : Bool) : Prop where
  here : s.readerGone = false
  worker : t.worker = s.worker
  processor : t.processor = s.processor
  store : t.store = s.store
  records : t.stats.records = s.stats.records
  raised : t.raised = (s.raised || raises)
  ahead : s.ahead.1 = fresh ++ t.ahead.1
  fault : t.ahead.2 = s.ahead.2
  blocks : t.stats.blocks = s.stats.blocks + fresh.length
  underway : s.processorGone = false → t.underway = s.underway ++ fresh
  stops : ∀ stopped, t.reader = .ended (.ok stopped) →
    t.raised = true ∨ s.processorGone = true ∨
      stopped = false ∧ Ingest.batches t.blocks = ([], none)

variable {s t : Pipeline}

theorem records_addWait (stats : Ingest.Stats) (outcome : Gate.Outcome) :
    (stats.addWait outcome).records = stats.records := by
  unfold Ingest.Stats.addWait
  split <;> rfl

theorem blocks_addWait (stats : Ingest.Stats) (outcome : Gate.Outcome) :
    (stats.addWait outcome).blocks = stats.blocks := by
  unfold Ingest.Stats.addWait
  split <;> rfl

theorem readerStep_of_idle {gate : Gate} {reader : ReaderPhase} {raises : Bool}
    (hs : s.reader = .atHead ∨ s.reader = .atGate) (hgate : gate.raised = (s.raised || raises))
    (ht : reader = .atGate ∨ (∃ outcome, reader = .atBlock outcome) ∨
      reader = .ended (.ok true) ∧ s.raised = true) :
    ReaderStep s { s with gate, reader } [] raises := by
  have hhere : s.readerGone = false := by rcases hs with hs | hs <;> simp [readerGone, hs]
  have hahead : reader.ahead s.blocks = s.reader.ahead s.blocks ∧ reader.held = s.reader.held := by
    rcases hs with hs | hs <;> rcases ht with rfl | ⟨outcome, rfl⟩ | ⟨rfl, -⟩ <;>
      simp [ReaderPhase.ahead, ReaderPhase.held, hs]
  refine ⟨hhere, rfl, rfl, rfl, rfl, hgate, ?_, ?_, rfl, fun _ => ?_, fun stopped hstopped => ?_⟩
  · simp [ahead, hahead.1]
  · simp [ahead, hahead.1]
  · simp [underway, hahead.2]
  · rcases ht with rfl | ⟨outcome, rfl⟩ | ⟨rfl, hraised⟩
    · contradiction
    · contradiction
    · exact .inl (by rw [raised, hgate, hraised, Bool.true_or])

theorem readerStep_of_read (turn : Turn s .read t) : ∃ fresh, ReaderStep s t fresh false := by
  have hraised : s.raised = (s.raised || false) := (Bool.or_false _).symm
  have hhere : s.readerGone = false := by
    cases turn <;> simp only [readerGone, *]
  cases turn with
  | giveUp reader raised =>
    exact ⟨[], readerStep_of_idle (.inl reader) hraised (.inr (.inr ⟨rfl, raised⟩))⟩
  | goToGate reader down =>
    exact ⟨[], readerStep_of_idle (.inl reader) hraised (.inl rfl)⟩
  | cancel reader cancelled =>
    simp only [Gate.cancelled, Bool.and_eq_true] at cancelled
    exact ⟨[], readerStep_of_idle (.inr reader) hraised (.inr (.inr ⟨rfl, cancelled.2⟩))⟩
  | badBlock reader next =>
    have hbatches := Ingest.batches_of_error next
    refine ⟨[], hhere, rfl, rfl, rfl, rfl, hraised, ?_, ?_, rfl, fun _ => ?_, ?_⟩ <;>
      simp [ahead, underway, ReaderPhase.ahead, ReaderPhase.held, reader, hbatches]
  | noBlock reader next =>
    have hbatches := Ingest.batches_of_none next
    obtain ⟨-, rfl⟩ := TraceFile.Blocks.next_eq_none_iff.1 next
    refine ⟨[], hhere, rfl, rfl, rfl, rfl, hraised, ?_, ?_, rfl, fun _ => ?_, ?_⟩ <;>
      simp [ahead, underway, ReaderPhase.ahead, ReaderPhase.held, reader, hbatches]
  | badPayload reader next refused =>
    have hbatches := Ingest.batches_of_some next
    rw [refused] at hbatches
    refine ⟨[], hhere, rfl, rfl, rfl, records_addWait _ _, hraised, ?_, ?_, blocks_addWait _ _,
      fun _ => ?_, ?_⟩ <;>
      simp [ahead, underway, ReaderPhase.ahead, ReaderPhase.held, reader, hbatches]
  | @block _ _ _ batch reader next decoded =>
    have hbatches := Ingest.batches_of_some next
    rw [decoded] at hbatches
    refine ⟨[batch], hhere, rfl, rfl, rfl, records_addWait _ _, hraised, ?_, ?_, ?_, fun _ => ?_,
      ?_⟩ <;>
      simp [ahead, underway, ReaderPhase.ahead, ReaderPhase.held, reader, hbatches,
        Ingest.Stats.addBlock, blocks_addWait]
  | sendToNobody reader gone =>
    refine ⟨[], hhere, rfl, rfl, rfl, rfl, hraised, ?_, ?_, rfl, fun here => ?_,
      fun _ _ => .inr (.inl gone)⟩
    · simp [ahead, ReaderPhase.ahead, reader]
    · simp [ahead, ReaderPhase.ahead, reader]
    · rw [gone] at here
      contradiction
  | send reader here room =>
    refine ⟨[], hhere, rfl, rfl, rfl, rfl, hraised, ?_, ?_, rfl, fun _ => ?_, ?_⟩ <;>
      simp [ahead, underway, ReaderPhase.ahead, ReaderPhase.held, reader]

theorem readerStep_of_poll {answer : Poll} (turn : Turn s (.poll answer) t) :
    ReaderStep s t [] answer.raisesShutdown := by
  cases turn with
  | wait reader waiting refused => exact readerStep_of_idle (.inr reader) rfl (.inl rfl)
  | pass reader waiting granted =>
    exact readerStep_of_idle (.inr reader) rfl (.inr (.inl ⟨_, rfl⟩))

inductive Holds (p : Processor) : ProcessorPhase → List Batch → Prop
  | receiving : Holds p .receiving []
  | checking (batch : Batch) : Holds p (.checking batch) [batch]
  | processing (batch : Batch) : Holds p (.processing batch) [batch]
  | publishing {batch : Batch} {chunk : Chunk} {next : Processor}
      (taken : p.process batch = .ok (chunk, next)) : Holds p (.publishing chunk next) [batch]
  | failing {batch : Batch} {e : CallStack.Error} (refused : p.process batch = .error e) :
      Holds p (.failing e) [batch]

/-- How far the processor is with the batches that were read: `done` are published. -/
inductive Progress (done read : List Batch) (s : Pipeline) : Prop
  | working {held : List Batch} (holds : Holds s.processor s.worker held)
      (accounted : read = done ++ held ++ s.underway)
  | failed {batch : Batch} {e : CallStack.Error}
      (worker : s.worker = .leaving (.error e) ∨ s.worker = .ended (.error e))
      (raised : s.raised = true) (refused : s.processor.process batch = .error e)
      (within : done ++ [batch] <+: read)
  | stopped (worker : s.worker = .leaving (.ok ()) ∨ s.worker = .ended (.ok ()))
      (raised : s.raised = true) (within : done <+: read)
  | finished (worker : s.worker = .leaving (.ok ()) ∨ s.worker = .ended (.ok ()))
      (gone : s.readerGone = true) (complete : read = done)

/-- A state of a load: `read` are the batches that were read, and `done` those of them that were
published. -/
structure Sound (c : Config) (opened : TraceFile.Opened) (rereads : Bool) (done read : List Batch)
    (s : Pipeline) : Prop where
  batches : Ingest.batches opened.blocks = (read ++ s.ahead.1, s.ahead.2)
  blocks : s.stats.blocks = read.length
  published : (Processor.start c.pages c.retainDetail opened.regions).Run done
    s.store.chunks.toList s.processor
  records : s.stats.records = s.processor.nextRecord
  store : s.store =
    { Store.start opened.regions rereads c.hydratedChunks with chunks := s.store.chunks }
  progress : Progress done read s
  stops : ∀ stopped, s.reader = .ended (.ok stopped) →
    s.raised = true ∨ stopped = false ∧ Ingest.batches s.blocks = ([], none)

theorem exists_ended_of_readerGone (h : s.readerGone = true) :
    ∃ outcome, s.reader = .ended outcome := by
  unfold readerGone at h
  split at h
  · exact ⟨_, ‹_›⟩
  · contradiction

section Invariant

variable {c : Config} {opened : TraceFile.Opened} {rereads : Bool} {done read fresh : List Batch}

theorem sound_start (c : Config) (opened : TraceFile.Opened) (rereads : Bool) :
    Sound c opened rereads [] [] (start c opened rereads) where
  batches := rfl
  blocks := rfl
  published := .nil _
  records := rfl
  store := rfl
  progress := .working .receiving rfl
  stops := nofun

theorem Holds.processorGone {held : List Batch} (h : Holds s.processor s.worker held) :
    s.processorGone = false := by
  generalize hworker : s.worker = worker at h
  cases h <;> simp only [Pipeline.processorGone, hworker]

/-- While the reader is at work, only the flag can have made the processor end. -/
theorem Progress.raised_of_gone (h : Progress done read s) (here : s.readerGone = false)
    (hgone : s.processorGone = true) : s.raised = true := by
  cases h with
  | working holds accounted => rw [holds.processorGone] at hgone; contradiction
  | failed worker raised refused within => exact raised
  | stopped worker raised within => exact raised
  | finished worker gone complete => rw [here] at gone; contradiction

theorem Progress.reader {raises : Bool} (h : Progress done read s)
    (step : ReaderStep s t fresh raises) : Progress done (read ++ fresh) t := by
  have hraised : s.raised = true → t.raised = true := fun hs => by rw [step.raised, hs, Bool.true_or]
  cases h with
  | working holds accounted =>
    refine .working (by rw [step.worker, step.processor]; exact holds) ?_
    rw [accounted, step.underway holds.processorGone, ← List.append_assoc]
  | failed worker raised refused within =>
    exact .failed (by rwa [step.worker]) (hraised raised) (by rwa [step.processor])
      (within.trans (List.prefix_append _ _))
  | stopped worker raised within =>
    exact .stopped (by rwa [step.worker]) (hraised raised) (within.trans (List.prefix_append _ _))
  | finished worker gone complete => simp [step.here] at gone

theorem Sound.reader {raises : Bool} (h : Sound c opened rereads done read s)
    (step : ReaderStep s t fresh raises) : Sound c opened rereads done (read ++ fresh) t where
  batches := by rw [h.batches, step.ahead, step.fault, List.append_assoc]
  blocks := by rw [step.blocks, h.blocks, List.length_append]
  published := by rw [step.store, step.processor]; exact h.published
  records := by rw [step.records, step.processor, h.records]
  store := by rw [step.store]; exact h.store
  progress := h.progress.reader step
  stops := by
    intro stopped hstopped
    rcases step.stops stopped hstopped with hraised | hgone | hend
    · exact .inl hraised
    · rw [step.raised, h.progress.raised_of_gone step.here hgone]
      exact .inl (Bool.true_or _)
    · exact .inr hend

theorem Progress.done_within (h : Progress done read s) : done <+: read := by
  cases h with
  | working holds accounted => rw [accounted, List.append_assoc]; exact List.prefix_append _ _
  | failed worker raised refused within => exact (List.prefix_append _ _).trans within
  | stopped worker raised within => exact within
  | finished worker gone complete => exact complete ▸ List.prefix_rfl

theorem Progress.holds (h : Progress done read s)
    (stays : ∀ result, s.worker ≠ .leaving result ∧ s.worker ≠ .ended result) :
    ∃ held, Holds s.processor s.worker held ∧ read = done ++ held ++ s.underway := by
  cases h with
  | working holds accounted => exact ⟨_, holds, accounted⟩
  | failed worker raised refused within => exact absurd worker (not_or.2 (stays _))
  | stopped worker raised within => exact absurd worker (not_or.2 (stays _))
  | finished worker gone complete => exact absurd worker (not_or.2 (stays _))

theorem Progress.leave {result : Except CallStack.Error Unit} (h : Progress done read s)
    (leaving : s.worker = .leaving result) : Progress done read { s with worker := .ended result } := by
  cases h with
  | working holds accounted =>
    rw [leaving] at holds
    cases holds
  | failed worker raised refused within =>
    obtain rfl : result = _ := by simpa [leaving] using worker
    exact .failed (.inr rfl) raised refused within
  | stopped worker raised within =>
    obtain rfl : result = _ := by simpa [leaving] using worker
    exact .stopped (.inr rfl) raised within
  | finished worker gone complete =>
    obtain rfl : result = _ := by simpa [leaving] using worker
    exact .finished (.inr rfl) gone complete

theorem Sound.publish {batch : Batch} {chunk : Chunk} {next : Processor}
    (h : Sound c opened rereads done read s) (taken : s.processor.process batch = .ok (chunk, next))
    (accounted : read = done ++ [batch] ++ s.underway) :
    Sound c opened rereads (done ++ [batch]) read
      { s with
        processor := next, store := s.store.append chunk, stats := s.stats.addChunk chunk
        worker := .receiving } where
  batches := h.batches
  blocks := h.blocks
  published := by simpa [Store.append] using h.published.snoc taken
  records := by
    have step := Processor.step_of_process taken
    simp only [Ingest.Stats.addChunk, h.records, step.behind, step.recordCount]
  store := by
    rw [Store.append, h.store]
  progress := .working .receiving (by rw [List.append_nil]; exact accounted)
  stops := h.stops

theorem Sound.process (h : Sound c opened rereads done read s) (turn : Turn s .process t) :
    ∃ done, Sound c opened rereads done read t := by
  have hheld := h.progress.holds
  cases turn with
  | receive worker first =>
    obtain ⟨held, holds, accounted⟩ := hheld (by simp [worker])
    rw [worker] at holds
    cases holds
    refine ⟨done, { h with progress := .working (.checking _) ?_ }⟩
    simp [accounted, underway, first]
  | runDry worker empty gone =>
    obtain ⟨held, holds, accounted⟩ := hheld (by simp [worker])
    rw [worker] at holds
    cases holds
    refine ⟨done, { h with progress := .finished (.inl rfl) gone ?_ }⟩
    obtain ⟨outcome, hreader⟩ := exists_ended_of_readerGone gone
    simp [accounted, underway, empty, hreader, ReaderPhase.held]
  | drop worker raised =>
    obtain ⟨held, holds, accounted⟩ := hheld (by simp [worker])
    refine ⟨done, { h with progress := .stopped (.inl rfl) raised ?_ }⟩
    simp [accounted]
  | check worker down =>
    obtain ⟨held, holds, accounted⟩ := hheld (by simp [worker])
    rw [worker] at holds
    cases holds
    exact ⟨done, { h with progress := .working (.processing _) accounted }⟩
  | refuse worker refused =>
    obtain ⟨held, holds, accounted⟩ := hheld (by simp [worker])
    rw [worker] at holds
    cases holds
    exact ⟨done, { h with progress := .working (.failing refused) accounted }⟩
  | accept worker taken =>
    obtain ⟨held, holds, accounted⟩ := hheld (by simp [worker])
    rw [worker] at holds
    cases holds
    exact ⟨done, { h with progress := .working (.publishing taken) accounted }⟩
  | publish worker =>
    obtain ⟨held, holds, accounted⟩ := hheld (by simp [worker])
    rw [worker] at holds
    cases holds with
    | publishing taken => exact ⟨_, h.publish taken accounted⟩
  | fail worker =>
    obtain ⟨held, holds, accounted⟩ := hheld (by simp [worker])
    rw [worker] at holds
    cases holds with
    | failing refused =>
      exact ⟨done, { h with
        progress := .failed (.inl rfl) rfl refused (accounted ▸ List.prefix_append _ _)
        stops := fun _ _ => .inl rfl }⟩
  | leave worker => exact ⟨done, { h with progress := h.progress.leave worker }⟩

theorem Sound.raiseFlag (h : Sound c opened rereads done read s) :
    Sound c opened rereads done read s.raiseFlag := by
  refine { h with progress := ?_, stops := fun _ _ => .inl rfl }
  cases h.progress with
  | working holds accounted => exact .working holds accounted
  | failed worker raised refused within => exact .failed worker rfl refused within
  | stopped worker raised within => exact .stopped worker rfl within
  | finished worker gone complete => exact .finished worker gone complete

theorem Sound.step {move : Move} (h : Sound c opened rereads done read s) (turn : Turn s move t) :
    ∃ done read, Sound c opened rereads done read t := by
  cases move with
  | read =>
    obtain ⟨fresh, step⟩ := readerStep_of_read turn
    exact ⟨done, _, h.reader step⟩
  | poll answer => exact ⟨done, _, h.reader (readerStep_of_poll turn)⟩
  | process =>
    obtain ⟨done, h⟩ := h.process turn
    exact ⟨done, read, h⟩
  | raise =>
    cases turn
    exact ⟨done, read, h.raiseFlag⟩

theorem Sound.run {moves : List Move} (h : Sound c opened rereads done read s)
    (hrun : s.run moves = some t) :
    ∃ done read, Sound c opened rereads done read t :=
  keeps_of_run (P := fun u => ∃ done read, Sound c opened rereads done read u)
    (fun turn ⟨_, _, h⟩ => h.step turn) hrun ⟨done, read, h⟩

theorem Sound.sequence_of_refused {batch : Batch} {e : CallStack.Error}
    (h : Sound c opened rereads done read s) (refused : s.processor.process batch = .error e)
    (within : done ++ [batch] <+: read) :
    Ingest.sequence (Processor.start c.pages c.retainDetail opened.regions) opened.blocks =
      (s.store.chunks.toList, some (.stack e)) := by
  obtain ⟨rest, rfl⟩ := within
  have hbatches := congrArg Prod.fst h.batches
  rw [List.append_assoc, List.append_assoc] at hbatches
  exact Ingest.sequence_eq_of_refused h.published hbatches refused

theorem Sound.sequence_of_complete (h : Sound c opened rereads done done s)
    (hnothing : s.ahead.1 = []) :
    Ingest.sequence (Processor.start c.pages c.retainDetail opened.regions) opened.blocks =
      (s.store.chunks.toList, s.ahead.2) := by
  have hbatches := h.batches
  rw [hnothing, List.append_nil] at hbatches
  have hrun := h.published
  rw [show done = (Ingest.batches opened.blocks).1 by rw [hbatches]] at hrun
  rw [Ingest.sequence_eq_of_run hrun, hbatches]

end Invariant

/-- Whether a move leaves the flag to the two workers. -/
def Move.quiet : Move → Bool
  | .raise => false
  | .poll answer => !answer.raisesShutdown
  | _ => true

def RaisedByFault (s : Pipeline) : Prop :=
  s.raised = true → ∃ e, s.worker = .leaving (.error e) ∨ s.worker = .ended (.error e)

theorem RaisedByFault.step {move : Move} (h : RaisedByFault s) (quiet : move.quiet = true)
    (turn : Turn s move t) : RaisedByFault t := by
  cases move with
  | read =>
    obtain ⟨fresh, step⟩ := readerStep_of_read turn
    unfold RaisedByFault
    rwa [step.raised, Bool.or_false, step.worker]
  | poll answer =>
    have step := readerStep_of_poll turn
    have hdown : answer.raisesShutdown = false := by simpa [Move.quiet] using quiet
    unfold RaisedByFault
    rwa [step.raised, step.worker, hdown, Bool.or_false]
  | process =>
    intro hraised
    cases turn with
    | fail worker => exact ⟨_, .inl rfl⟩
    | leave worker =>
      obtain ⟨e, hworker⟩ := h hraised
      exact ⟨e, .inr (by simpa [worker] using hworker)⟩
    | receive worker | runDry worker | drop worker | check worker | refuse worker | accept worker
    | publish worker =>
      obtain ⟨e, hworker⟩ := h hraised
      simp [worker] at hworker
  | raise => contradiction

theorem RaisedByFault.run {moves : List Move} (h : RaisedByFault s)
    (quiet : ∀ move ∈ moves, move.quiet = true) (hrun : s.run moves = some t) :
    RaisedByFault t := by
  induction moves generalizing s with
  | nil =>
    obtain rfl := Option.some.inj hrun
    exact h
  | cons move rest ih =>
    rw [run_cons, Option.bind_eq_some_iff] at hrun
    obtain ⟨middle, hstep, hrest⟩ := hrun
    exact ih (h.step (quiet move List.mem_cons_self) (step_eq_some_iff.1 hstep))
      (fun m hm => quiet m (List.mem_cons_of_mem _ hm)) hrest

theorem exists_ended_of_processorGone (h : s.processorGone = true) :
    ∃ outcome, s.worker = .ended outcome := by
  unfold processorGone at h
  split at h
  · exact ⟨_, ‹_›⟩
  · contradiction

/-- Two workers whom no one else stops leave what the loop would, whichever turns they take. -/
theorem store_eq_of_quiet_run (c : Config) (opened : TraceFile.Opened) (rereads : Bool)
    {moves : List Move} (quiet : ∀ move ∈ moves, move.quiet = true)
    (hrun : (start c opened rereads).run moves = some s) (hreader : s.readerGone = true)
    (hprocessor : s.processorGone = true) :
    let p := Processor.start c.pages c.retainDetail opened.regions
    let loop := Ingest.sequence p opened.blocks
    s.store.chunks.toList = loop.1 ∧
      (loop.2 = none → ∃ stats, s.result? = some (.ok stats) ∧ stats.cancelled = false ∧
        stats.blocks = s.store.chunks.size ∧ stats.records = s.store.totalRecords) ∧
      ∀ e, loop.2 = some e → ∃ e', s.result? = some (.error e') ∧
        (e' = e ∨ (∃ f, e = .stack f) ∧ (Ingest.batches opened.blocks).2 = some e') := by
  intro p loop
  obtain ⟨done, read, sound⟩ := (sound_start c opened rereads).run hrun
  have hfault : RaisedByFault s := RaisedByFault.run (by simp [RaisedByFault, start, raised]) quiet hrun
  obtain ⟨outcome, houtcome⟩ := exists_ended_of_readerGone hreader
  obtain ⟨result, hresult⟩ := exists_ended_of_processorGone hprocessor
  cases sound.progress with
  | working holds accounted =>
    rw [holds.processorGone] at hprocessor
    contradiction
  | @failed batch e worker raised refused within =>
    have hloop : loop = _ := sound.sequence_of_refused refused within
    have hworker : s.worker = .ended (.error e) := worker.resolve_left (by simp [hresult])
    refine ⟨by rw [hloop], by simp [hloop], ?_⟩
    rw [hloop]
    rintro _ ⟨rfl⟩
    cases outcome with
    | error e' =>
      refine ⟨e', by rw [result?, houtcome, hworker], .inr ⟨⟨e, rfl⟩, ?_⟩⟩
      rw [sound.batches, ahead, houtcome]
      rfl
    | ok stopped => exact ⟨.stack e, by rw [result?, houtcome, hworker], .inl rfl⟩
  | stopped worker raised within =>
    obtain ⟨e, hworker | hworker⟩ := hfault raised <;> simp [hworker] at worker
  | finished worker gone complete =>
    have hraised : s.raised ≠ true := by
      intro hraised
      obtain ⟨e, hworker | hworker⟩ := hfault hraised <;> simp [hworker] at worker
    have hworker : s.worker = .ended (.ok ()) := worker.resolve_left (by simp [hresult])
    subst complete
    cases outcome with
    | error e =>
      have hahead : s.ahead = ([], some e) := by rw [ahead, houtcome, ReaderPhase.ahead]
      have hloop : loop = _ := sound.sequence_of_complete (by rw [hahead])
      rw [hahead] at hloop
      refine ⟨by rw [hloop], by simp [hloop], ?_⟩
      rw [hloop]
      rintro _ ⟨rfl⟩
      exact ⟨e, by rw [result?, houtcome, hworker], .inl rfl⟩
    | ok stopped =>
      obtain ⟨rfl, hend⟩ := (sound.stops stopped houtcome).resolve_left hraised
      have hahead : s.ahead = ([], none) := by rw [ahead, houtcome, ReaderPhase.ahead, hend]; nofun
      have hloop : loop = _ := sound.sequence_of_complete (by rw [hahead])
      rw [hahead] at hloop
      refine ⟨by rw [hloop], fun _ => ?_, by simp [hloop]⟩
      refine ⟨{ s.stats with cancelled := false || s.raised }, ?_, ?_, ?_, ?_⟩
      · rw [result?, houtcome, hworker]
      · simpa using hraised
      · rw [← Array.length_toList, sound.published.length_eq]
        exact sound.blocks
      · rw [Store.totalRecords_of_run sound.published rfl rfl]
        exact sound.records

/-- The reader is two blocks ahead when the processor begins with the first. -/
theorem store_eq_of_two_blocks_ahead :
    let opened : TraceFile.Opened := ⟨0, .empty, ⟨9, TraceFile.encodeBlock Lz4.encode [] ++
      TraceFile.encodeBlock Lz4.encode [.enter 7]⟩⟩
    let quietPoll : Move := .poll ⟨none, false⟩
    let moves : List Move := [.read, quietPoll, .read, .read, .read, quietPoll, .read, .process,
      .process, .process, .read, .process, .read, quietPoll, .read, .process, .process, .process,
      .process, .process, .process]
    ∃ s, (start {} opened true).run moves = some s ∧ s.store.chunks.size = 2 ∧
      s.store.chunks.toList =
        (Ingest.sequence (Processor.start {} false opened.regions) opened.blocks).1 := by
  intro opened quietPoll moves
  have quiet : ∀ move ∈ moves, move.quiet = true := by decide +revert
  have hany : ((start {} opened true).run moves).any (fun s => s.readerGone && s.processorGone &&
      s.store.chunks.size == 2) = true := by
    clear quiet
    decide +kernel +revert
  rw [Option.any_eq_true] at hany
  obtain ⟨s, hrun, hs⟩ := hany
  simp only [Bool.and_eq_true, beq_iff_eq] at hs
  obtain ⟨⟨hreader, hprocessor⟩, hsize⟩ := hs
  exact ⟨s, hrun, hsize, (store_eq_of_quiet_run {} opened true quiet hrun hreader hprocessor).1⟩

end AccessTrace.Pipeline
