import AccessTrace.Proofs.Ingest.Books

/-!
The result of a load that is left alone. It is the result of the one loop over the blocks, with one
exception: while the processor is at a batch that it refuses, the reader reads on, and when it meets
a fault of the file before it hears of the refusal, the load reports that fault. It can meet only
those that no more batches than fit into the queue separate from the one refused.
-/

namespace AccessTrace.Pipeline

def ReaderPhase.unsent : ReaderPhase → Nat
  | .sending _ | .ended (.ok _) => 1
  | _ => 0

def ProcessorPhase.unpublished : ProcessorPhase → Nat
  | .receiving => 0
  | _ => 1

structure Lead (s : Pipeline) : Prop where
  room : s.queue.length ≤ s.capacity
  blocks : s.stats.blocks ≤
    s.store.chunks.size + s.worker.unpublished + s.queue.length + s.reader.unsent

/-- A batch that the processor refuses, and a fault of the file so close behind it that the reader
can meet it in the meantime. -/
structure Overtaken (c : Config) (opened : TraceFile.Opened) (f : CallStack.Error) (e : TraceError) :
    Prop where
  refused : (loop c opened).2 = some (.stack f)
  unread : (Ingest.batches opened.blocks).2 = some e
  near : (Ingest.batches opened.blocks).1.length ≤ (loop c opened).1.length + 1 + c.channelCapacity

def loopResult (c : Config) (opened : TraceFile.Opened) (answers : List Poll) :
    Except TraceError Ingest.Stats :=
  match (loop c opened).2 with
  | some e => .error e
  | none => .ok <| figures opened.blocks.remaining.1 ((loop c opened).1.map Chunk.recordCount).sum
      (Ingest.outcomes c.budget answers)

variable {c : Config} {opened : TraceFile.Opened} {rereads : Bool} {answers : List Poll}
  {s t : Pipeline} {move : Move} {moves : List Move}

theorem Lead.step (h : Lead s) (turn : Turn s move t) : Lead t := by
  obtain ⟨room, blocks⟩ := h
  cases turn with
  | wait reader | pass reader | goToGate reader | badBlock reader | sendToNobody reader =>
    simp only [reader, ReaderPhase.unsent] at blocks
    exact ⟨room, blocks⟩
  | giveUp reader | cancel reader | noBlock reader =>
    simp only [reader, ReaderPhase.unsent] at blocks
    exact ⟨room, Nat.le_succ_of_le blocks⟩
  | badPayload reader =>
    simp only [reader, ReaderPhase.unsent] at blocks
    exact ⟨room, by rwa [blocks_addWait]⟩
  | block reader =>
    simp only [reader, ReaderPhase.unsent] at blocks
    refine ⟨room, ?_⟩
    simp only [Ingest.Stats.addBlock, blocks_addWait, ReaderPhase.unsent]
    omega
  | send reader here free =>
    simp only [reader, ReaderPhase.unsent] at blocks
    constructor <;> simp only [List.length_append, List.length_singleton, ReaderPhase.unsent] <;>
      omega
  | receive worker first =>
    simp only [worker, first, ProcessorPhase.unpublished, List.length_cons] at room blocks
    exact ⟨Nat.le_of_succ_le room, by simp only [ProcessorPhase.unpublished]; omega⟩
  | publish worker =>
    simp only [worker, ProcessorPhase.unpublished] at blocks
    refine ⟨room, ?_⟩
    simp only [Ingest.Stats.addChunk, Store.append, Array.size_push, ProcessorPhase.unpublished]
    omega
  | runDry worker | drop worker | check worker | refuse worker | accept worker | fail worker
  | leave worker =>
    simp only [worker, ProcessorPhase.unpublished] at blocks
    refine ⟨room, ?_⟩
    simp only [raiseFlag, ProcessorPhase.unpublished]
    omega
  | raise => exact ⟨room, blocks⟩

theorem lead_of_run (hrun : (start c opened rereads).run moves = some s) : Lead s :=
  keeps_of_run (fun turn h => h.step turn) hrun ⟨Nat.zero_le _, Nat.zero_le _⟩

theorem Lead.blocks_le (h : Lead s) {e : TraceError} (reader : s.reader = .ended (.error e)) :
    s.stats.blocks ≤ s.store.chunks.size + 1 + s.capacity := by
  obtain ⟨room, blocks⟩ := h
  have : s.worker.unpublished ≤ 1 := by
    unfold ProcessorPhase.unpublished
    split <;> decide
  simp only [reader, ReaderPhase.unsent] at blocks
  omega

theorem loopResult_eq_error_iff {e : TraceError} :
    loopResult c opened answers = .error e ↔ (loop c opened).2 = some e := by
  unfold loopResult
  split <;> simp [*]

namespace CompleteRun

theorem overtaken (h : CompleteRun c opened rereads answers moves s) {e : TraceError}
    {f : CallStack.Error} (reader : s.reader = .ended (.error e))
    (loops : loop c opened = (s.store.chunks.toList, some (.stack f))) : Overtaken c opened f e := by
  obtain ⟨done, read, sound⟩ := h.exists_sound
  have hahead : s.ahead = ([], some e) := by rw [ahead, reader, ReaderPhase.ahead]
  have hbatches : Ingest.batches opened.blocks = (read, some e) := by
    rw [sound.batches, hahead, List.append_nil]
  have hlead := (lead_of_run h.run).blocks_le reader
  rw [capacity_of_run h.run, sound.blocks, ← Array.length_toList] at hlead
  exact ⟨by rw [loops], by rw [hbatches], by rw [hbatches, loops]; exact hlead⟩

theorem sum_recordCount (h : CompleteRun c opened rereads answers moves s) :
    (s.store.chunks.toList.map Chunk.recordCount).sum = s.store.totalRecords := by
  obtain ⟨done, read, sound⟩ := h.exists_sound
  rw [Store.totalRecords_eq_length sound.published rfl rfl, sound.published.sum_recordCount]

/-- A load reports what the loop does, or a fault of the reader that has overtaken it. -/
theorem result?_eq (h : CompleteRun c opened rereads answers moves s) :
    s.result? = some (loopResult c opened answers) ∨
      ∃ f e, Overtaken c opened f e ∧ s.result? = some (.error e) := by
  cases h.ending with
  | clean reader worker down loops blocks =>
    rw [result?_of_clean h.run h.heard reader worker down, loopResult, loops, h.sum_recordCount]
    exact .inl rfl
  | unreadable reader worker loops =>
    rw [result?, reader, worker, loopResult, loops]
    exact .inl rfl
  | @refused outcome f reader worker loops found =>
    cases outcome with
    | error e =>
      rw [result?, reader, worker]
      exact .inr ⟨f, e, h.overtaken reader loops, rfl⟩
    | ok stopped =>
      rw [result?, reader, worker, loopResult, loops]
      exact .inl rfl
  | stopped reader worker raised =>
    rw [h.down worker] at raised
    contradiction

theorem loop_eq {stats : Ingest.Stats}
    (h : CompleteRun c opened rereads answers moves s) (hok : s.result? = some (.ok stats)) :
    loop c opened = (s.store.chunks.toList, none) := by
  rcases h.result?_eq with hresult | ⟨f, e, -, hresult⟩
  · rw [hok, Option.some.injEq] at hresult
    refine Prod.ext h.chunks_eq.symm (Option.eq_none_iff_forall_ne_some.2 fun e he => ?_)
    rw [loopResult_eq_error_iff.2 he] at hresult
    contradiction
  · simp [hok] at hresult

theorem result?_of_file {e : TraceFile.Error}
    (h : CompleteRun c opened rereads answers moves s) (hloop : (loop c opened).2 = some (.file e)) :
    s.result? = some (.error (.file e)) := by
  rcases h.result?_eq with hresult | ⟨f, d, overtaken, -⟩
  · rw [hresult, loopResult_eq_error_iff.2 hloop]
  · simp [overtaken.refused] at hloop

theorem result?_of_none (h : CompleteRun c opened rereads answers moves s)
    (hloop : (loop c opened).2 = none) :
    ∃ stats, s.result? = some (.ok stats) ∧ stats.cancelled = false := by
  rcases h.result?_eq with hresult | ⟨f, e, overtaken, -⟩
  · rw [loopResult, hloop] at hresult
    exact ⟨_, hresult, rfl⟩
  · simp [overtaken.refused] at hloop

end CompleteRun

theorem Overtaken.loopResult_eq {f : CallStack.Error} {e : TraceError} (h : Overtaken c opened f e) :
    loopResult c opened answers = .error (.stack f) := by
  rw [loopResult, h.refused]

theorem Overtaken.unique {f g : CallStack.Error} {e d : TraceError} (h : Overtaken c opened f e)
    (h' : Overtaken c opened g d) : d = e :=
  Option.some.inj (h'.unread.symm.trans h.unread)

/-- Two loads of one trace over the same answers about memory end alike, and with a fault exactly
where the loop does, which is that of the first faulty block. Only when this is a batch that the
processor refuses, and the file has another fault close behind it, each of the loads may report the
one or the other. -/
theorem results_of_two_runs {first second : List Move}
    (hs : CompleteRun c opened rereads answers first s)
    (ht : CompleteRun c opened rereads answers second t) :
    ((¬∃ f e, Overtaken c opened f e) → s.result? = t.result? ∧
      ∃ result, s.result? = some result ∧ ∀ e, result = .error e ↔ (loop c opened).2 = some e) ∧
    ∀ f e, Overtaken c opened f e →
      (s.result? = some (.error (.stack f)) ∨ s.result? = some (.error e)) ∧
        (t.result? = some (.error (.stack f)) ∨ t.result? = some (.error e)) := by
  constructor
  · intro alone
    have hfirst := hs.result?_eq.resolve_right fun ⟨f, e, h, _⟩ => alone ⟨f, e, h⟩
    have hsecond := ht.result?_eq.resolve_right fun ⟨f, e, h, _⟩ => alone ⟨f, e, h⟩
    exact ⟨hfirst.trans hsecond.symm, _, hfirst, fun e => loopResult_eq_error_iff⟩
  · intro f e overtaken
    have reported {u : Pipeline} {moves : List Move}
        (h : CompleteRun c opened rereads answers moves u) :
        u.result? = some (.error (.stack f)) ∨ u.result? = some (.error e) := by
      rcases h.result?_eq with hloop | ⟨g, d, hother, hfault⟩
      · exact .inl (by rw [hloop, overtaken.loopResult_eq])
      · exact .inr (by rw [hfault, overtaken.unique hother])
    exact ⟨reported hs, reported ht⟩

/-- The reader is two blocks ahead when the processor refuses the first, or only one. -/
theorem results_of_one_or_two_blocks_ahead :
    let opened : TraceFile.Opened := ⟨0, .empty, ⟨9, TraceFile.encodeBlock Lz4.encode [.exit 7] ++
      TraceFile.encodeBlock Lz4.encode [.enter 7]⟩⟩
    let quietPoll : Poll := ⟨none, false⟩
    let two : List Move := [.read, .poll quietPoll, .read, .read, .read, .poll quietPoll, .read, .read,
      .process, .process, .process, .process, .process, .read]
    let one : List Move := [.read, .poll quietPoll, .read, .read, .process, .process, .process,
      .process, .process, .read]
    (¬∃ f e, Overtaken {} opened f e) ∧
      ∃ s t, CompleteRun {} opened true [quietPoll, quietPoll] two s ∧
        CompleteRun {} opened true [quietPoll, quietPoll] one t ∧ s.result? = t.result? := by
  intro opened quietPoll two one
  have hruns : (Ingest.batches opened.blocks).2 = none ∧
      completes {} opened true [quietPoll, quietPoll] two
        (.error (.stack (.unbalanced 0 none 7))) = true ∧
      completes {} opened true [quietPoll, quietPoll] one
        (.error (.stack (.unbalanced 0 none 7))) = true := by decide +kernel +revert
  obtain ⟨hnone, htwo, hone⟩ := hruns
  have alone : ¬∃ f e, Overtaken {} opened f e := by
    rintro ⟨f, e, -, unread, -⟩
    rw [hnone] at unread
    contradiction
  obtain ⟨s, hs, -⟩ := CompleteRun.of_completes htwo
  obtain ⟨t, ht, -⟩ := CompleteRun.of_completes hone
  exact ⟨alone, s, t, hs, ht, ((results_of_two_runs hs ht).1 alone).1⟩

/-- The processor refuses the first block, and the file ends in the middle of the next length. A
reader that is ahead finds the second fault before the flag goes up, and one that is not never
does. -/
theorem results_ne_of_reader_ahead :
    let opened : TraceFile.Opened :=
      ⟨0, .empty, ⟨9, TraceFile.encodeBlock Lz4.encode [.exit 7] ++ [5]⟩⟩
    let quietPoll : Poll := ⟨none, false⟩
    let ahead : List Move := [.read, .poll quietPoll, .read, .read, .read, .poll quietPoll, .read,
      .process, .process, .process, .process, .process]
    let behind : List Move := [.read, .poll quietPoll, .read, .read, .process, .process, .process,
      .process, .process, .read]
    (loop {} opened).2 = some (.stack (.unbalanced 0 none 7)) ∧
      ∃ s t, CompleteRun {} opened true [quietPoll, quietPoll] ahead s ∧
        CompleteRun {} opened true [quietPoll, quietPoll] behind t ∧
        s.result? = some (.error (.file (.truncatedBlock 77 8 1))) ∧
        t.result? = some (.error (.stack (.unbalanced 0 none 7))) ∧ s.result? ≠ t.result? := by
  intro opened quietPoll ahead behind
  have hruns : (loop {} opened).2 = some (.stack (.unbalanced 0 none 7)) ∧
      completes {} opened true [quietPoll, quietPoll] ahead
        (.error (.file (.truncatedBlock 77 8 1))) = true ∧
      completes {} opened true [quietPoll, quietPoll] behind
        (.error (.stack (.unbalanced 0 none 7))) = true := by decide +kernel +revert
  obtain ⟨hloop, hahead, hbehind⟩ := hruns
  obtain ⟨s, hs, hfile⟩ := CompleteRun.of_completes hahead
  obtain ⟨t, ht, hstack⟩ := CompleteRun.of_completes hbehind
  exact ⟨hloop, s, t, hs, ht, hfile, hstack, by simp [hfile, hstack]⟩

end AccessTrace.Pipeline
