import AccessTrace.Proofs.Ingest.Pipeline

/-!
Two workers never wait for each other for good. Each step of one of them leaves less work, so that
no run has more steps than there is work, and as long as one of them has not ended, some step is
left.
-/

namespace AccessTrace.Pipeline

/-- The work in front of a reader that has so many bytes to read. The processor has its share of
each batch still to do when the reader is done with it. -/
def ReaderPhase.work (bytes : Nat) : ReaderPhase → Nat
  | .atHead => 2 * bytes + 3
  | .atGate => 2 * bytes + 2
  | .atBlock _ => 2 * bytes + 1
  | .sending _ => 2 * bytes + 9
  | .ended _ => 0

def ProcessorPhase.work : ProcessorPhase → Nat
  | .receiving => 2
  | .checking _ => 6
  | .processing _ => 5
  | .publishing _ _ => 4
  | .failing _ => 2
  | .leaving _ => 1
  | .ended _ => 0

def work (s : Pipeline) : Nat :=
  s.reader.work s.blocks.rest.length + 5 * s.queue.length + s.worker.work

variable {s t : Pipeline}

theorem work_of_turn {move : Move} (turn : Turn s move t) :
    (if move.isStep then 1 else 0) + t.work ≤ s.work := by
  cases turn with
  | badPayload reader next | block reader next =>
    have hlength := congrArg List.length (TraceFile.Blocks.next_eq_some_iff.1 next).2.2.1
    rw [List.length_append, TraceFile.length_frame] at hlength
    simp only [work, Move.isStep, ReaderPhase.work, reader, if_true]
    omega
  | giveUp reader | goToGate reader | cancel reader | badBlock reader | noBlock reader
  | sendToNobody reader =>
    simp only [work, Move.isStep, ReaderPhase.work, reader, if_true]
    omega
  | send reader =>
    simp only [work, Move.isStep, ReaderPhase.work, reader, if_true, List.length_append,
      List.length_singleton]
    omega
  | wait reader | pass reader => simp [work, Move.isStep, ReaderPhase.work, reader]
  | receive worker first =>
    simp only [work, Move.isStep, ProcessorPhase.work, worker, if_true, first, List.length_cons]
    omega
  | runDry worker | drop worker | check worker | refuse worker | accept worker | publish worker
  | leave worker =>
    simp only [work, Move.isStep, ProcessorPhase.work, worker, if_true]
    omega
  | fail worker =>
    simp only [work, Move.isStep, ProcessorPhase.work, worker, if_true, raiseFlag]
    omega
  | raise => simp [work, Move.isStep, raiseFlag]

theorem work_lt_of_turn {move : Move} (turn : Turn s move t) (hstep : move.isStep = true) :
    t.work < s.work := by
  have hwork := work_of_turn turn
  rw [if_pos hstep] at hwork
  omega

theorem countP_isStep_add_work_le {moves : List Move} (h : s.run moves = some t) :
    moves.countP Move.isStep + t.work ≤ s.work := by
  induction moves generalizing s with
  | nil =>
    obtain rfl := Option.some.inj h
    simp
  | cons move rest ih =>
    rw [run_cons, Option.bind_eq_some_iff] at h
    obtain ⟨middle, hstep, hrest⟩ := h
    have hhere := work_of_turn (step_eq_some_iff.1 hstep)
    have hbehind := ih hrest
    rw [List.countP_cons]
    omega

/-- A reader that has not ended can go on, unless it waits for a processor that is there to make
room. -/
theorem exists_reader_turn (here : s.readerGone = false)
    (room : s.processorGone = true ∨ s.queue.length < s.capacity) :
    ∃ move t, move.quiet = true ∧ Turn s move t ∧ t.work < s.work := by
  suffices (∃ t, Turn s .read t) ∨ s.reader = .atGate ∧ s.gate.cancelled = false by
    rcases this with ⟨t, turn⟩ | ⟨reader, waiting⟩
    · exact ⟨.read, t, rfl, turn, work_lt_of_turn turn rfl⟩
    · -- An answer that nothing is known about the memory ends every wait.
      refine ⟨.poll ⟨none, false⟩, _, rfl, .pass reader waiting rfl, ?_⟩
      simp [work, ReaderPhase.work, reader]
  cases reader : s.reader with
  | atHead =>
    cases raised : s.raised with
    | true => exact .inl ⟨_, .giveUp reader raised⟩
    | false => exact .inl ⟨_, .goToGate reader raised⟩
  | atGate =>
    cases cancelled : s.gate.cancelled with
    | true => exact .inl ⟨_, .cancel reader cancelled⟩
    | false => exact .inr ⟨rfl, rfl⟩
  | atBlock outcome => exact .inl ⟨_, turn_of_read (by rw [read, reader])⟩
  | sending batch =>
    cases gone : s.processorGone with
    | true => exact .inl ⟨_, .sendToNobody reader gone⟩
    | false => exact .inl ⟨_, .send reader gone (room.resolve_left (by simp [gone]))⟩
  | ended outcome => simp [readerGone, reader] at here

theorem exists_processor_turn (here : s.processorGone = false)
    (sent : s.readerGone = true ∨ s.queue ≠ []) : ∃ t, Turn s .process t := by
  cases worker : s.worker with
  | receiving =>
    cases hqueue : s.queue with
    | nil => exact ⟨_, .runDry worker hqueue (sent.resolve_right (· hqueue))⟩
    | cons batch rest => exact ⟨_, .receive worker hqueue⟩
  | checking batch =>
    cases raised : s.raised with
    | true => exact ⟨_, .drop worker raised⟩
    | false => exact ⟨_, .check worker raised⟩
  | processing batch =>
    cases hbatch : s.processor.process batch with
    | error e => exact ⟨_, .refuse worker hbatch⟩
    | ok made => exact ⟨_, .accept worker hbatch⟩
  | publishing chunk next => exact ⟨_, .publish worker⟩
  | failing e => exact ⟨_, .fail worker⟩
  | leaving result => exact ⟨_, .leave worker⟩
  | ended result => simp [processorGone, worker] at here

/-- The two workers never both wait: the queue cannot be full and empty at once. -/
theorem exists_quiet_turn (capacity : 0 < s.capacity)
    (here : s.readerGone = false ∨ s.processorGone = false) :
    ∃ move t, move.quiet = true ∧ Turn s move t ∧ t.work < s.work := by
  by_cases hroom : s.readerGone = false ∧ (s.processorGone = true ∨ s.queue.length < s.capacity)
  · exact exists_reader_turn hroom.1 hroom.2
  · obtain ⟨t, turn⟩ : ∃ t, Turn s .process t := by
      cases hreader : s.readerGone with
      | true => exact exists_processor_turn (here.resolve_left (by simp [hreader])) (.inl hreader)
      | false =>
        simp only [hreader, true_and, not_or, Bool.not_eq_true, Nat.not_lt] at hroom
        refine exists_processor_turn hroom.1 (.inr fun hqueue => ?_)
        rw [hqueue, List.length_nil] at hroom
        omega
    exact ⟨.process, t, rfl, turn, work_lt_of_turn turn rfl⟩

theorem exists_run_to_end (capacity : 0 < s.capacity) :
    ∃ moves t, (∀ move ∈ moves, move.quiet = true) ∧ s.run moves = some t ∧
      t.readerGone = true ∧ t.processorGone = true := by
  induction hwork : s.work using Nat.strongRecOn generalizing s with
  | ind amount ih =>
    by_cases here : s.readerGone = false ∨ s.processorGone = false
    · obtain ⟨move, middle, quiet, turn, hless⟩ := exists_quiet_turn capacity here
      obtain ⟨moves, t, hquiet, hrun, hends⟩ :=
        ih middle.work (hwork ▸ hless) (capacity_of_turn turn ▸ capacity) rfl
      refine ⟨move :: moves, t, by simpa [quiet] using hquiet, ?_, hends⟩
      rw [run_cons, step_eq_some_iff.2 turn]
      exact hrun
    · simp only [not_or, Bool.not_eq_false] at here
      exact ⟨[], s, by simp, rfl, here⟩

end AccessTrace.Pipeline
