import AccessTrace.Ingest.Pipeline

/-!
The ways in which a move of a load can go. A move is possible exactly where one of them applies, so
what every move keeps is shown by going through them.
-/

namespace AccessTrace.Pipeline

/-- Whether a move is a step of a worker; an answer about memory may leave the reader waiting. -/
def Move.isStep : Move → Bool
  | .read | .process => true
  | .poll _ | .raise => false

def Move.answer? : Move → Option Poll
  | .poll answer => some answer
  | _ => none

theorem Move.silent_of_isStep {move : Move} (h : move.isStep = true) :
    move.answer? = none ∧ .raise ≠ move := by
  cases move <;> simp_all [Move.isStep, Move.answer?]

inductive Turn (s : Pipeline) : Move → Pipeline → Prop
  | giveUp (reader : s.reader = .atHead) (raised : s.raised = true) :
      Turn s .read { s with reader := .ended (.ok true) }
  | goToGate (reader : s.reader = .atHead) (down : s.raised = false) :
      Turn s .read { s with reader := .atGate }
  | cancel (reader : s.reader = .atGate) (cancelled : s.gate.cancelled = true) :
      Turn s .read { s with reader := .ended (.ok true) }
  | wait {answer : Poll} (reader : s.reader = .atGate) (waiting : s.gate.cancelled = false)
      (refused : s.gate.judge s.gate.budget.minSpareMb answer = none) :
      Turn s (.poll answer) { s with gate := s.gate.hear answer, reader := .atGate }
  | pass {answer : Poll} {outcome : Gate.Outcome} (reader : s.reader = .atGate)
      (waiting : s.gate.cancelled = false)
      (granted : s.gate.judge s.gate.budget.minSpareMb answer = some outcome) :
      Turn s (.poll answer) { s with gate := s.gate.hear answer, reader := .atBlock outcome }
  | badBlock {outcome : Gate.Outcome} {e : TraceFile.Error} {blocks : TraceFile.Blocks}
      (reader : s.reader = .atBlock outcome) (next : s.blocks.next = (.error e, blocks)) :
      Turn s .read { s with blocks, reader := .ended (.error (.file e)) }
  | noBlock {outcome : Gate.Outcome} {blocks : TraceFile.Blocks}
      (reader : s.reader = .atBlock outcome) (next : s.blocks.next = (.ok none, blocks)) :
      Turn s .read { s with blocks, reader := .ended (.ok false) }
  | badPayload {outcome : Gate.Outcome} {raw : TraceFile.RawBlock} {blocks : TraceFile.Blocks}
      {e : TraceError} (reader : s.reader = .atBlock outcome)
      (next : s.blocks.next = (.ok (some raw), blocks)) (refused : Ingest.batchOf raw = .error e) :
      Turn s .read
        { s with blocks, stats := s.stats.addWait outcome, reader := .ended (.error e) }
  | block {outcome : Gate.Outcome} {raw : TraceFile.RawBlock} {blocks : TraceFile.Blocks}
      {batch : Batch} (reader : s.reader = .atBlock outcome)
      (next : s.blocks.next = (.ok (some raw), blocks)) (decoded : Ingest.batchOf raw = .ok batch) :
      Turn s .read
        { s with
          blocks, stats := (s.stats.addWait outcome).addBlock raw.payload
          reader := .sending batch }
  | sendToNobody {batch : Batch} (reader : s.reader = .sending batch)
      (gone : s.processorGone = true) : Turn s .read { s with reader := .ended (.ok false) }
  | send {batch : Batch} (reader : s.reader = .sending batch) (here : s.processorGone = false)
      (room : s.queue.length < s.capacity) :
      Turn s .read { s with queue := s.queue ++ [batch], reader := .atHead }
  | receive {batch : Batch} {queue : List Batch} (worker : s.worker = .receiving)
      (first : s.queue = batch :: queue) :
      Turn s .process { s with queue, worker := .checking batch }
  | runDry (worker : s.worker = .receiving) (empty : s.queue = []) (gone : s.readerGone = true) :
      Turn s .process { s with worker := .leaving (.ok ()) }
  | drop {batch : Batch} (worker : s.worker = .checking batch) (raised : s.raised = true) :
      Turn s .process { s with worker := .leaving (.ok ()) }
  | check {batch : Batch} (worker : s.worker = .checking batch) (down : s.raised = false) :
      Turn s .process { s with worker := .processing batch }
  | refuse {batch : Batch} {e : CallStack.Error} (worker : s.worker = .processing batch)
      (refused : s.processor.process batch = .error e) :
      Turn s .process { s with worker := .failing e }
  | accept {batch : Batch} {chunk : Chunk} {next : Processor}
      (worker : s.worker = .processing batch)
      (taken : s.processor.process batch = .ok (chunk, next)) :
      Turn s .process { s with worker := .publishing chunk next }
  | publish {chunk : Chunk} {next : Processor} (worker : s.worker = .publishing chunk next) :
      Turn s .process
        { s with
          processor := next, store := s.store.append chunk, stats := s.stats.addChunk chunk
          worker := .receiving }
  | fail {e : CallStack.Error} (worker : s.worker = .failing e) :
      Turn s .process { s.raiseFlag with worker := .leaving (.error e) }
  | leave {result : Except CallStack.Error Unit} (worker : s.worker = .leaving result) :
      Turn s .process { s with worker := .ended result }
  | raise : Turn s .raise s.raiseFlag

variable {s t : Pipeline} {move : Move} {moves : List Move}

theorem turn_of_read (h : s.read = some t) : Turn s .read t := by
  unfold read at h
  split at h
  · rename_i reader
    obtain rfl := Option.some.inj h
    cases hraised : s.raised with
    | true => exact .giveUp reader hraised
    | false => exact .goToGate reader hraised
  · rename_i reader
    split at h
    · rename_i cancelled
      obtain rfl := Option.some.inj h
      exact .cancel reader cancelled
    · contradiction
  · rename_i outcome reader
    obtain rfl := Option.some.inj h
    unfold readBlock
    match next : s.blocks.next with
    | (.error e, blocks) => exact .badBlock reader next
    | (.ok none, blocks) => exact .noBlock reader next
    | (.ok (some raw), blocks) =>
      dsimp only
      cases hbatch : Ingest.batchOf raw with
      | error e => exact .badPayload reader next hbatch
      | ok batch => exact .block reader next hbatch
  · rename_i batch reader
    unfold Pipeline.send at h
    split at h
    · rename_i gone
      obtain rfl := Option.some.inj h
      exact .sendToNobody reader gone
    · rename_i here
      split at h
      · rename_i room
        obtain rfl := Option.some.inj h
        exact .send reader (Bool.eq_false_iff.2 here) room
      · contradiction
  · contradiction

theorem turn_of_poll {answer : Poll} (h : s.poll answer = some t) : Turn s (.poll answer) t := by
  unfold poll at h
  split at h
  · rename_i reader
    split at h
    · contradiction
    · rename_i waiting
      obtain rfl := Option.some.inj h
      cases hjudge : s.gate.judge s.gate.budget.minSpareMb answer with
      | none => exact .wait reader (Bool.eq_false_iff.2 waiting) hjudge
      | some outcome => exact .pass reader (Bool.eq_false_iff.2 waiting) hjudge
  · contradiction

theorem turn_of_process (h : s.process = some t) : Turn s .process t := by
  unfold Pipeline.process at h
  split at h
  · rename_i worker
    unfold Pipeline.receive at h
    split at h
    · rename_i batch queue first
      obtain rfl := Option.some.inj h
      exact .receive worker first
    · rename_i empty
      split at h
      · rename_i gone
        obtain rfl := Option.some.inj h
        exact .runDry worker empty gone
      · contradiction
  · rename_i batch worker
    obtain rfl := Option.some.inj h
    cases hraised : s.raised with
    | true => exact .drop worker hraised
    | false => exact .check worker hraised
  · rename_i batch worker
    split at h
    · rename_i e refused
      obtain rfl := Option.some.inj h
      exact .refuse worker refused
    · rename_i chunk next taken
      obtain rfl := Option.some.inj h
      exact .accept worker taken
  · rename_i chunk next worker
    obtain rfl := Option.some.inj h
    exact .publish worker
  · rename_i e worker
    obtain rfl := Option.some.inj h
    exact .fail worker
  · rename_i result worker
    obtain rfl := Option.some.inj h
    exact .leave worker
  · contradiction

theorem step_eq_some_iff : s.step move = some t ↔ Turn s move t := by
  constructor
  · intro h
    cases move with
    | read => exact turn_of_read h
    | poll answer => exact turn_of_poll h
    | process => exact turn_of_process h
    | raise =>
      obtain rfl := Option.some.inj h
      exact .raise
  · intro h
    cases h <;>
      simp_all [step, read, poll, Pipeline.process, readBlock, Pipeline.send, Pipeline.receive]

/-- What every move keeps of a state and the answers heard until then, every run keeps. -/
theorem keeps_of_hearing_run {P : List Poll → Pipeline → Prop}
    (keeps : ∀ {heard : List Poll} {s t : Pipeline} {move : Move}, Turn s move t → P heard s →
      P (heard ++ move.answer?.toList) t)
    (heard : List Poll) (hrun : s.run moves = some t) (h : P heard s) :
    P (heard ++ moves.filterMap Move.answer?) t := by
  induction moves generalizing s heard with
  | nil =>
    obtain rfl := Option.some.inj hrun
    rwa [List.filterMap_nil, List.append_nil]
  | cons move rest ih =>
    rw [run_cons, Option.bind_eq_some_iff] at hrun
    obtain ⟨middle, hstep, hrest⟩ := hrun
    have hbehind := ih _ hrest (keeps (step_eq_some_iff.1 hstep) h)
    rw [List.append_assoc] at hbehind
    cases hanswer : move.answer? <;> simpa [hanswer] using hbehind

theorem keeps_of_run {P : Pipeline → Prop}
    (keeps : ∀ {s t : Pipeline} {move : Move}, Turn s move t → P s → P t)
    (hrun : s.run moves = some t) (h : P s) : P t :=
  keeps_of_hearing_run (P := fun _ => P) keeps [] hrun h

theorem gate_of_turn (turn : Turn s move t) :
    t.gate.listens = s.gate.listens ∧ t.gate.budget = s.gate.budget := by
  cases turn <;> exact ⟨rfl, rfl⟩

theorem gate_of_run (hrun : s.run moves = some t) :
    t.gate.listens = s.gate.listens ∧ t.gate.budget = s.gate.budget := by
  refine keeps_of_run (P := fun u => u.gate.listens = s.gate.listens ∧
    u.gate.budget = s.gate.budget) (fun turn h => ?_) hrun ⟨rfl, rfl⟩
  rw [(gate_of_turn turn).1, (gate_of_turn turn).2]
  exact h

theorem capacity_of_turn (turn : Turn s move t) : t.capacity = s.capacity := by
  cases turn <;> rfl

theorem capacity_of_run (hrun : s.run moves = some t) : t.capacity = s.capacity :=
  keeps_of_run (P := fun u => u.capacity = s.capacity)
    (fun turn h => (capacity_of_turn turn).trans h) hrun rfl

end AccessTrace.Pipeline
