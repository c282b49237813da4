import AccessTrace.Ingest

/-!
Loading with two workers. The reader waits for memory, reads a block and sends its records through a
queue of bounded length; the processor makes chunks of them and publishes these. Both look at one
shutdown flag, which the processor raises when it fails. A run is a list of moves, so that every
order in which the workers can take turns is a run.
-/

namespace AccessTrace

namespace Pipeline

/-- What the reader does next. Its result tells whether it stopped because of the flag. -/
inductive ReaderPhase
  | atHead
  | atGate
  | atBlock (outcome : Gate.Outcome)
  | sending (batch : Batch)
  | ended (result : Except TraceError Bool)

inductive ProcessorPhase
  | receiving
  | checking (batch : Batch)
  | processing (batch : Batch)
  | publishing (chunk : Chunk) (next : Processor)
  | failing (e : CallStack.Error)
  | leaving (result : Except CallStack.Error Unit)
  | ended (result : Except CallStack.Error Unit)

/-- One step of a worker, an answer about memory that the reader hears, or the flag going up by
itself. -/
inductive Move
  | read
  | poll (answer : Poll)
  | process
  | raise
deriving DecidableEq, Repr

end Pipeline

structure Pipeline where
  gate : Gate
  capacity : Nat
  blocks : TraceFile.Blocks
  stats : Ingest.Stats
  reader : Pipeline.ReaderPhase
  queue : List Batch
  processor : Processor
  store : Store
  worker : Pipeline.ProcessorPhase

namespace Pipeline

def start (c : Config) (opened : TraceFile.Opened) (rereads : Bool) : Pipeline where
  gate := { budget := c.budget, listens := true, raised := false }
  capacity := c.channelCapacity
  blocks := opened.blocks
  stats := Ingest.Stats.zero
  reader := .atHead
  queue := []
  processor := Processor.start c.pages c.retainDetail opened.regions
  store := Store.start opened.regions rereads c.hydratedChunks
  worker := .receiving

def raised (s : Pipeline) : Bool :=
  s.gate.raised

def readerGone (s : Pipeline) : Bool :=
  match s.reader with
  | .ended _ => true
  | _ => false

def processorGone (s : Pipeline) : Bool :=
  match s.worker with
  | .ended _ => true
  | _ => false

def readBlock (s : Pipeline) (outcome : Gate.Outcome) : Pipeline :=
  match s.blocks.next with
  | (.error e, blocks) => { s with blocks, reader := .ended (.error (.file e)) }
  | (.ok none, blocks) => { s with blocks, reader := .ended (.ok false) }
  | (.ok (some raw), blocks) =>
    let s := { s with blocks, stats := s.stats.addWait outcome }
    match Ingest.batchOf raw with
    | .error e => { s with reader := .ended (.error e) }
    | .ok batch => { s with stats := s.stats.addBlock raw.payload, reader := .sending batch }

/-- Puts a batch into the queue when there is room. Nobody takes it when the processor is gone. -/
def send (s : Pipeline) (batch : Batch) : Option Pipeline :=
  if s.processorGone then some { s with reader := .ended (.ok false) }
  else if s.queue.length < s.capacity then
    some { s with queue := s.queue ++ [batch], reader := .atHead }
  else none

def read (s : Pipeline) : Option Pipeline :=
  match s.reader with
  | .atHead => some { s with reader := if s.raised then .ended (.ok true) else .atGate }
  | .atGate => if s.gate.cancelled then some { s with reader := .ended (.ok true) } else none
  | .atBlock outcome => some (s.readBlock outcome)
  | .sending batch => s.send batch
  | .ended _ => none

/-- The reader hears about memory, which it asks for only while the flag is down. -/
def poll (s : Pipeline) (answer : Poll) : Option Pipeline :=
  match s.reader with
  | .atGate =>
    if s.gate.cancelled then none
    else
      let reader := match s.gate.judge s.gate.budget.minSpareMb answer with
        | some outcome => .atBlock outcome
        | none => .atGate
      some { s with gate := s.gate.hear answer, reader }
  | _ => none

/-- Takes a batch out of the queue. The processor leaves when none can come any more. -/
def receive (s : Pipeline) : Option Pipeline :=
  match s.queue with
  | batch :: queue => some { s with queue, worker := .checking batch }
  | [] => if s.readerGone then some { s with worker := .leaving (.ok ()) } else none

def raiseFlag (s : Pipeline) : Pipeline :=
  { s with gate := { s.gate with raised := true } }

def process (s : Pipeline) : Option Pipeline :=
  match s.worker with
  | .receiving => s.receive
  | .checking batch =>
    some { s with worker := if s.raised then .leaving (.ok ()) else .processing batch }
  | .processing batch =>
    match s.processor.process batch with
    | .error e => some { s with worker := .failing e }
    | .ok (chunk, next) => some { s with worker := .publishing chunk next }
  | .publishing chunk next =>
    some { s with
      processor := next, store := s.store.append chunk, stats := s.stats.addChunk chunk
      worker := .receiving }
  | .failing e => some { s.raiseFlag with worker := .leaving (.error e) }
  | .leaving result => some { s with worker := .ended result }
  | .ended _ => none

def step (s : Pipeline) : Move → Option Pipeline
  | .read => s.read
  | .poll answer => s.poll answer
  | .process => s.process
  | .raise => some s.raiseFlag

def run (s : Pipeline) (moves : List Move) : Option Pipeline :=
  moves.foldlM step s

@[simp] theorem run_nil (s : Pipeline) : s.run [] = some s :=
  rfl

@[simp] theorem run_cons (s : Pipeline) (move : Move) (rest : List Move) :
    s.run (move :: rest) = (s.step move).bind fun t => t.run rest :=
  rfl

theorem run_append (s : Pipeline) (front rest : List Move) :
    s.run (front ++ rest) = (s.run front).bind fun t => t.run rest := by
  simp [run, List.foldlM_append]

/-- What the load amounts to once both workers have ended; a fault of the reader comes first. -/
def result? (s : Pipeline) : Option (Except TraceError Ingest.Stats) :=
  match s.reader, s.worker with
  | .ended (.error e), .ended _ => some (.error e)
  | .ended (.ok _), .ended (.error e) => some (.error (.stack e))
  | .ended (.ok stopped), .ended (.ok ()) =>
    some (.ok { s.stats with cancelled := stopped || s.raised })
  | _, _ => none

end Pipeline

end AccessTrace
