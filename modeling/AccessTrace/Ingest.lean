import AccessTrace.Budget
import AccessTrace.Chunk.Processor
import AccessTrace.Store.Detail

/-!
Loading a trace. In front of every block the reader waits for memory; a block becomes a batch of
records, the batch a chunk, and the chunk goes into the store. The first fault ends the load, a
raised shutdown flag ends it between two blocks, and the chunks stored until then stay. When the
processor refuses a batch, the reader is on its way to the next block already, and a fault that it
finds there is the one that the load reports. `sequence` makes the same chunks as one plain loop.
-/

namespace AccessTrace

namespace Ingest

def batchOf (raw : TraceFile.RawBlock) : Except TraceError Batch :=
  (decodePayload raw.payload).map fun records => { fileOffset := raw.fileOffset, records }

/-- The chunks of the blocks still to be read, and the fault that ends them, if any. -/
def sequence (p : Processor) (blocks : TraceFile.Blocks) : List Chunk × Option TraceError :=
  match h : blocks.next with
  | (.error e, _) => ([], some (.file e))
  | (.ok none, _) => ([], none)
  | (.ok (some raw), rest) =>
    have := TraceFile.Blocks.length_lt_of_next h
    match batchOf raw with
    | .error e => ([], some e)
    | .ok batch =>
      match p.process batch with
      | .error e => ([], some (.stack e))
      | .ok (chunk, p) =>
        let (chunks, fault) := sequence p rest
        (chunk :: chunks, fault)
termination_by blocks.rest.length

/-- The figures of a load. `unknownBudget` counts the blocks read without knowing the state of
memory, and `cancelled` tells that the shutdown flag was up in the end. -/
structure Stats where
  blocks : Nat
  compressedBytes : Nat
  records : Nat
  unknownBudget : Nat
  cancelled : Bool
deriving DecidableEq, Repr

namespace Stats

def zero : Stats :=
  ⟨0, 0, 0, 0, false⟩

def addWait (s : Stats) (outcome : Gate.Outcome) : Stats :=
  if outcome = .unknown then { s with unknownBudget := s.unknownBudget + 1 } else s

def addBlock (s : Stats) (payload : Bytes) : Stats :=
  { s with blocks := s.blocks + 1, compressedBytes := s.compressedBytes + payload.length }

def addChunk (s : Stats) (c : Chunk) : Stats :=
  { s with records := s.records + c.recordCount }

end Stats

end Ingest

structure Ingest where
  gate : Gate
  blocks : TraceFile.Blocks
  processor : Processor
  store : Store
  stats : Ingest.Stats
  polls : Nat
  /-- Why the processor refused the last batch, if it did. It raises the flag while the reader asks
  about memory the next time. -/
  refused : Option CallStack.Error

namespace Ingest

inductive Status
  | waiting (i : Ingest)
  | ended (i : Ingest) (result : Except TraceError Stats)

def start (c : Config) (opened : TraceFile.Opened) (rereads : Bool) : Ingest where
  gate := { budget := c.budget, listens := true, raised := false }
  blocks := opened.blocks
  processor := Processor.start c.pages c.retainDetail opened.regions
  store := Store.start opened.regions rereads c.hydratedChunks
  stats := Stats.zero
  polls := 0
  refused := none

def ofFile (c : Config) (file : FileContent) : Except TraceError Ingest := do
  c.validate.mapError .config
  let content ← file.mapError fun fault => .file (.unreadable fault)
  let opened ← (TraceFile.read c.strictRegions content).mapError .file
  return start c opened true

def fail (i : Ingest) (e : TraceError) : Status :=
  .ended i (.error e)

def finish (i : Ingest) (cancelled : Bool) : Status :=
  match i.refused with
  | some e => i.fail (.stack e)
  | none => .ended i (.ok { i.stats with cancelled := cancelled || i.gate.raised })

/-- Takes in a batch. The processor drops it when the flag is up, and the reader then stops. -/
def accept (i : Ingest) (batch : Batch) : Status :=
  if i.gate.raised then i.finish true
  else
    match i.processor.process batch with
    | .error e => .waiting { i with refused := some e }
    | .ok (chunk, processor) =>
      .waiting { i with
        processor, store := i.store.append chunk, stats := i.stats.addChunk chunk }

def readBlock (i : Ingest) (outcome : Gate.Outcome) : Status :=
  match i.blocks.next with
  | (.error e, blocks) => { i with blocks }.fail (.file e)
  | (.ok none, blocks) => { i with blocks }.finish false
  | (.ok (some raw), blocks) =>
    let i := { i with blocks, stats := i.stats.addWait outcome }
    match batchOf raw with
    | .error e => i.fail e
    | .ok batch => { i with stats := i.stats.addBlock raw.payload }.accept batch

theorem finish_ne_waiting (i j : Ingest) (cancelled : Bool) : i.finish cancelled ≠ .waiting j := by
  unfold finish
  split <;> nofun

theorem blocks_of_accept {i j : Ingest} {batch : Batch} (h : i.accept batch = .waiting j) :
    j.blocks = i.blocks := by
  unfold accept at h
  split at h
  · exact absurd h (finish_ne_waiting _ _ _)
  · split at h <;> exact Status.waiting.inj h ▸ rfl

theorem length_lt_of_readBlock {i j : Ingest} {outcome : Gate.Outcome}
    (h : i.readBlock outcome = .waiting j) :
    j.blocks.rest.length < i.blocks.rest.length := by
  unfold readBlock at h
  split at h
  · simp [fail] at h
  · exact absurd h (finish_ne_waiting _ _ _)
  · rename_i hnext
    dsimp only at h
    split at h
    · simp [fail] at h
    · rw [blocks_of_accept h]
      exact TraceFile.Blocks.length_lt_of_next hnext

/-- An answer about memory as the reader gets it: the flag may have gone up in the meantime. -/
def meanwhile (i : Ingest) (answer : Poll) : Poll :=
  { answer with raisesShutdown := answer.raisesShutdown || i.refused.isSome }

def advance (i : Ingest) (polls : List Poll) : Status :=
  let wait := i.gate.await i.gate.budget.minSpareMb none (polls.map i.meanwhile)
  let i' := { i with gate := wait.gate, polls := i.polls + wait.polls }
  match wait.outcome with
  | none => .waiting i'
  | some .cancelled => i'.finish true
  | some outcome =>
    match h : i'.readBlock outcome with
    | .ended j result => .ended j result
    | .waiting j =>
      have : j.blocks.rest.length < i'.blocks.rest.length := length_lt_of_readBlock h
      j.advance wait.unused
termination_by i.blocks.rest.length

/-- Goes on with the same answer again and again. The load stands still for ever when an answer lets
no block through. -/
def advanceWith (i : Ingest) (poll : Poll) : Status :=
  match i.advance [poll] with
  | .ended j result => .ended j result
  | .waiting j =>
    if j.blocks.rest.length < i.blocks.rest.length then j.advanceWith poll else .waiting j
termination_by i.blocks.rest.length

def run (i : Ingest) (memory : Forecast) : Status :=
  match i.advance memory.listed with
  | .ended j result => .ended j result
  | .waiting j => j.advanceWith memory.later

end Ingest

end AccessTrace
