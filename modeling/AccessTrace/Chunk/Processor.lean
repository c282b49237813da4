import AccessTrace.Chunk

/-!
Making chunks out of batches. From one batch to the next a processor carries the open frames, the
active pages of the last few chunks, and the numbers of chunks and records so far.
-/

namespace AccessTrace

structure Processor where
  pages : PageConfig
  retainDetail : Bool
  regions : Region.Table
  /-- The entries of the open frames, outermost first. -/
  carry : List Record
  /-- The active pages of the last chunks, latest last. -/
  recentActive : List (List UInt64)
  nextIndex : Nat
  nextRecord : Nat

namespace Processor

def start (pages : PageConfig) (retainDetail : Bool) (regions : Region.Table) : Processor where
  pages := pages
  retainDetail := retainDetail
  regions := regions
  carry := []
  recentActive := []
  nextIndex := 0
  nextRecord := 0

/-- Puts an entry at the end of a window, in place of the first one when the window is full. A
window of size zero takes none. -/
def slide {α : Type} (size : Nat) (window : List α) (x : α) : List α :=
  if size = 0 then window
  else (if window.length = size then window.tail else window) ++ [x]

/-- The chunk of the next batch, and the processor behind it. Whoever gets an error keeps the
processor that was. -/
def process (p : Processor) (batch : Batch) : Except CallStack.Error (Chunk × Processor) := do
  let (callStack, carryOut) ← CallStack.Index.build p.carry batch.records
  let pages := PageActivity.ofRecords batch.records p.pages p.recentActive
  let chunk := {
    index := p.nextIndex
    firstRecord := p.nextRecord
    recordCount := batch.records.length
    fileOffset := batch.fileOffset
    carryIn := p.carry
    carryOut
    callStack
    pages
    touchedRegions := touchedRegions p.regions batch.records
    counts := Counts.ofRecords p.regions batch.records
    detail := if p.retainDetail then some batch.records else none }
  return (chunk, { p with
    carry := carryOut
    recentActive := slide p.pages.lookback p.recentActive pages.active
    nextIndex := p.nextIndex + 1
    nextRecord := p.nextRecord + batch.records.length })

def answers (p : Processor) : List Batch → List (Except CallStack.Error Chunk)
  | [] => []
  | batch :: rest =>
    match p.process batch with
    | .error e => .error e :: p.answers rest
    | .ok (chunk, next) => .ok chunk :: next.answers rest

/-- The chunks of some batches, and the processor behind them. Batches that are refused leave no
trace. -/
def feed (p : Processor) : List Batch → List Chunk × Processor
  | [] => ([], p)
  | batch :: rest =>
    match p.process batch with
    | .error _ => p.feed rest
    | .ok (chunk, next) =>
      let (chunks, last) := next.feed rest
      (chunk :: chunks, last)

end Processor

end AccessTrace
