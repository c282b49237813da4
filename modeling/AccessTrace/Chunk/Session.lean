import AccessTrace.Chunk.Processor

/-!
A processor in use. It is changed in place, one field after another; whatever a refused batch has
changed by then stays changed.
-/

namespace AccessTrace.Processor

def takeIn (batch : Batch) (callStack : CallStack.Index) (carryOut : List Record) :
    StateM Processor Chunk := do
  let p ← get
  let pages := PageActivity.ofRecords batch.records p.pages p.recentActive
  modify fun p => { p with recentActive := slide p.pages.lookback p.recentActive pages.active }
  let carryIn ← modifyGet fun p => (p.carry, { p with carry := carryOut })
  let p ← get
  let chunk := {
    index := p.nextIndex
    firstRecord := p.nextRecord
    recordCount := batch.records.length
    fileOffset := batch.fileOffset
    carryIn
    carryOut
    callStack
    pages
    touchedRegions := touchedRegions p.regions batch.records
    counts := Counts.ofRecords p.regions batch.records
    detail := if p.retainDetail then some batch.records else none }
  modify fun p => { p with nextIndex := p.nextIndex + 1 }
  modify fun p => { p with nextRecord := p.nextRecord + batch.records.length }
  return chunk

def offer (batch : Batch) : ExceptT CallStack.Error (StateM Processor) Chunk := do
  let p ← get
  let (callStack, carryOut) ← liftExcept (CallStack.Index.build p.carry batch.records)
  takeIn batch callStack carryOut

def offerAll (batches : List Batch) : StateM Processor (List (Except CallStack.Error Chunk)) :=
  batches.mapM fun batch => (offer batch).run

end AccessTrace.Processor
