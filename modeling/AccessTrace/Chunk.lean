import AccessTrace.CallStack
import AccessTrace.PageActivity
import AccessTrace.Region.Table

/-!
Chunks: what is kept of one block of records. The records themselves are detail that a chunk can let
go and get back.
-/

namespace AccessTrace

/-- Numbers of records by kind; `unmapped` counts the accesses outside every region. -/
structure Counts where
  accesses : Nat
  writes : Nat
  enters : Nat
  exits : Nat
  unmapped : Nat
deriving DecidableEq, Repr

namespace Counts

def zero : Counts :=
  ⟨0, 0, 0, 0, 0⟩

def add (a b : Counts) : Counts where
  accesses := a.accesses + b.accesses
  writes := a.writes + b.writes
  enters := a.enters + b.enters
  exits := a.exits + b.exits
  unmapped := a.unmapped + b.unmapped

instance : Add Counts :=
  ⟨add⟩

def total (c : Counts) : Nat :=
  c.accesses + c.enters + c.exits

def ofRecord (regions : Region.Table) : Record → Counts
  | .access a =>
    { zero with
      accesses := 1
      writes := if a.isWrite then 1 else 0
      unmapped := if (regions.lookup a.addr).isSome then 0 else 1 }
  | .enter _ => { zero with enters := 1 }
  | .exit _ => { zero with exits := 1 }

def ofRecords (regions : Region.Table) (records : List Record) : Counts :=
  records.foldl (fun c r => c + ofRecord regions r) zero

def sum (cs : List Counts) : Counts :=
  cs.foldl (· + ·) zero

end Counts

def touchedRegions (regions : Region.Table) (records : List Record) : List Nat :=
  Tally.distinct <| (PageActivity.addresses records).filterMap fun addr =>
    (regions.lookup addr).map Prod.fst

structure Batch where
  fileOffset : Nat
  records : List Record
deriving DecidableEq, Repr

structure Chunk where
  index : Nat
  /-- The position of the first record in the whole trace. -/
  firstRecord : Nat
  recordCount : Nat
  fileOffset : Nat
  /-- The entries of the frames open at the start, outermost first. -/
  carryIn : List Record
  /-- The entries of the frames open at the end, outermost first. -/
  carryOut : List Record
  callStack : CallStack.Index
  pages : PageActivity
  touchedRegions : List Nat
  counts : Counts
  detail : Option (List Record)

namespace Chunk

def contains (c : Chunk) (position : Nat) : Bool :=
  c.firstRecord ≤ position && position - c.firstRecord < c.recordCount

def framesAt (c : Chunk) (place : Nat) : List CallStack.Frame :=
  c.callStack.framesAt place

def stackAt (c : Chunk) (place : Nat) : List Record :=
  c.callStack.stackAt place

def hasDetail (c : Chunk) : Bool :=
  c.detail.isSome

def record? (c : Chunk) (place : Nat) : Option Record :=
  c.detail.bind fun records => records[place]?

def hold (c : Chunk) (records : List Record) : Chunk :=
  { c with detail := some records }

def release (c : Chunk) : Chunk :=
  { c with detail := none }

end Chunk

end AccessTrace
