import AccessTrace.Chunk
import AccessTrace.Search

/-!
The chunks of a trace in order. Positions number the records of the whole trace, so that every chunk
holds a stretch of them; what is asked here is answered without the records themselves.
-/

namespace AccessTrace

structure Store where
  regions : Region.Table
  chunks : Array Chunk
  /-- Whether records can be read again from the trace file. -/
  rereads : Bool
  /-- The chunks whose records were read again, the one loaded longest ago first. -/
  hydrated : List Nat
  /-- The number of chunks that may hold records read again. -/
  hydratedLimit : Nat

namespace Store

def start (regions : Region.Table) (rereads : Bool) (hydratedLimit : Nat) : Store where
  regions := regions
  chunks := #[]
  rereads := rereads
  hydrated := []
  hydratedLimit := hydratedLimit

/-- Puts a chunk behind the others. They are to come in the order of their numbers. -/
def append (s : Store) (c : Chunk) : Store :=
  { s with chunks := s.chunks.push c }

def chunk? (s : Store) (index : Nat) : Option Chunk :=
  s.chunks[index]?

def totalRecords (s : Store) : Nat :=
  match s.chunks.back? with
  | some c => c.firstRecord + c.recordCount
  | none => 0

/-- The chunk of a position and the place in it: of the chunks that start at the position or before
it, only the last can hold it. -/
def locate (s : Store) (position : Nat) : Option (Nat × Nat) :=
  let index := Search.partitionPoint (fun c => c.firstRecord ≤ position) s.chunks - 1
  match s.chunk? index with
  | some c => if c.contains position then some (index, position - c.firstRecord) else none
  | none => none

def stackAt (s : Store) (position : Nat) : Option (List Record) := do
  let (index, place) ← s.locate position
  let c ← s.chunk? index
  return c.stackAt place

def names (s : Store) (records : List Record) : List String :=
  (records.filterMap Record.function?).map s.regions.symbol

def stackNamesAt (s : Store) (position : Nat) : Option (List String) :=
  (s.stackAt position).map s.names

def touchedRegions (s : Store) : List Nat :=
  Tally.distinct (s.chunks.toList.flatMap Chunk.touchedRegions)

def counts (s : Store) : Counts :=
  Counts.sum (s.chunks.toList.map Chunk.counts)

def openFrames (s : Store) : List Record :=
  match s.chunks.back? with
  | some c => c.carryOut
  | none => []

def holding (s : Store) : List Nat :=
  (List.range s.chunks.size).filter fun index => (s.chunk? index).any Chunk.hasDetail

end Store

end AccessTrace
