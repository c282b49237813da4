import AccessTrace.Store

/-!
Summaries of a store: totals, the regions touched, the frames never left, and a line for each chunk.
All figures are 64-bit words, as in the document that holds a summary.
-/

namespace AccessTrace

namespace Summary

def schemaVersion : String :=
  "1.0.0"

structure CountFigures where
  accesses : UInt64
  writes : UInt64
  enters : UInt64
  exits : UInt64
  unmappedAccesses : UInt64
deriving DecidableEq, Repr

structure RegionEntry where
  id : UInt64
  low : UInt64
  high : UInt64
  perms : String
  pathname : String
deriving DecidableEq, Repr

structure ChunkEntry where
  index : UInt64
  firstRecord : UInt64
  recordCount : UInt64
  fileOffset : UInt64
  frames : UInt64
  activePages : UInt64
  quietPages : UInt64
  peakPageAccesses : UInt64
  /-- The number of frames open at the end of the chunk. -/
  openDepth : UInt64
deriving DecidableEq, Repr

end Summary

structure Summary where
  version : String
  trace : String
  pageSize : UInt64
  chunkCount : UInt64
  totalRecords : UInt64
  counts : Summary.CountFigures
  /-- The active pages of every chunk, added up. -/
  activePages : UInt64
  /-- The quiet pages of every chunk, added up. -/
  quietPages : UInt64
  touchedRegions : List Summary.RegionEntry
  openFrames : List String
  chunks : List Summary.ChunkEntry
  generatedAt : String
deriving DecidableEq, Repr

namespace Summary

def CountFigures.ofCounts (c : Counts) : CountFigures where
  accesses := .ofNat c.accesses
  writes := .ofNat c.writes
  enters := .ofNat c.enters
  exits := .ofNat c.exits
  unmappedAccesses := .ofNat c.unmapped

def RegionEntry.ofRegion (id : Nat) (r : Region) : RegionEntry where
  id := .ofNat id
  low := r.low
  high := r.high
  perms := r.perms
  pathname := r.pathname

def ChunkEntry.ofChunk (c : Chunk) : ChunkEntry where
  index := .ofNat c.index
  firstRecord := .ofNat c.firstRecord
  recordCount := .ofNat c.recordCount
  fileOffset := .ofNat c.fileOffset
  frames := .ofNat c.callStack.frameCount
  activePages := .ofNat c.pages.active.length
  quietPages := .ofNat c.pages.quiet.length
  peakPageAccesses := .ofNat c.pages.peak
  openDepth := .ofNat c.carryOut.length

/-- What a summary takes from a store, each part at a moment of its own. -/
structure Reading where
  chunks : List Chunk
  touched : List Nat
  openFrames : List Record
  totalRecords : Nat
  counts : Counts

def Reading.ofStore (s : Store) : Reading where
  chunks := s.chunks.toList
  touched := s.touchedRegions
  openFrames := s.openFrames
  totalRecords := s.totalRecords
  counts := s.counts

def ofReading (regions : Region.Table) (trace : String) (pageSize : UInt64) (generatedAt : String)
    (r : Reading) : Summary where
  version := schemaVersion
  trace := trace
  pageSize := pageSize
  chunkCount := .ofNat r.chunks.length
  totalRecords := .ofNat r.totalRecords
  counts := .ofCounts r.counts
  activePages := .ofNat (r.chunks.foldl (fun n c => n + c.pages.active.length) 0)
  quietPages := .ofNat (r.chunks.foldl (fun n c => n + c.pages.quiet.length) 0)
  touchedRegions := r.touched.filterMap fun id => (regions.get? id).map (RegionEntry.ofRegion id)
  openFrames := (r.openFrames.filterMap Record.function?).map regions.symbol
  chunks := r.chunks.map ChunkEntry.ofChunk
  generatedAt := generatedAt

def ofStore (s : Store) (trace : String) (pageSize : UInt64) (generatedAt : String) : Summary :=
  ofReading s.regions trace pageSize generatedAt (.ofStore s)

end Summary

end AccessTrace
