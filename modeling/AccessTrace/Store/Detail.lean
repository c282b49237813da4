import AccessTrace.Error
import AccessTrace.Store

/-!
Records on demand. A chunk that does not hold its records has them read again from the trace file;
only so many chunks keep them then, and the one loaded longest ago lets go first. The file is given
as it is found at that moment.
-/

namespace AccessTrace

def decodePayload (payload : Bytes) : Except TraceError (List Record) := do
  let content ← (Block.decompress payload).mapError .block
  (Record.decode content).mapError .record

abbrev FileContent := Except Files.Fault Bytes

/-- The size that no file goes beyond on a file system that counts its blocks of 4096 bytes in 32
bits, as ext4 does. Other file systems draw the line elsewhere. -/
def maxFileSize : Nat :=
  4096 * (UInt32.size - 1)

/-- The blocks of a file from an offset on. There are none behind its end, but what lies behind the
end of every file is no offset at all. -/
def blocksFrom (file : FileContent) (offset : Nat) : Except Files.Fault TraceFile.Blocks := do
  let content ← file
  if max content.length maxFileSize < offset then throw .invalidArgument
  return .startingAt content offset

def loadBlock (file : FileContent) (offset : Nat) : Except TraceError (List Record) := do
  let blocks ← (blocksFrom file offset).mapError fun fault => .file (.unreadable fault)
  match blocks.next.1 with
  | .error e => throw (.file e)
  | .ok none => throw (.file (.truncatedBlock offset 8 0))
  | .ok (some raw) => decodePayload raw.payload

namespace Store

def setChunk (s : Store) (index : Nat) (change : Chunk → Chunk) : Store :=
  { s with chunks := s.chunks.modify index change }

/-- Makes a chunk the one loaded last, and lets those loaded longest ago go past the limit. -/
def track (s : Store) (index : Nat) : Store :=
  let queue := s.hydrated.filter (· ≠ index) ++ [index]
  let excess := queue.length - s.hydratedLimit
  let s := { s with hydrated := queue.drop excess }
  (queue.take excess).foldl (fun s old => s.setChunk old Chunk.release) s

def reread (s : Store) (file : FileContent) (c : Chunk) : Except TraceError (List Record) := do
  if !s.rereads then throw (.detailDropped c.index)
  let records ← loadBlock file c.fileOffset
  if records.length ≠ c.recordCount then
    throw (.detailMismatch c.index c.recordCount records.length)
  return records

/-- Keeps the records of the chunk in a place, if any that were read again may be kept. The list
knows the chunk by its own number, which is its place where chunks were appended in order. -/
def keep (s : Store) (place : Nat) (c : Chunk) (records : List Record) : Store :=
  if s.hydratedLimit = 0 then s
  else (s.setChunk place fun c => c.hold records).track c.index

def hydrate (s : Store) (file : FileContent) (index : Nat) :
    Except TraceError (List Record) × Store :=
  match s.chunk? index with
  | none => (.error (.noChunk index), s)
  | some c =>
    match c.detail with
    | some records => (.ok records, s)
    | none =>
      match s.reread file c with
      | .error e => (.error e, s)
      | .ok records => (.ok records, s.keep index c records)

def recordAt (s : Store) (file : FileContent) (position : Nat) :
    Except TraceError Record × Store :=
  match s.locate position with
  | none => (.error (.noRecord position), s)
  | some (index, place) =>
    let (answer, s) := s.hydrate file index
    (answer.bind fun records =>
      match records[place]? with
      | some r => .ok r
      | none => .error (.noRecord position), s)

def release (s : Store) (index : Nat) : Except TraceError Unit × Store :=
  match s.chunk? index with
  | none => (.error (.noChunk index), s)
  | some _ =>
    (.ok (), { s.setChunk index Chunk.release with hydrated := s.hydrated.filter (· ≠ index) })

/-- Drops the records of a chunk without taking note of it. -/
def releaseChunk (s : Store) (index : Nat) : Store :=
  s.setChunk index Chunk.release

end Store

end AccessTrace
