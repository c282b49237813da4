import AccessTrace.TraceFile
import AccessTrace.Record
import AccessTrace.Block

/-!
Writing trace files, block after block. The compressor is left open, since readers take what any
compressor makes.
-/

namespace AccessTrace.TraceFile

def encodeRegion (r : Region) : Bytes :=
  Text.Utf8.encode (r.line ++ ['\n'])

def encodeHeader (regions : List Region) : Bytes :=
  magic ++ regions.flatMap encodeRegion ++ [0]

def frame (payload : Bytes) : Bytes :=
  Word.encode (UInt64.ofNat payload.length) ++ payload

def encodeBlock (compress : Bytes → Bytes) (records : List Record) : Bytes :=
  frame (Block.compress (Record.encode records) compress)

structure Writer where
  compress : Bytes → Bytes
  written : Bytes
  blocks : Nat

namespace Writer

def start (regions : List Region) (compress : Bytes → Bytes := Lz4.encode) : Writer where
  compress := compress
  written := encodeHeader regions
  blocks := 0

def writeBlock (w : Writer) (records : List Record) : Writer :=
  { w with
    written := w.written ++ encodeBlock w.compress records
    blocks := w.blocks + 1 }

end Writer

def encode (regions : List Region) (blocks : List (List Record))
    (compress : Bytes → Bytes := Lz4.encode) : Bytes :=
  (blocks.foldl Writer.writeBlock (Writer.start regions compress)).written

theorem encode_eq (regions : List Region) (blocks : List (List Record))
    (compress : Bytes → Bytes) :
    encode regions blocks compress =
      encodeHeader regions ++ blocks.flatMap (encodeBlock compress) := by
  suffices ∀ w : Writer, (blocks.foldl Writer.writeBlock w).written =
      w.written ++ blocks.flatMap (encodeBlock w.compress) from this _
  induction blocks with
  | nil => simp
  | cons b rest ih => intro w; simp [ih, Writer.writeBlock]

end AccessTrace.TraceFile
