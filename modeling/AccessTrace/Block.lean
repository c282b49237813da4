import AccessTrace.Lz4

/-!
Block payloads: records compressed twice. No length is stored, so each round is decoded into a
buffer that doubles until the content fits.
-/

namespace AccessTrace.Block

structure Error where
  round : Nat
  cause : Lz4.Error
deriving DecidableEq, Repr

def Error.message (e : Error) : String :=
  s!"Decompression failed in round {e.round}: {e.cause.message}"

/-- No block of `n` bytes holds more than this. -/
def capacityLimit (n : Nat) : Nat :=
  255 * n + 4096

/-- Decodes into a buffer of `capacity` bytes and doubles it, up to the limit, while it is full. -/
def decodeGrowing (input : Bytes) (capacity : Nat) (positive : 0 < capacity) :
    Except Lz4.Error (Array UInt8) :=
  match Lz4.decodeWithin capacity input with
  | .error .outputFull =>
    if capacity < capacityLimit input.length then
      decodeGrowing input (min (2 * capacity) (capacityLimit input.length))
        (by unfold capacityLimit; omega)
    else .error .outputFull
  | result => result
termination_by capacityLimit input.length - capacity

def decompressRound (round : Nat) (input : Bytes) : Except Error Bytes :=
  match decodeGrowing input (max 4096 (4 * input.length)) (by omega) with
  | .ok out => .ok out.toList
  | .error cause => .error { round, cause }

def decompress (payload : Bytes) : Except Error Bytes := do
  let inner ← decompressRound 1 payload
  decompressRound 2 inner

def compress (content : Bytes) (round : Bytes → Bytes := Lz4.encode) : Bytes :=
  round (round content)

end AccessTrace.Block
