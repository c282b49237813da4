import AccessTrace.Text
import AccessTrace.Word

/-!
Mapped address ranges of the traced program, the names that addresses inside them get, and the lines
of text that regions are written as: the address range, four attributes, and a path that may hold
blanks. Reading takes more than writing produces, such as wider gaps and upper-case digits.
-/

namespace AccessTrace

/-- A range of addresses with the attributes of its mapping. `high` is the first address behind the
range, and the path is empty when no file is mapped. -/
structure Region where
  low : UInt64
  high : UInt64
  perms : String
  offset : String
  dev : String
  inode : String
  pathname : String
deriving DecidableEq, Repr

namespace Region

def unknown (addr : UInt64) : Region where
  low := addr
  high := addr
  perms := "-"
  offset := "-"
  dev := "-"
  inode := "-"
  pathname := "unknown"

def isUnknown (r : Region) : Bool :=
  r.low == r.high && r.pathname == "unknown"

def contains (r : Region) (addr : UInt64) : Bool :=
  r.low ≤ addr && addr < r.high

theorem contains_iff {r : Region} {addr : UInt64} :
    r.contains addr = true ↔ r.low ≤ addr ∧ addr < r.high := by
  simp [contains]

@[simp] theorem isUnknown_unknown (addr : UInt64) : (unknown addr).isUnknown = true := by
  simp [isUnknown, unknown]

/-- Names an address by the mapping and the distance from its start, or by itself when the region
does not hold it. -/
def symbol (r : Region) (addr : UInt64) : String :=
  if r.isUnknown || !r.contains addr then Word.hex addr
  else
    let mapping := if r.pathname.isEmpty then "[anon " ++ Word.hex r.low ++ "]" else r.pathname
    mapping ++ "+" ++ Word.hex (addr - r.low)

inductive LineFault
  | missingFields
  | noDash
  | lowAddress (e : Word.HexError)
  | highAddress (e : Word.HexError)
  | reversed
deriving DecidableEq, Repr

def LineFault.message : LineFault → String
  | .missingFields => "expected at least 5 fields"
  | .noDash => "address range has no '-'"
  | .lowAddress e => "bad low address: " ++ e.message
  | .highAddress e => "bad high address: " ++ e.message
  | .reversed => "high address below low address"

/-- The next run of a text that is empty or begins with one, and the text behind it. -/
def nextField (text : List Char) : Except LineFault (List Char × List Char) :=
  if text.isEmpty then .error .missingFields else .ok (Text.run text, Text.afterRun text)

def readRange (field : List Char) : Except LineFault (UInt64 × UInt64) := do
  match field.dropWhile (· ≠ '-') with
  | [] => throw .noDash
  | _ :: high =>
    let low ← (Word.ofHex? (field.takeWhile (· ≠ '-'))).mapError .lowAddress
    let high ← (Word.ofHex? high).mapError .highAddress
    if high < low then throw .reversed
    return (low, high)

/-- Reads a region line. The number of fields is checked before the range. -/
def ofLine? (line : List Char) : Except LineFault Region := do
  let (range, rest) ← nextField (Text.trim line)
  let (perms, rest) ← nextField rest
  let (offset, rest) ← nextField rest
  let (dev, rest) ← nextField rest
  let (inode, rest) ← nextField rest
  let (low, high) ← readRange range
  return {
    low, high
    perms := String.ofList perms
    offset := String.ofList offset
    dev := String.ofList dev
    inode := String.ofList inode
    pathname := String.ofList (Text.trimEnd rest) }

/-- The line of a region: addresses of at least eight digits, and no sixth field without a path. -/
def line (r : Region) : List Char :=
  Word.paddedHex 8 r.low ++ '-' :: Word.paddedHex 8 r.high ++
    ' ' :: r.perms.toList ++ ' ' :: r.offset.toList ++ ' ' :: r.dev.toList ++
    ' ' :: r.inode.toList ++
    if r.pathname.isEmpty then [] else ' ' :: r.pathname.toList

end Region

end AccessTrace
