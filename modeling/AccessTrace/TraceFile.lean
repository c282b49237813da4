import AccessTrace.Files.FileSystem
import AccessTrace.Region.Table
import AccessTrace.Text

/-!
Trace files: the magic bytes, the region table as text closed by a zero byte, and blocks, each
behind its length.
-/

namespace AccessTrace.TraceFile

inductive Error
  | unreadable (fault : Files.Fault)
  | badMagic (found : Bytes)
  | unterminatedRegions
  | regionsNotUtf8 (e : Text.Utf8.Error)
  | regions (e : Region.TableError)
  | negativeLength (length : Int) (offset : Nat)
  | truncatedBlock (offset expected actual : Nat)
deriving DecidableEq, Repr

def Error.message : Error → String
  | .unreadable fault => "IO error: " ++ fault.message
  | .badMagic found =>
    "Bad magic bytes: [" ++ ", ".intercalate (found.map fun b => toString b.toNat) ++ "]"
  | .unterminatedRegions => "Trace header ended before the region table terminator"
  | .regionsNotUtf8 e => "Region table is not valid UTF-8: " ++ e.message
  | .regions e => e.message
  | .negativeLength length offset => s!"Invalid block length {length} at offset {offset}"
  | .truncatedBlock offset expected actual =>
    s!"Truncated block at offset {offset}: expected {expected} bytes, got {actual}"

def magic : Bytes :=
  [77, 69, 77, 65, 67, 67, 69, 83]

/-- A block as it stands in the file; the offset is that of its length. -/
structure RawBlock where
  fileOffset : Nat
  payload : Bytes
deriving DecidableEq, Repr

/-- The blocks still to be read, and the offset at which the next one is taken to start. -/
structure Blocks where
  offset : Nat
  rest : Bytes
deriving DecidableEq, Repr

namespace Blocks

def startingAt (file : Bytes) (offset : Nat) : Blocks where
  offset := offset
  rest := file.drop offset

/-- Reads the next block, if there is one. A length or payload that the file does not hold whole
uses up what is there; only a block that is returned moves the offset. -/
def next (s : Blocks) : Except Error (Option RawBlock) × Blocks :=
  match splitExactly? 8 s.rest with
  | none =>
    if s.rest.isEmpty then (.ok none, s)
    else (.error (.truncatedBlock s.offset 8 s.rest.length), { s with rest := [] })
  | some (field, rest) =>
    let length := Word.signed (Word.decode field)
    if length < 0 then (.error (.negativeLength length s.offset), { s with rest })
    else
      match splitExactly? length.toNat rest with
      | none =>
        (.error (.truncatedBlock s.offset length.toNat rest.length), { s with rest := [] })
      | some (payload, rest) =>
        (.ok (some { fileOffset := s.offset, payload }),
          { offset := s.offset + 8 + length.toNat, rest })

theorem length_lt_of_next {s s' : Blocks} {b : RawBlock} (h : s.next = (.ok (some b), s')) :
    s'.rest.length < s.rest.length := by
  unfold next at h
  rw [splitExactly?_eq] at h
  split at h
  · split at h <;> simp at h
  · rename_i hfield
    split at hfield
    · simp only [Option.some.injEq, Prod.mk.injEq] at hfield
      dsimp only at h
      split at h
      · simp at h
      · rw [splitExactly?_eq] at h
        split at h
        · simp at h
        · rename_i hpayload
          split at hpayload
          · simp only [Option.some.injEq, Prod.mk.injEq] at hpayload
            simp only [Prod.mk.injEq] at h
            simp only [← h.2, ← hpayload.2, ← hfield.2, List.length_drop]
            omega
          · simp at hpayload
    · simp at hfield

end Blocks

structure Opened where
  regionTextLength : Nat
  regions : Region.Table
  blocks : Blocks

def Opened.dataOffset (o : Opened) : Nat :=
  magic.length + o.regionTextLength + 1

/-- The characters of the region text. Text that is not UTF-8 is refused when `strict` and repaired
otherwise. -/
def regionText (strict : Bool) (text : Bytes) : Except Error (List Char) :=
  if strict then (Text.Utf8.decode text).mapError .regionsNotUtf8
  else .ok (Text.Utf8.repair text)

def read (strict : Bool) (file : Bytes) : Except Error Opened :=
  let found := file.take magic.length
  if found ≠ magic then .error (.badMagic found)
  else
    let body := file.drop magic.length
    let text := body.takeWhile (· ≠ 0)
    match body.dropWhile (· ≠ 0) with
    | [] => .error .unterminatedRegions
    | _ :: rest => do
      let chars ← regionText strict text
      let regions ← (Region.Table.ofText? strict chars).mapError .regions
      return {
        regionTextLength := text.length
        regions
        blocks := { offset := magic.length + text.length + 1, rest } }

end AccessTrace.TraceFile
