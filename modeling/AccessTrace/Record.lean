import AccessTrace.Decimal
import AccessTrace.Word

/-!
The events of a trace: a load or store, the entry of a function, the exit from one. As fixed-width
byte fields they are a tag word and six payload words. Entries and exits use the first payload word
only; writing leaves the others zero and reading ignores them.
-/

namespace AccessTrace

/-- One load or store. The time is the binary64 pattern of the seconds since the capture began, so
that every pattern survives unchanged. -/
structure Access where
  time : UInt64
  pc : UInt64
  bp : UInt64
  sp : UInt64
  addr : UInt64
  isWrite : Bool
deriving DecidableEq, Repr

inductive Record
  | access (a : Access)
  | enter (function : UInt64)
  | exit (function : UInt64)
deriving DecidableEq, Repr

namespace Record

def access? : Record → Option Access
  | .access a => some a
  | _ => none

def function? : Record → Option UInt64
  | .enter f | .exit f => some f
  | .access _ => none

def text : Record → String
  | .access a =>
    "MemAccess\x7bt=" ++ Decimal.ofBinary64 a.time ++
      " write=" ++ (if a.isWrite then "true " else "false") ++
      " pc=" ++ Word.hex a.pc ++ " bp=" ++ Word.hex a.bp ++
      " sp=" ++ Word.hex a.sp ++ " addr=" ++ Word.hex a.addr ++ "\x7d"
  | .enter f => "FunctionEnter\x7bptr=" ++ Word.hex f ++ "\x7d"
  | .exit f => "FunctionExit\x7bptr=" ++ Word.hex f ++ "\x7d"

def width : Nat := 56

inductive DecodeError
  | length (bytes : Nat)
  | unknownTag (tag : Int) (position : Nat)
deriving DecidableEq, Repr

def DecodeError.message : DecodeError → String
  | .length bytes =>
    s!"Malformed record stream: {bytes} bytes is not a multiple of the {width}-byte record width"
  | .unknownTag tag position => s!"Unknown record tag {tag} at record {position}"

/-- Tag first, then time, program counter, base and stack pointer, address and write flag. -/
def words : Record → List UInt64
  | .access a => [0, a.time, a.pc, a.bp, a.sp, a.addr, if a.isWrite then 1 else 0]
  | .enter f => [1, f, 0, 0, 0, 0, 0]
  | .exit f => [2, f, 0, 0, 0, 0, 0]

/-- Reads one record, or gives the tag that names no kind of record. -/
def ofWords (tag time pc bp sp addr write : UInt64) : Except Int Record :=
  if tag = 0 then
    .ok (.access { time, pc, bp, sp, addr, isWrite := write ≠ 0 })
  else if tag = 1 then .ok (.enter time)
  else if tag = 2 then .ok (.exit time)
  else .error (Word.signed tag)

def encodeOne (r : Record) : Bytes :=
  r.words.flatMap Word.encode

def encode (rs : List Record) : Bytes :=
  rs.flatMap encodeOne

def wordAt (bs : Bytes) (index : Nat) : UInt64 :=
  Word.decode ((bs.drop (8 * index)).take 8)

def decodeOne (bs : Bytes) : Except Int Record :=
  ofWords (wordAt bs 0) (wordAt bs 1) (wordAt bs 2) (wordAt bs 3) (wordAt bs 4) (wordAt bs 5)
    (wordAt bs 6)

def decodeFrom (done : List Record) (bs : Bytes) : Except DecodeError (List Record) :=
  if bs.isEmpty then .ok done.reverse
  else
    match decodeOne (bs.take width) with
    | .error tag => .error (.unknownTag tag done.length)
    | .ok r => decodeFrom (r :: done) (bs.drop width)
termination_by bs.length
decreasing_by
  cases bs with
  | nil => simp_all
  | cons b rest => simp only [width, List.length_drop, List.length_cons]; omega

/-- Reads a buffer of records; its length is checked before any tag. -/
def decode (bs : Bytes) : Except DecodeError (List Record) :=
  if bs.length % width ≠ 0 then .error (.length bs.length) else decodeFrom [] bs

end Record

end AccessTrace
