import AccessTrace.Word

/-!
The LZ4 block format. A block is a run of sequences: a token, literal bytes, and a match that
repeats earlier output; the last sequence ends after its literals. `decode` reads a block into as
much space as it needs, `decodeWithin` into a buffer of a given size.
-/

namespace AccessTrace.Lz4

inductive Error
  | unexpectedEnd
  | literalsPastEnd
  | zeroOffset
  | offsetPastStart
  | outputFull
deriving DecidableEq, Repr

def Error.message : Error → String
  | .unexpectedEnd => "expected another byte, found none"
  | .literalsPastEnd => "literal is out of bounds of the input"
  | .zeroOffset => "0 is not a valid match offset"
  | .offsetPastStart => "the offset to copy is not contained in the decompressed buffer"
  | .outputFull => "provided output is too small for the decompressed data"

/-- Adds up bytes until one of them is below 255. -/
def readExtension (total : Nat) : Bytes → Except Error (Nat × Bytes)
  | [] => .error .unexpectedEnd
  | b :: rest => if b = 255 then readExtension (total + 255) rest else .ok (total + b.toNat, rest)

/-- A length whose four-bit part is `nibble`; fifteen means that more bytes follow. -/
def readLength (nibble : Nat) (input : Bytes) : Except Error (Nat × Bytes) :=
  if nibble = 15 then readExtension 15 input else .ok (nibble, input)

/-- Appends `length` bytes, each the one `offset` places before the end at that moment, so that a
match may overlap what it writes. -/
def copyBack (offset : Nat) : Nat → Array UInt8 → Array UInt8
  | 0, out => out
  | length + 1, out => copyBack offset length (out.push (out.getD (out.size - offset) 0))

@[simp] theorem size_copyBack (offset length : Nat) (out : Array UInt8) :
    (copyBack offset length out).size = out.size + length := by
  induction length generalizing out with
  | zero => rfl
  | succ length ih => rw [copyBack, ih, Array.size_push]; omega

inductive Step
  | finished (out : Array UInt8)
  | more (out : Array UInt8) (rest : Bytes)

def readMatch (fits : Nat → Bool) (nibble : Nat) (out : Array UInt8) : Bytes → Except Error Step
  | [] => .ok (.finished out)
  | [_] => .error .unexpectedEnd
  | low :: high :: input => do
    let offset := low.toNat + 256 * high.toNat
    if offset = 0 then throw .zeroOffset
    let (extra, rest) ← readLength nibble input
    let length := extra + 4
    if !fits (out.size + length) then throw .outputFull
    if out.size < offset then throw .offsetPastStart
    return .more (copyBack offset length out) rest

/-- Reads one sequence. `fits` says which output sizes there is room for. -/
def readSequence (fits : Nat → Bool) (out : Array UInt8) : Bytes → Except Error Step
  | [] => .error .unexpectedEnd
  | token :: input => do
    let (count, input) ← readLength (token.toNat / 16) input
    match splitExactly? count input with
    | none => throw .literalsPastEnd
    | some (literals, rest) =>
      if !fits (out.size + count) then throw .outputFull
      readMatch fits (token.toNat % 16) (out ++ literals) rest

theorem length_le_of_readExtension {total n : Nat} {input rest : Bytes}
    (h : readExtension total input = .ok (n, rest)) : rest.length < input.length := by
  induction input generalizing total with
  | nil => simp [readExtension] at h
  | cons b tail ih =>
    rw [readExtension] at h
    split at h
    · exact Nat.lt_succ_of_lt (ih h)
    · simp only [Except.ok.injEq, Prod.mk.injEq] at h
      simp [← h.2]

theorem length_le_of_readLength {nibble n : Nat} {input rest : Bytes}
    (h : readLength nibble input = .ok (n, rest)) : rest.length ≤ input.length := by
  rw [readLength] at h
  split at h
  · exact Nat.le_of_lt (length_le_of_readExtension h)
  · simp only [Except.ok.injEq, Prod.mk.injEq] at h
    simp [← h.2]

theorem length_lt_of_readMatch {fits : Nat → Bool} {nibble : Nat} {out out' : Array UInt8}
    {input rest : Bytes} (h : readMatch fits nibble out input = .ok (.more out' rest)) :
    rest.length < input.length := by
  match input, h with
  | low :: high :: tail, h =>
    simp only [readMatch, bind, Except.bind, throw, throwThe, MonadExceptOf.throw, pure,
      Except.pure] at h
    split at h
    · simp at h
    · split at h
      · simp at h
      · rename_i hlen
        have := length_le_of_readLength hlen
        repeat' split at h
        all_goals simp_all
        omega

theorem length_lt_of_readSequence {fits : Nat → Bool} {out out' : Array UInt8}
    {input rest : Bytes} (h : readSequence fits out input = .ok (.more out' rest)) :
    rest.length < input.length := by
  match input, h with
  | token :: tail, h =>
    simp only [readSequence, bind, Except.bind, throw, throwThe, MonadExceptOf.throw] at h
    split at h
    · simp at h
    · rename_i hlen
      have := length_le_of_readLength hlen
      rw [splitExactly?_eq] at h
      split at h
      · simp at h
      · rename_i hsplit
        split at hsplit <;> simp only [Option.some.injEq, Prod.mk.injEq, reduceCtorEq] at hsplit
        split at h
        · simp at h
        · have := length_lt_of_readMatch h
          simp only [← hsplit.2, List.length_drop, List.length_cons] at *
          omega

def decodeFrom (fits : Nat → Bool) (out : Array UInt8) (input : Bytes) :
    Except Error (Array UInt8) :=
  match h : readSequence fits out input with
  | .error e => .error e
  | .ok (.finished out) => .ok out
  | .ok (.more out rest) =>
    have := length_lt_of_readSequence h
    decodeFrom fits out rest
termination_by input.length

def decode (input : Bytes) : Except Error (Array UInt8) :=
  decodeFrom (fun _ => true) #[] input

def decodeWithin (capacity : Nat) (input : Bytes) : Except Error (Array UInt8) :=
  decodeFrom (fun size => size ≤ capacity) #[] input

def extension (n : Nat) : Bytes :=
  List.replicate (n / 255) 255 ++ [UInt8.ofNat (n % 255)]

/-- A block that holds its content as one run of literals. -/
def encode (bs : Bytes) : Bytes :=
  if bs.length < 15 then UInt8.ofNat (16 * bs.length) :: bs
  else 0xf0 :: (extension (bs.length - 15) ++ bs)

end AccessTrace.Lz4
