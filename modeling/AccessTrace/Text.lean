import AccessTrace.Word

/-!
White space in the sense of Unicode, the cutting of text into pieces, and UTF-8. `decode` refuses
ill-formed text and says where it goes wrong; `mend` puts a mark for each longest beginning of a
sequence that no character continues, and `repair` the replacement character.
-/

namespace AccessTrace.Text

/-- The property `White_Space` of the Unicode character database. -/
def isBlank (c : Char) : Bool :=
  let n := c.toNat
  (0x09 ≤ n && n ≤ 0x0d) || n == 0x20 || n == 0x85 || n == 0xa0 || n == 0x1680 ||
    (0x2000 ≤ n && n ≤ 0x200a) || n == 0x2028 || n == 0x2029 || n == 0x202f || n == 0x205f ||
    n == 0x3000

def trimStart (text : List Char) : List Char :=
  text.dropWhile isBlank

def trimEnd (text : List Char) : List Char :=
  (text.reverse.dropWhile isBlank).reverse

def trim (text : List Char) : List Char :=
  trimEnd (trimStart text)

def run (text : List Char) : List Char :=
  text.takeWhile fun c => !isBlank c

def afterRun (text : List Char) : List Char :=
  trimStart (text.dropWhile fun c => !isBlank c)

/-- The pieces of a text between occurrences of `c`, one more than there are of these. -/
def splitOn (c : Char) (text : List Char) : List (List Char) :=
  let (piece, pieces) := text.foldr
    (fun d (piece, pieces) => if d = c then ([], piece :: pieces) else (d :: piece, pieces))
    ([], [])
  piece :: pieces

def cutBefore (c : Char) (text : List Char) : List (List Char) :=
  let (piece, pieces) := text.foldr
    (fun d (piece, pieces) => if d = c then ([], (d :: piece) :: pieces) else (d :: piece, pieces))
    ([], [])
  piece :: pieces

@[simp] theorem flatten_cutBefore (c : Char) (text : List Char) :
    (cutBefore c text).flatten = text := by
  unfold cutBefore
  induction text with
  | nil => rfl
  | cons d text ih =>
    simp only [List.foldr_cons]
    split
    · simpa using congrArg (d :: ·) ih
    · simpa using congrArg (d :: ·) ih

end AccessTrace.Text

namespace AccessTrace.Text.Utf8

inductive Error
  | invalid (size index : Nat)
  | incomplete (index : Nat)
deriving DecidableEq, Repr

def Error.message : Error → String
  | .invalid size index => s!"invalid utf-8 sequence of {size} bytes from index {index}"
  | .incomplete index => s!"incomplete utf-8 byte sequence from index {index}"

/-- What a text begins with: a character, `size` bytes that no further byte can turn into one, or a
sequence cut off by the end of the text. -/
inductive Head
  | char (c : Char) (size : Nat)
  | invalid (size : Nat)
  | incomplete
deriving DecidableEq, Repr

/-- Reads `more` further bytes of the form `10xxxxxx` of a sequence of which `size` bytes are
read. -/
def readTail (value size : Nat) : Nat → Bytes → Head
  | 0, _ => .char (Char.ofNat value) size
  | _ + 1, [] => .incomplete
  | more + 1, b :: rest =>
    if 0x80 ≤ b ∧ b ≤ 0xbf then readTail (64 * value + (b.toNat - 0x80)) (size + 1) more rest
    else .invalid size

def readSecond (value : Nat) (low high : UInt8) (more : Nat) : Bytes → Head
  | [] => .incomplete
  | b :: rest =>
    if low ≤ b ∧ b ≤ high then readTail (64 * value + (b.toNat - 0x80)) 2 more rest
    else .invalid 1

/-- The bounds on the second byte leave out longer forms of short sequences, the surrogates and what
lies past the last character. -/
def readHead (lead : UInt8) (rest : Bytes) : Head :=
  if lead < 0x80 then .char (Char.ofNat lead.toNat) 1
  else if lead < 0xc2 then .invalid 1
  else if lead < 0xe0 then readSecond (lead.toNat - 0xc0) 0x80 0xbf 0 rest
  else if lead = 0xe0 then readSecond 0 0xa0 0xbf 1 rest
  else if lead = 0xed then readSecond 0xd 0x80 0x9f 1 rest
  else if lead < 0xf0 then readSecond (lead.toNat - 0xe0) 0x80 0xbf 1 rest
  else if lead = 0xf0 then readSecond 0 0x90 0xbf 2 rest
  else if lead < 0xf4 then readSecond (lead.toNat - 0xf0) 0x80 0xbf 2 rest
  else if lead = 0xf4 then readSecond 4 0x80 0x8f 2 rest
  else .invalid 1

def decodeFrom (done : List Char) (index : Nat) : Bytes → Except Error (List Char)
  | [] => .ok done.reverse
  | lead :: rest =>
    match readHead lead rest with
    | .char c size => decodeFrom (c :: done) (index + size) (rest.drop (size - 1))
    | .invalid size => .error (.invalid size index)
    | .incomplete => .error (.incomplete index)
termination_by bs => bs.length
decreasing_by simp only [List.length_drop, List.length_cons]; omega

def decode (bs : Bytes) : Except Error (List Char) :=
  decodeFrom [] 0 bs

/-- The characters of a text, behind those in `done`, last character first; `mark` stands in the
place of what is broken. -/
def mendFrom (mark done : List Char) : Bytes → List Char
  | [] => done.reverse
  | lead :: rest =>
    match readHead lead rest with
    | .char c size => mendFrom mark (c :: done) (rest.drop (size - 1))
    | .invalid size => mendFrom mark (mark.reverse ++ done) (rest.drop (size - 1))
    | .incomplete => (mark.reverse ++ done).reverse
termination_by bs => bs.length
decreasing_by all_goals simp only [List.length_drop, List.length_cons]; omega

def mend (mark : List Char) (bs : Bytes) : List Char :=
  mendFrom mark [] bs

def replacement : Char := '\ufffd'

def repair (bs : Bytes) : List Char :=
  mend [replacement] bs

def encode (text : List Char) : Bytes :=
  text.flatMap String.utf8EncodeChar

end AccessTrace.Text.Utf8
