import AccessTrace.Word

/-!
The bodies of JSON strings. A body is what stands between the quotes: `escape` writes one,
`unescape` reads one, and `readBody` finds its end. A body may name half of a surrogate pair; it has
an end then but spells no text.
-/

namespace AccessTrace.Json.Text

def hexPair (c : Char) : List Char :=
  [Word.hexDigit (c.toNat / 16), Word.hexDigit (c.toNat % 16)]

def escapeChar (c : Char) : List Char :=
  if c = '"' then ['\\', '"']
  else if c = '\\' then ['\\', '\\']
  else if c = '\x08' then ['\\', 'b']
  else if c = '\x0c' then ['\\', 'f']
  else if c = '\n' then ['\\', 'n']
  else if c = '\r' then ['\\', 'r']
  else if c = '\t' then ['\\', 't']
  else if c.toNat < 0x20 then ['\\', 'u', '0', '0'] ++ hexPair c
  else [c]

def escape (text : List Char) : List Char :=
  text.flatMap escapeChar

def simpleEscape? (c : Char) : Option Char :=
  match c with
  | '"' => some '"'
  | '\\' => some '\\'
  | '/' => some '/'
  | 'b' => some '\x08'
  | 'f' => some '\x0c'
  | 'n' => some '\n'
  | 'r' => some '\r'
  | 't' => some '\t'
  | _ => none

def unit? (a b c d : Char) : Option Nat := do
  let a ← Word.hexDigit? a
  let b ← Word.hexDigit? b
  let c ← Word.hexDigit? c
  let d ← Word.hexDigit? d
  return 4096 * a + 256 * b + 16 * c + d

/-- The body that begins a text, and the text behind the closing quote; `done` holds the part
before, last character first. -/
def readBody (done : List Char) : List Char → Option (List Char × List Char)
  | [] => none
  | '"' :: rest => some (done.reverse, rest)
  | '\\' :: 'u' :: a :: b :: c :: d :: rest =>
    if (unit? a b c d).isSome then readBody (d :: c :: b :: a :: 'u' :: '\\' :: done) rest else none
  | '\\' :: c :: rest =>
    if (simpleEscape? c).isSome then readBody (c :: '\\' :: done) rest else none
  | c :: rest => if c.toNat < 0x20 || c = '\\' then none else readBody (c :: done) rest

def isHighSurrogate (n : Nat) : Bool :=
  0xd800 ≤ n && n ≤ 0xdbff

def isLowSurrogate (n : Nat) : Bool :=
  0xdc00 ≤ n && n ≤ 0xdfff

def unescapeFrom (done : List Char) : List Char → Option (List Char)
  | [] => some done.reverse
  | '\\' :: 'u' :: a :: b :: c :: d :: '\\' :: 'u' :: a' :: b' :: c' :: d' :: rest => do
    let high ← unit? a b c d
    if isHighSurrogate high then
      let low ← unit? a' b' c' d'
      if !isLowSurrogate low then none
      else
        let n := 0x10000 + 0x400 * (high - 0xd800) + (low - 0xdc00)
        unescapeFrom (Char.ofNat n :: done) rest
    else if isLowSurrogate high then none
    else unescapeFrom (Char.ofNat high :: done) ('\\' :: 'u' :: a' :: b' :: c' :: d' :: rest)
  | '\\' :: 'u' :: a :: b :: c :: d :: rest => do
    let n ← unit? a b c d
    if isHighSurrogate n || isLowSurrogate n then none
    else unescapeFrom (Char.ofNat n :: done) rest
  | '\\' :: c :: rest => do
    let d ← simpleEscape? c
    unescapeFrom (d :: done) rest
  | c :: rest => if c = '\\' then none else unescapeFrom (c :: done) rest

def unescape (body : List Char) : Option (List Char) :=
  unescapeFrom [] body

/-- What stands for bytes that are no text. No token and no escape goes on with its first character,
so that it has to be part of a body; and a body with half of a surrogate pair spells no text. -/
def unreadable : List Char :=
  ['\ufffd', '\\', 'u', 'd', 'c', '0', '0']

theorem length_lt_of_readBody {done text body rest : List Char}
    (h : readBody done text = some (body, rest)) : rest.length < text.length := by
  fun_induction readBody done text with
  | case1 => simp at h
  | case2 => simp_all
  | case3 _ a b c d tail _ ih => have := ih h; simp only [List.length_cons]; omega
  | case4 => simp at h
  | case5 _ c tail _ _ ih => have := ih h; simp only [List.length_cons]; omega
  | case6 => simp at h
  | case7 => simp at h
  | case8 _ c tail _ _ _ _ ih => have := ih h; simp only [List.length_cons]; omega

end AccessTrace.Json.Text
