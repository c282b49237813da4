import AccessTrace.Json.Text

/-!
The tokens of JSON text. Strings and numbers are kept as they are written; what they mean is settled
by whoever wants one.
-/

namespace AccessTrace.Json

inductive Token
  | openBrace
  | closeBrace
  | openBracket
  | closeBracket
  | comma
  | colon
  | null
  | bool (b : Bool)
  | number (literal : List Char)
  | string (body : List Char)
deriving DecidableEq, Repr

namespace Token

def isBlank (c : Char) : Bool :=
  c == ' ' || c == '\t' || c == '\n' || c == '\r'

def isDigit (c : Char) : Bool :=
  '0' ≤ c && c ≤ '9'

def readMinus : List Char → List Char × List Char
  | '-' :: rest => (['-'], rest)
  | text => ([], text)

def readSign : List Char → List Char × List Char
  | '+' :: rest => (['+'], rest)
  | text => readMinus text

def readWhole (text : List Char) : Option (List Char × List Char) :=
  let digits := text.takeWhile isDigit
  if digits = ['0'] ∨ (digits ≠ [] ∧ digits.head? ≠ some '0') then
    some (digits, text.dropWhile isDigit)
  else none

def readFraction : List Char → Option (List Char × List Char)
  | '.' :: text =>
    let digits := text.takeWhile isDigit
    if digits = [] then none else some ('.' :: digits, text.dropWhile isDigit)
  | text => some ([], text)

def readExponent : List Char → Option (List Char × List Char)
  | c :: text =>
    if c = 'e' ∨ c = 'E' then
      let (sign, text) := readSign text
      let digits := text.takeWhile isDigit
      if digits = [] then none else some (c :: (sign ++ digits), text.dropWhile isDigit)
    else some ([], c :: text)
  | [] => some ([], [])

def readNumber (text : List Char) : Option (List Char × List Char) := do
  let (minus, text) := readMinus text
  let (whole, text) ← readWhole text
  let (fraction, text) ← readFraction text
  let (exponent, text) ← readExponent text
  return (minus ++ whole ++ fraction ++ exponent, text)

/-- The token that begins a text without blanks in front, and the text behind it. -/
def read : List Char → Option (Token × List Char)
  | '\x7b' :: rest => some (openBrace, rest)
  | '\x7d' :: rest => some (closeBrace, rest)
  | '[' :: rest => some (openBracket, rest)
  | ']' :: rest => some (closeBracket, rest)
  | ',' :: rest => some (comma, rest)
  | ':' :: rest => some (colon, rest)
  | 'n' :: 'u' :: 'l' :: 'l' :: rest => some (null, rest)
  | 't' :: 'r' :: 'u' :: 'e' :: rest => some (bool true, rest)
  | 'f' :: 'a' :: 'l' :: 's' :: 'e' :: rest => some (bool false, rest)
  | '"' :: rest => (Text.readBody [] rest).map fun (body, rest) => (string body, rest)
  | text => (readNumber text).map fun (literal, rest) => (number literal, rest)

theorem readMinus_append {text : List Char} :
    (readMinus text).1 ++ (readMinus text).2 = text := by
  unfold readMinus
  split <;> simp

theorem readSign_append {text : List Char} : (readSign text).1 ++ (readSign text).2 = text := by
  unfold readSign
  split
  · simp
  · exact readMinus_append

theorem readWhole_append {text digits rest : List Char}
    (h : readWhole text = some (digits, rest)) : digits ++ rest = text ∧ digits ≠ [] := by
  unfold readWhole at h
  dsimp only at h
  split at h
  · rename_i hdigits
    simp only [Option.some.injEq, Prod.mk.injEq] at h
    rw [← h.1, ← h.2]
    refine ⟨List.takeWhile_append_dropWhile, ?_⟩
    rcases hdigits with hdigits | hdigits
    · simp [hdigits]
    · exact hdigits.1
  · simp at h

theorem readFraction_append {text part rest : List Char}
    (h : readFraction text = some (part, rest)) : part ++ rest = text := by
  unfold readFraction at h
  split at h
  · dsimp only at h
    split at h
    · simp at h
    · simp only [Option.some.injEq, Prod.mk.injEq] at h
      simp [← h.1, ← h.2]
  · simp only [Option.some.injEq, Prod.mk.injEq] at h
    simp [← h.1, ← h.2]

theorem readExponent_append {text part rest : List Char}
    (h : readExponent text = some (part, rest)) : part ++ rest = text := by
  unfold readExponent at h
  split at h
  · split at h
    · dsimp only at h
      split at h
      · simp at h
      · simp only [Option.some.injEq, Prod.mk.injEq] at h
        simp [← h.1, ← h.2, readSign_append]
    · simp only [Option.some.injEq, Prod.mk.injEq] at h
      simp [← h.1, ← h.2]
  · simp only [Option.some.injEq, Prod.mk.injEq] at h
    simp [← h.1, ← h.2]

theorem readNumber_append {text literal rest : List Char}
    (h : readNumber text = some (literal, rest)) : literal ++ rest = text ∧ literal ≠ [] := by
  simp only [readNumber, Option.bind_eq_bind, Option.bind_eq_some_iff, Prod.exists] at h
  obtain ⟨whole, t₁, hwhole, fraction, t₂, hfraction, exponent, t₃, hexponent, h⟩ := h
  simp only [Option.pure_def, Option.some.injEq, Prod.mk.injEq] at h
  obtain ⟨hw, hne⟩ := readWhole_append hwhole
  have hf := readFraction_append hfraction
  have he := readExponent_append hexponent
  rw [← h.1, ← h.2]
  refine ⟨?_, by simp [hne]⟩
  rw [List.append_assoc, he, List.append_assoc, hf, List.append_assoc, hw, readMinus_append]

theorem length_lt_of_read {text rest : List Char} {t : Token} (h : read text = some (t, rest)) :
    rest.length < text.length := by
  unfold read at h
  split at h
  case h_10 =>
    simp only [Option.map_eq_some_iff, Prod.exists, Prod.mk.injEq] at h
    obtain ⟨body, tail, hbody, _, rfl⟩ := h
    have := Text.length_lt_of_readBody hbody
    simp only [List.length_cons]
    omega
  case h_11 =>
    simp only [Option.map_eq_some_iff, Prod.exists, Prod.mk.injEq] at h
    obtain ⟨literal, tail, hnumber, _, rfl⟩ := h
    obtain ⟨rfl, hne⟩ := readNumber_append hnumber
    have := List.length_pos_iff.2 hne
    simp only [List.length_append]
    omega
  all_goals
    simp only [Option.some.injEq, Prod.mk.injEq] at h
    simp only [← h.2, List.length_cons]
    omega

def readAll (done : List Token) (text : List Char) : Option (List Token) :=
  match text with
  | [] => some done.reverse
  | c :: rest =>
    if isBlank c then readAll done rest
    else
      match h : read (c :: rest) with
      | none => none
      | some (t, rest') =>
        have := length_lt_of_read h
        readAll (t :: done) rest'
termination_by text.length
decreasing_by all_goals simp only [List.length_cons] at *; omega

def ofText? (text : List Char) : Option (List Token) :=
  readAll [] text

end Token

end AccessTrace.Json
