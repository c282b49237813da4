import Mathlib.Data.List.Basic
import AccessTrace.Json.Token
import AccessTrace.Proofs.Json.Text

/-!
How text falls into tokens: blanks are passed over, and what one reading takes off the front is the
first token of the whole.
-/

namespace AccessTrace.Json.Token

/-- No number goes on with what begins here. -/
def Delimited (rest : List Char) : Prop :=
  ∀ c ∈ rest.head?, isDigit c = false ∧ c ≠ '.' ∧ c ≠ 'e' ∧ c ≠ 'E'

/-- A number that is read as it stands, up to where nothing goes on with it. -/
def Literal (literal : List Char) : Prop :=
  ∀ rest, Delimited rest → readNumber (literal ++ rest) = some (literal, rest)

structure Numeral (digits : List Char) : Prop where
  all_isDigit : ∀ c ∈ digits, isDigit c = true
  not_filled : digits = ['0'] ∨ (digits ≠ [] ∧ digits.head? ≠ some '0')

theorem delimited_nil : Delimited [] := by
  simp [Delimited]

theorem delimited_cons {c : Char} (h : isDigit c = false ∧ c ≠ '.' ∧ c ≠ 'e' ∧ c ≠ 'E')
    (rest : List Char) : Delimited (c :: rest) := by
  simpa [Delimited] using h

section Number

variable {digits literal text rest : List Char} {c : Char}

theorem takeWhile_isDigit (h : Delimited rest) : rest.takeWhile isDigit = [] := by
  cases rest with
  | nil => rfl
  | cons c rest => simp [(h c rfl).1]

theorem dropWhile_isDigit (h : Delimited rest) : rest.dropWhile isDigit = rest := by
  cases rest with
  | nil => rfl
  | cons c rest => simp [(h c rfl).1]

theorem readFraction_of_delimited (h : Delimited rest) : readFraction rest = some ([], rest) := by
  unfold readFraction
  split
  · exact absurd rfl (h _ rfl).2.1
  · rfl

theorem readExponent_of_delimited (h : Delimited rest) : readExponent rest = some ([], rest) := by
  cases rest with
  | nil => rfl
  | cons c rest =>
    obtain ⟨-, -, hlower, hupper⟩ := h c rfl
    rw [readExponent, if_neg (not_or.2 ⟨hlower, hupper⟩)]

theorem readMinus_of_isDigit (h : ∀ c ∈ digits, isDigit c = true) (hne : digits ≠ []) :
    readMinus (digits ++ rest) = ([], digits ++ rest) := by
  cases digits with
  | nil => exact absurd rfl hne
  | cons c digits =>
    rw [List.cons_append, readMinus]
    rintro _ ⟨rfl, -⟩
    exact absurd (h _ List.mem_cons_self) (by decide)

theorem Numeral.ne_nil (h : Numeral digits) : digits ≠ [] := by
  rintro rfl
  simpa using h.not_filled

theorem Numeral.isLiteral (h : Numeral digits) : Literal digits := by
  intro rest hrest
  have htake : (digits ++ rest).takeWhile isDigit = digits := by
    rw [List.takeWhile_append_of_pos h.all_isDigit, takeWhile_isDigit hrest, List.append_nil]
  have hdrop : (digits ++ rest).dropWhile isDigit = rest := by
    rw [List.dropWhile_append_of_pos h.all_isDigit, dropWhile_isDigit hrest]
  have hwhole : readWhole (digits ++ rest) = some (digits, rest) := by
    simp only [readWhole, htake, hdrop]
    rw [if_pos h.not_filled]
  simp only [readNumber, readMinus_of_isDigit h.all_isDigit h.ne_nil, hwhole,
    readFraction_of_delimited hrest, readExponent_of_delimited hrest, Option.bind_eq_bind,
    Option.bind_some, Option.pure_def, List.nil_append, List.append_nil]

theorem numeral_toDigits (n : Nat) : Numeral (Nat.toDigits 10 n) where
  all_isDigit c hc := by
    have hdigit := Nat.isDigit_of_mem_toDigits (by decide) (Nat.le_refl 10) hc
    simpa [isDigit, Char.isDigit, Char.le_def] using hdigit
  not_filled := by
    -- The first digit is the number itself, or the first one of its tenth part.
    have hpos : 0 < n → (Nat.toDigits 10 n).head? ≠ some '0' := by
      induction n using Nat.strongRecOn with
      | ind n ih =>
        intro hn
        rw [Nat.toDigits_eq_if (by decide)]
        split
        · simp only [List.head?_cons, ne_eq, Option.some.injEq, Nat.digitChar_eq_zero]
          omega
        · rw [List.head?_append_of_ne_nil _ Nat.toDigits_ne_nil]
          exact ih (n / 10) (by omega) (by omega)
    by_cases hn : n = 0
    · exact .inl (by rw [hn, Nat.toDigits_zero])
    · exact .inr ⟨Nat.toDigits_ne_nil, hpos (Nat.pos_of_ne_zero hn)⟩

theorem read_of_readNumber (h : readNumber text = some (literal, rest)) :
    read text = some (number literal, rest) := by
  unfold read
  split
  case h_11 => rw [h, Option.map_some]
  all_goals
    simp [readNumber, readMinus, readWhole, isDigit] at h

theorem read_of_literal (h : Literal literal) (hrest : Delimited rest) :
    read (literal ++ rest) = some (number literal, rest) :=
  read_of_readNumber (h rest hrest)

theorem read_of_closed {body : List Char} (h : Text.Closed body) (rest : List Char) :
    read ('"' :: (body ++ '"' :: rest)) = some (string body, rest) := by
  rw [read, h rest, Option.map_some]

theorem read_of_isBlank (h : isBlank c = true) : read (c :: rest) = none := by
  have hblank : c = ' ' ∨ c = '\t' ∨ c = '\n' ∨ c = '\r' := by
    simpa [isBlank, or_assoc] using h
  rcases hblank with rfl | rfl | rfl | rfl <;> rfl

end Number

section All

variable {text rest blanks : List Char} {t : Token}

theorem readAll_of_read (done : List Token) (h : read text = some (t, rest)) :
    readAll done text = readAll (t :: done) rest := by
  cases text with
  | nil => contradiction
  | cons c text =>
    have hblank : ¬isBlank c = true := by
      intro hblank
      rw [read_of_isBlank hblank] at h
      contradiction
    rw [readAll, if_neg hblank]
    split
    · rename_i hnone
      rw [h] at hnone
      contradiction
    · rename_i hsome
      obtain ⟨rfl, rfl⟩ := Prod.mk.inj (Option.some.inj (h.symm.trans hsome))
      rfl

/-- Tokens that were read before stand in front of those still to be read. -/
theorem readAll_append (done before : List Token) (text : List Char) :
    readAll (done ++ before) text = (readAll done text).map (before.reverse ++ ·) := by
  fun_induction readAll done text with
  | case1 done => rw [readAll, List.reverse_append, Option.map_some]
  | case2 done c rest hblank ih => rw [readAll, if_pos hblank, ih]
  | case3 done c rest hblank hread =>
    rw [readAll, if_neg hblank]
    split
    · rfl
    · rename_i hsome
      rw [hread] at hsome
      contradiction
  | case4 done c rest hblank t rest' hread _ ih =>
    rw [readAll_of_read _ hread, ← List.cons_append, ih]

theorem ofText?_of_read (h : read text = some (t, rest)) :
    ofText? text = (ofText? rest).map (t :: ·) := by
  rw [ofText?, readAll_of_read [] h]
  exact readAll_append [] [t] rest

theorem ofText?_blanks (h : ∀ c ∈ blanks, isBlank c = true) :
    ofText? (blanks ++ text) = ofText? text := by
  induction blanks with
  | nil => rfl
  | cons c blanks ih =>
    rw [List.forall_mem_cons] at h
    rw [List.cons_append, ofText?, readAll, if_pos h.1]
    exact ih h.2

end All

end AccessTrace.Json.Token
