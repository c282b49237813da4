import Mathlib.Tactic.SplitIfs
import AccessTrace.Json.Text
import AccessTrace.Proofs.Word

/-!
Escaped text has its end where it was put, and spells the text it was made of.
-/

namespace AccessTrace.Json.Text

/-- The ways in which a character stands in escaped text. -/
inductive Spells (c : Char) : List Char → Prop
  | plain (hquote : c ≠ '"') (hbackslash : c ≠ '\\') (hcontrol : 0x20 ≤ c.toNat) : Spells c [c]
  | letter {l : Char} (h : simpleEscape? l = some c) : Spells c ['\\', l]
  | unit {x y z w : Char} (h : unit? x y z w = some c.toNat) (hcontrol : c.toNat < 0x20) :
    Spells c ['\\', 'u', x, y, z, w]

section Character

variable {c : Char} {piece : List Char}

theorem unit?_hexPair (h : c.toNat < 0x20) :
    unit? '0' '0' (Word.hexDigit (c.toNat / 16)) (Word.hexDigit (c.toNat % 16)) = some c.toNat := by
  have hzero : Word.hexDigit? '0' = some 0 := rfl
  have hvalue : 4096 * 0 + 256 * 0 + 16 * (c.toNat / 16) + c.toNat % 16 = c.toNat := by omega
  rw [unit?, hzero, Word.hexDigit?_hexDigit _ (by omega), Word.hexDigit?_hexDigit _ (by omega)]
  exact congrArg some hvalue

theorem spells_escapeChar (c : Char) : Spells c (escapeChar c) := by
  unfold escapeChar
  split_ifs with hquote hbackslash hbackspace hfeed hnewline hreturn htab hcontrol
  any_goals
    subst c
    exact .letter rfl
  · exact .unit (unit?_hexPair hcontrol) hcontrol
  · exact .plain hquote hbackslash (Nat.le_of_not_lt hcontrol)

theorem readBody_append (h : Spells c piece) (done rest : List Char) :
    readBody done (piece ++ rest) = readBody (piece.reverse ++ done) rest := by
  cases h with
  | plain hquote hbackslash hcontrol =>
    have hstays : ¬(c.toNat < 0x20 || c = '\\') := by simp [hcontrol, hbackslash]
    rw [List.singleton_append, readBody, if_neg hstays]
    · rfl
    all_goals simp [hquote, hbackslash]
  | letter h =>
    rename_i l
    have hunit : l ≠ 'u' := by
      rintro rfl
      contradiction
    rw [List.cons_append, List.singleton_append, readBody, h]
    · rfl
    · simp [hunit]
  | unit h hcontrol =>
    simp only [List.cons_append, List.nil_append]
    rw [readBody, h]
    rfl

theorem unescapeFrom_unit {x y z w : Char} {n : Nat} (h : unit? x y z w = some n)
    (hhigh : isHighSurrogate n = false) (hlow : isLowSurrogate n = false) (done rest : List Char) :
    unescapeFrom done ('\\' :: 'u' :: x :: y :: z :: w :: rest) =
      unescapeFrom (Char.ofNat n :: done) rest := by
  by_cases hpair : ∃ x' y' z' w' rest', rest = '\\' :: 'u' :: x' :: y' :: z' :: w' :: rest'
  · obtain ⟨x', y', z', w', rest', rfl⟩ := hpair
    rw [unescapeFrom, h]
    simp [hhigh, hlow]
  · rw [unescapeFrom, h]
    · simp [hhigh, hlow]
    · intro x' y' z' w' rest' hrest
      exact hpair ⟨x', y', z', w', rest', hrest⟩

theorem unescapeFrom_append (h : Spells c piece) (done rest : List Char) :
    unescapeFrom done (piece ++ rest) = unescapeFrom (c :: done) rest := by
  cases h with
  | plain hquote hbackslash hcontrol =>
    rw [List.singleton_append, unescapeFrom, if_neg hbackslash]
    all_goals simp [hbackslash]
  | letter h =>
    rename_i l
    have hunit : l ≠ 'u' := by
      rintro rfl
      contradiction
    rw [List.cons_append, List.singleton_append, unescapeFrom, h]
    · rfl
    all_goals simp [hunit]
  | unit h hcontrol =>
    have hhigh : isHighSurrogate c.toNat = false := by
      unfold isHighSurrogate
      simp only [Bool.and_eq_false_iff, decide_eq_false_iff_not]
      omega
    have hlow : isLowSurrogate c.toNat = false := by
      unfold isLowSurrogate
      simp only [Bool.and_eq_false_iff, decide_eq_false_iff_not]
      omega
    simp only [List.cons_append, List.nil_append]
    rw [unescapeFrom_unit h hhigh hlow, Char.ofNat_toNat]

end Character

theorem escape_cons (c : Char) (text : List Char) :
    escape (c :: text) = escapeChar c ++ escape text :=
  List.flatMap_cons

theorem readBody_escape (text done rest : List Char) :
    readBody done (escape text ++ '"' :: rest) = some (done.reverse ++ escape text, rest) := by
  induction text generalizing done with
  | nil =>
    rw [escape, List.flatMap_nil, List.nil_append, readBody, List.append_nil]
  | cons c text ih =>
    rw [escape_cons, List.append_assoc, readBody_append (spells_escapeChar c), ih,
      List.reverse_append, List.reverse_reverse, List.append_assoc]

theorem unescapeFrom_escape (text done : List Char) :
    unescapeFrom done (escape text) = some (done.reverse ++ text) := by
  induction text generalizing done with
  | nil => rw [escape, List.flatMap_nil, unescapeFrom, List.append_nil]
  | cons c text ih =>
    rw [escape_cons, unescapeFrom_append (spells_escapeChar c), ih, List.reverse_cons,
      List.append_assoc, List.singleton_append]

@[simp] theorem unescape_escape (text : List Char) : unescape (escape text) = some text :=
  unescapeFrom_escape text []

/-- A body ends at the first quote that is no part of it, wherever it stands. -/
def Closed (body : List Char) : Prop :=
  ∀ rest, readBody [] (body ++ '"' :: rest) = some (body, rest)

theorem closed_escape (text : List Char) : Closed (escape text) :=
  readBody_escape text []

end AccessTrace.Json.Text
