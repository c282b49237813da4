import Mathlib.Algebra.GroupWithZero.Nat
import Mathlib.Data.Nat.Digits.Defs
import AccessTrace.Word

/-!
Splitting bytes where a given number of them end, words as signed numbers, and words in base
sixteen. Such a word is read back as it was, however many zeros fill it up; what can be read are
digits, behind one plus sign or none, of a number that a word holds.
-/

namespace AccessTrace

theorem splitExactly?_append {α : Type} (front rest : List α) :
    splitExactly? front.length (front ++ rest) = some (front, rest) := by
  rw [splitExactly?_eq, if_pos (by simp), List.take_left, List.drop_left]

theorem eq_append_of_splitExactly? {α : Type} {n : Nat} {xs front rest : List α}
    (h : splitExactly? n xs = some (front, rest)) : xs = front ++ rest ∧ front.length = n := by
  rw [splitExactly?_eq] at h
  split at h
  · obtain ⟨rfl, rfl⟩ := Prod.mk.inj (Option.some.inj h)
    refine ⟨(List.take_append_drop n xs).symm, ?_⟩
    rw [List.length_take]
    omega
  · contradiction

namespace Word

theorem signed_eq (w : UInt64) : signed w = (w.toNat : Int).bmod (2 ^ 64) :=
  BitVec.toInt_eq_toNat_bmod w.toBitVec

theorem signed_ofNat {n : Nat} (h : n < 2 ^ 63) : signed (UInt64.ofNat n) = n := by
  rw [signed_eq, UInt64.toNat_ofNat_of_lt' (Nat.lt_trans h (by decide)), Int.bmod]
  omega

theorem signed_inj {v w : UInt64} : signed v = signed w ↔ v = w := by
  rw [signed, signed, Int64.toInt_inj]
  exact ⟨fun h => congrArg Int64.toUInt64 h, fun h => congrArg UInt64.toInt64 h⟩

theorem ofNat_toNat_signed {w : UInt64} (h : 0 ≤ signed w) :
    UInt64.ofNat (signed w).toNat = w ∧ (signed w).toNat < 2 ^ 63 := by
  have hw := w.toNat_lt
  have hsigned : signed w = w.toNat ∧ w.toNat < 2 ^ 63 := by
    rw [signed_eq, Int.bmod] at h ⊢
    omega
  rw [hsigned.1, Int.toNat_natCast, UInt64.ofNat_toNat]
  exact ⟨rfl, hsigned.2⟩

theorem hexDigit?_hexDigit : ∀ n < 16, hexDigit? (hexDigit n) = some n := by decide

theorem hexDigits_ne_nil (n : Nat) : hexDigits n ≠ [] := by
  rw [hexDigits]
  split
  · exact List.cons_ne_nil _ _
  · exact List.append_ne_nil_of_right_ne_nil _ (List.cons_ne_nil _ _)

variable {width : Nat} {w : UInt64} {text rest : List Char}

theorem paddedHex_eq (width : Nat) (w : UInt64) :
    ∃ zeros, paddedHex width w = List.replicate zeros '0' ++ hexDigits w.toNat :=
  ⟨_, rfl⟩

theorem paddedHex_ne_nil : paddedHex width w ≠ [] :=
  List.append_ne_nil_of_right_ne_nil _ (hexDigits_ne_nil _)

theorem forall_mem_hexDigits {p : Char → Prop} (hp : ∀ n < 16, p (hexDigit n)) (n : Nat) :
    ∀ c ∈ hexDigits n, p c := by
  fun_induction hexDigits n with
  | case1 n h => exact List.forall_mem_singleton.2 (hp n h)
  | case2 n h ih =>
    rw [List.forall_mem_append, List.forall_mem_singleton]
    exact ⟨ih, hp _ (Nat.mod_lt n (by decide))⟩

theorem forall_mem_paddedHex {p : Char → Prop} (hp : ∀ n < 16, p (hexDigit n)) :
    ∀ c ∈ paddedHex width w, p c := by
  obtain ⟨zeros, hw⟩ := paddedHex_eq width w
  rw [hw, List.forall_mem_append]
  refine ⟨fun c hc => ?_, forall_mem_hexDigits hp w.toNat⟩
  rw [List.eq_of_mem_replicate hc]
  exact hp 0 (by decide)

theorem plus_not_mem_hex (w : UInt64) : '+' ∉ (hex w).toList := by
  have hdigits : '+' ∉ hexDigits w.toNat := fun h =>
    forall_mem_hexDigits (p := (· ≠ '+')) (by decide) w.toNat _ h rfl
  simpa [hex] using hdigits

theorem readHexDigits_append (value : Nat) (text rest : List Char) :
    readHexDigits value (text ++ rest) =
      (readHexDigits value text).bind fun value => readHexDigits value rest := by
  induction text generalizing value with
  | nil => rfl
  | cons c text ih =>
    rw [List.cons_append, readHexDigits, readHexDigits]
    split
    · rfl
    · split
      · exact ih _
      · rfl

theorem readHexDigits_zeros (zeros : Nat) (text : List Char) :
    readHexDigits 0 (List.replicate zeros '0' ++ text) = readHexDigits 0 text := by
  induction zeros with
  | zero => rfl
  | succ zeros ih => exact ih

theorem readHexDigits_hexDigits {n : Nat} (h : n < UInt64.size) :
    readHexDigits 0 (hexDigits n) = .ok n := by
  fun_induction hexDigits n with
  | case1 n hn =>
    rw [readHexDigits, hexDigit?_hexDigit n hn]
    simp only [Nat.mul_zero, Nat.zero_add, h, if_true, readHexDigits]
  | case2 n hn ih =>
    have hvalue : 16 * (n / 16) + n % 16 = n := Nat.div_add_mod n 16
    rw [readHexDigits_append, ih (by omega), Except.bind, readHexDigits,
      hexDigit?_hexDigit _ (Nat.mod_lt n (by decide))]
    simp only [hvalue, h, if_true, readHexDigits]

theorem ofHex?_eq (hne : text ≠ []) (hplus : '+' ∉ text) :
    ofHex? text = UInt64.ofNat <$> readHexDigits 0 text := by
  unfold ofHex?
  split
  · contradiction
  · exact absurd List.mem_cons_self hplus
  · exact absurd List.mem_cons_self hplus
  · rfl

@[simp] theorem ofHex?_paddedHex (width : Nat) (w : UInt64) :
    ofHex? (paddedHex width w) = .ok w := by
  have hplus : '+' ∉ paddedHex width w := fun h =>
    absurd rfl (forall_mem_paddedHex (p := (· ≠ '+')) (by decide) _ h)
  obtain ⟨zeros, hw⟩ := paddedHex_eq width w
  rw [ofHex?_eq paddedHex_ne_nil hplus, hw, readHexDigits_zeros,
    readHexDigits_hexDigits w.toNat_lt]
  exact congrArg Except.ok UInt64.ofNat_toNat

section Read

def hexValue (digits : List Char) : Nat :=
  Nat.ofDigits 16 (digits.filterMap hexDigit?).reverse

/-- A number in base sixteen as text. One plus sign may stand before the digits. -/
def HexNumeral (text : List Char) (n : Nat) : Prop :=
  ∃ digits, (text = digits ∨ text = '+' :: digits) ∧ digits ≠ [] ∧
    (∀ c ∈ digits, (hexDigit? c).isSome) ∧ hexValue digits = n

variable {digits : List Char} {c : Char} {value n : Nat}

theorem length_filterMap_hexDigit? (h : ∀ c ∈ digits, (hexDigit? c).isSome) :
    (digits.filterMap hexDigit?).length = digits.length :=
  List.filterMap_length_eq_length.2 h

theorem hexValue_cons {d : Nat} (hc : hexDigit? c = some d)
    (h : ∀ c ∈ digits, (hexDigit? c).isSome) :
    hexValue (c :: digits) = 16 ^ digits.length * d + hexValue digits := by
  rw [hexValue, List.filterMap_cons_some hc, Nat.ofDigits_reverse_cons,
    length_filterMap_hexDigit? h, Nat.add_comm]
  rfl

/-- The digits that are read make a number larger, so one that fits at last has fitted all along. -/
theorem readHexDigits_eq_ok_iff (hvalue : value < UInt64.size) :
    readHexDigits value text = .ok n ↔
      (∀ c ∈ text, (hexDigit? c).isSome) ∧ 16 ^ text.length * value + hexValue text = n ∧
        n < UInt64.size := by
  induction text generalizing value with
  | nil =>
    simp only [readHexDigits, Except.ok.injEq, List.not_mem_nil, false_imp_iff, implies_true,
      true_and, List.length_nil, Nat.pow_zero, Nat.one_mul, hexValue, List.filterMap_nil,
      List.reverse_nil, Nat.ofDigits_nil, Nat.add_zero, iff_self_and]
    rintro rfl
    exact hvalue
  | cons c rest ih =>
    rw [readHexDigits, List.forall_mem_cons]
    cases hc : hexDigit? c with
    | none => simp
    | some d =>
      simp only [Option.isSome_some, true_and]
      have hsum (hrest : ∀ c ∈ rest, (hexDigit? c).isSome) :
          16 ^ (c :: rest).length * value + hexValue (c :: rest) =
            16 ^ rest.length * (16 * value + d) + hexValue rest := by
        rw [hexValue_cons hc hrest, List.length_cons, Nat.pow_succ, Nat.mul_add, Nat.mul_assoc,
          Nat.add_assoc]
      split
      · rename_i hfits
        rw [ih hfits]
        exact and_congr_right fun hrest => by rw [hsum hrest]
      · rename_i hlarge
        refine iff_of_false nofun ?_
        rintro ⟨hrest, hn, hfits⟩
        have hle : 16 * value + d ≤ 16 ^ rest.length * (16 * value + d) :=
          Nat.le_mul_of_pos_left _ (Nat.pow_pos (by decide))
        rw [hsum hrest] at hn
        omega

theorem map_readHexDigits_eq_ok_iff :
    UInt64.ofNat <$> readHexDigits 0 digits = .ok w ↔
      (∀ c ∈ digits, (hexDigit? c).isSome) ∧ hexValue digits = w.toNat := by
  have hread (n : Nat) : readHexDigits 0 digits = .ok n ↔
      (∀ c ∈ digits, (hexDigit? c).isSome) ∧ hexValue digits = n ∧ n < UInt64.size := by
    rw [readHexDigits_eq_ok_iff (by decide), Nat.mul_zero, Nat.zero_add]
  constructor
  · intro h
    cases hn : readHexDigits 0 digits with
    | error e => simp [hn] at h
    | ok n =>
      obtain ⟨hdigits, hvalue, hfits⟩ := (hread n).1 hn
      have hw : UInt64.ofNat n = w := by simpa [hn] using h
      rw [hvalue, ← hw, UInt64.toNat_ofNat_of_lt' hfits]
      exact ⟨hdigits, rfl⟩
  · rintro ⟨hdigits, hvalue⟩
    rw [(hread w.toNat).2 ⟨hdigits, hvalue, w.toNat_lt⟩]
    exact congrArg Except.ok UInt64.ofNat_toNat

/-- The plus sign is no digit, so it is known whether one was written. -/
theorem ofHex?_eq_ok_iff : ofHex? text = .ok w ↔ HexNumeral text w.toNat := by
  have hplus : hexDigit? '+' = none := by decide
  unfold ofHex? HexNumeral
  split
  · simp
  · simp [hplus]
  · rename_i rest hne
    rw [map_readHexDigits_eq_ok_iff]
    constructor
    · rintro ⟨hdigits, hvalue⟩
      exact ⟨rest, .inr rfl, hne, hdigits, hvalue⟩
    · rintro ⟨digits, rfl | heq, -, hdigits, hvalue⟩
      · have := hdigits '+' List.mem_cons_self
        simp [hplus] at this
      · rw [List.tail_eq_of_cons_eq heq]
        exact ⟨hdigits, hvalue⟩
  · rename_i hne _ hsigned
    rw [map_readHexDigits_eq_ok_iff]
    constructor
    · rintro ⟨hdigits, hvalue⟩
      exact ⟨text, .inl rfl, hne, hdigits, hvalue⟩
    · rintro ⟨digits, rfl | rfl, -, hdigits, hvalue⟩
      · exact ⟨hdigits, hvalue⟩
      · exact absurd rfl (hsigned digits)

end Read

end Word

end AccessTrace
