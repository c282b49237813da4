/-!
Sixty-four-bit words: as eight bytes, lowest byte first; in base sixteen, as lower-case text with or
without leading zeros, with a reader that tells the three ways a text can fail to be a word; in base
ten as they are typed; and arithmetic on them that fails where the result is no word.
-/

namespace AccessTrace

abbrev Bytes := List UInt8

/-- The first `n` entries and the rest, when there are as many. -/
def splitExactly? {α : Type} (n : Nat) (xs : List α) : Option (List α × List α) :=
  let (front, rest) := xs.splitAt n
  if front.length = n then some (front, rest) else none

theorem splitExactly?_eq {α : Type} (n : Nat) (xs : List α) :
    splitExactly? n xs = if n ≤ xs.length then some (xs.take n, xs.drop n) else none := by
  simp only [splitExactly?, List.splitAt_eq, List.length_take]
  by_cases h : n ≤ xs.length
  · rw [if_pos (by omega), if_pos h]
  · rw [if_neg (by omega), if_neg h]

namespace Word

/-- The low `width` base-256 digits of a number, lowest first. -/
def digits : Nat → Nat → Bytes
  | 0, _ => []
  | width + 1, n => UInt8.ofNat n :: digits width (n / 256)

def value : Bytes → Nat
  | [] => 0
  | b :: rest => b.toNat + 256 * value rest

@[simp] theorem length_digits (width n : Nat) : (digits width n).length = width := by
  induction width generalizing n with
  | zero => rfl
  | succ width ih => simp [digits, ih]

theorem value_digits (width n : Nat) : value (digits width n) = n % Nat.pow 256 width := by
  induction width generalizing n with
  | zero => simp [digits, value, Nat.mod_one]
  | succ width ih =>
    have hpow : Nat.pow 256 (width + 1) = 256 * Nat.pow 256 width := Nat.mul_comm _ _
    rw [digits, value, ih, hpow, Nat.mod_mul]
    simp

@[simp] theorem digits_value (bs : Bytes) : digits bs.length (value bs) = bs := by
  induction bs with
  | nil => rfl
  | cons b rest ih =>
    have hb : b.toNat < 256 := b.toNat_lt
    have hdiv : (b.toNat + 256 * value rest) / 256 = value rest := by omega
    have hlow : UInt8.ofNat (b.toNat + 256 * value rest) = b := by
      apply UInt8.toNat_inj.1
      simp only [UInt8.toNat_ofNat', Nat.reducePow]
      omega
    simp [digits, value, hdiv, hlow, ih]

theorem value_lt (bs : Bytes) : value bs < Nat.pow 256 bs.length := by
  induction bs with
  | nil => simp [value]
  | cons b rest ih =>
    have hb : b.toNat < 256 := b.toNat_lt
    have hpow : Nat.pow 256 (rest.length + 1) = 256 * Nat.pow 256 rest.length := Nat.mul_comm _ _
    rw [value, List.length_cons, hpow]
    omega

def encode (w : UInt64) : Bytes :=
  digits 8 w.toNat

/-- The word that eight bytes spell; further bytes carry no weight. -/
def decode (bs : Bytes) : UInt64 :=
  UInt64.ofNat (value bs)

@[simp] theorem length_encode (w : UInt64) : (encode w).length = 8 :=
  length_digits 8 w.toNat

@[simp] theorem decode_encode (w : UInt64) : decode (encode w) = w := by
  have hw := w.toNat_lt
  have hpow : Nat.pow 256 8 = UInt64.size := rfl
  rw [decode, encode, value_digits, hpow, Nat.mod_eq_of_lt hw, UInt64.ofNat_toNat]

theorem encode_decode {bs : Bytes} (h : bs.length = 8) : encode (decode bs) = bs := by
  have hlt := value_lt bs
  rw [h] at hlt
  have hval : (decode bs).toNat = value bs := UInt64.toNat_ofNat_of_lt' hlt
  rw [encode, hval, ← h, digits_value]

def signed (w : UInt64) : Int :=
  w.toInt64.toInt

inductive HexError
  | noDigits
  | invalidDigit
  | tooLarge
deriving DecidableEq, Repr

def HexError.message : HexError → String
  | .noDigits => "cannot parse integer from empty string"
  | .invalidDigit => "invalid digit found in string"
  | .tooLarge => "number too large to fit in target type"

def hexDigit (n : Nat) : Char :=
  if n < 10 then Char.ofNat ('0'.toNat + n) else Char.ofNat ('a'.toNat + (n - 10))

def hexDigit? (c : Char) : Option Nat :=
  if '0' ≤ c ∧ c ≤ '9' then some (c.toNat - '0'.toNat)
  else if 'a' ≤ c ∧ c ≤ 'f' then some (c.toNat - 'a'.toNat + 10)
  else if 'A' ≤ c ∧ c ≤ 'F' then some (c.toNat - 'A'.toNat + 10)
  else none

def hexDigits (n : Nat) : List Char :=
  if n < 16 then [hexDigit n] else hexDigits (n / 16) ++ [hexDigit (n % 16)]
termination_by n

def paddedHex (width : Nat) (w : UInt64) : List Char :=
  (hexDigits w.toNat).leftpad width '0'

/-- A word as programs print addresses, such as `0x1f`. -/
def hex (w : UInt64) : String :=
  "0x" ++ String.ofList (hexDigits w.toNat)

/-- Reads on from `value`; a bad digit is reported before the overflow it would cause. -/
def readHexDigits (value : Nat) : List Char → Except HexError Nat
  | [] => .ok value
  | c :: rest =>
    match hexDigit? c with
    | none => .error .invalidDigit
    | some d =>
      if 16 * value + d < UInt64.size then readHexDigits (16 * value + d) rest else .error .tooLarge

/-- Reads a word; one plus sign may stand before the digits. -/
def ofHex? (text : List Char) : Except HexError UInt64 :=
  match text with
  | [] => .error .noDigits
  | ['+'] => .error .invalidDigit
  | '+' :: rest => UInt64.ofNat <$> readHexDigits 0 rest
  | _ => UInt64.ofNat <$> readHexDigits 0 text

/-- The number that digits spell; there must be one at least, and nothing else. -/
def ofDigits? (text : List Char) : Option Nat :=
  if text.isEmpty || !text.all fun c => '0' ≤ c && c ≤ '9' then none
  else some (text.foldl (fun n c => 10 * n + (c.toNat - '0'.toNat)) 0)

def ofDecimal? (text : List Char) : Option UInt64 := do
  let n ← match text with
    | '+' :: rest => ofDigits? rest
    | _ => ofDigits? text
  if n < UInt64.size then return UInt64.ofNat n else none

def signedOfDecimal? (text : List Char) : Option Int64 := do
  let n : Int ← match text with
    | '+' :: rest => (ofDigits? rest).map Int.ofNat
    | '-' :: rest => (ofDigits? rest).map fun n => -Int.ofNat n
    | _ => (ofDigits? text).map Int.ofNat
  if Int64.minValue.toInt ≤ n ∧ n ≤ Int64.maxValue.toInt then return Int64.ofInt n else none

inductive Overflow
  | below
  | above
deriving DecidableEq, Repr

def ofInt? (n : Int) : Except Overflow UInt64 :=
  if n < 0 then .error .below
  else if n < UInt64.size then .ok (.ofNat n.toNat)
  else .error .above

def add? (a b : UInt64) : Except Overflow UInt64 :=
  ofInt? (a.toNat + b.toNat)

def sub? (a b : UInt64) : Except Overflow UInt64 :=
  ofInt? (a.toNat - b.toNat)

def mul? (a b : UInt64) : Except Overflow UInt64 :=
  ofInt? (a.toNat * b.toNat)

theorem ofInt?_toNat (w : UInt64) : ofInt? w.toNat = .ok w := by
  have hsize : (w.toNat : Int) < UInt64.size := Int.ofNat_lt.2 w.toNat_lt_size
  rw [ofInt?, if_neg (by omega), if_pos hsize, Int.toNat_natCast, UInt64.ofNat_toNat]

variable {a b : UInt64}

theorem toNat_add_of_lt (h : a.toNat + b.toNat < UInt64.size) :
    (a + b).toNat = a.toNat + b.toNat :=
  (UInt64.toNat_add a b).trans (Nat.mod_eq_of_lt h)

theorem toNat_mul_of_lt (h : a.toNat * b.toNat < UInt64.size) :
    (a * b).toNat = a.toNat * b.toNat :=
  (UInt64.toNat_mul a b).trans (Nat.mod_eq_of_lt h)

theorem add?_eq (h : a.toNat + b.toNat < UInt64.size) : add? a b = .ok (a + b) := by
  rw [add?, ← Int.natCast_add, ← toNat_add_of_lt h, ofInt?_toNat]

theorem sub?_eq (h : b ≤ a) : sub? a b = .ok (a - b) := by
  have hle : b.toNat ≤ a.toNat := UInt64.le_iff_toNat_le.1 h
  have hsub : ((a - b).toNat : Int) = a.toNat - b.toNat := by
    rw [UInt64.toNat_sub_of_le _ _ h, Int.ofNat_sub hle]
  rw [sub?, ← hsub, ofInt?_toNat]

theorem mul?_eq (h : a.toNat * b.toNat < UInt64.size) : mul? a b = .ok (a * b) := by
  rw [mul?, ← Int.natCast_mul, ← toNat_mul_of_lt h, ofInt?_toNat]

end Word

end AccessTrace
