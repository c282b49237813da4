/-!
Binary64 numbers in positional decimal notation with six places. The number is taken apart into its
sign, significand and power of two, and the exact quotient is rounded once.
-/

namespace AccessTrace.Decimal

def roundHalfEven (num den : Nat) : Nat :=
  let quotient := num / den
  let twice := 2 * (num % den)
  if twice < den then quotient
  else if den < twice then quotient + 1
  else quotient + quotient % 2

/-- The rounded quotient is off by a half at most. -/
theorem roundHalfEven_near (num : Nat) {den : Nat} (h : 0 < den) :
    2 * num ≤ 2 * (den * roundHalfEven num den) + den ∧
      2 * (den * roundHalfEven num den) ≤ 2 * num + den := by
  have hdiv := Nat.div_add_mod num den
  have hmod := Nat.mod_lt num h
  unfold roundHalfEven
  dsimp only
  split
  · omega
  · split
    · rw [Nat.mul_add]
      omega
    · have : num / den % 2 = 0 ∨ num / den % 2 = 1 := by omega
      rcases this with h' | h' <;> rw [h', Nat.mul_add] <;> omega

def places : Nat := 6

def ofScaled (n : Nat) : String :=
  let fraction := toString (n % Nat.pow 10 places)
  toString (n / Nat.pow 10 places) ++ "." ++ "".pushn '0' (places - fraction.length) ++ fraction

/-- `significand * 2 ^ (exponent - 1075)`, the value of a finite binary64 without its sign, times
`10 ^ places` and rounded. -/
def scaled (significand exponent : Nat) : Nat :=
  roundHalfEven (significand * Nat.pow 2 exponent * Nat.pow 10 places) (Nat.pow 2 1075)

def hiddenBit : Nat := 0x10000000000000

/-- The text of the number whose binary64 pattern is `bits`; a zero keeps its sign. -/
def ofBinary64 (bits : UInt64) : String :=
  let sign := if bits < 0x8000000000000000 then "" else "-"
  let exponent := bits.toNat / hiddenBit % 2048
  let mantissa := bits.toNat % hiddenBit
  if exponent = 2047 then
    if mantissa = 0 then sign ++ "inf" else "NaN"
  else if exponent = 0 then sign ++ ofScaled (scaled mantissa 1)
  else sign ++ ofScaled (scaled (hiddenBit + mantissa) exponent)

end AccessTrace.Decimal
