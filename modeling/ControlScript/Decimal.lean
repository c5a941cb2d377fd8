/-!
# Decimal numbers

A non-negative decimal number is a whole number scaled by a power of ten.
-/

namespace ControlScript

/-- The number `digits * 10 ^ exponent`. -/
structure Decimal where
  digits : Nat
  exponent : Int
deriving DecidableEq

namespace Decimal

/-- The decimal digits of a natural number, most significant first. -/
def digitsOf (n : Nat) : List Char := Nat.toDigits 10 n

/-- The natural number that a run of decimal digits denotes; the empty run denotes zero. -/
def ofDigits (digits : List Char) : Nat := Nat.ofDigitChars 10 digits 0

/-- Reading the digits of a number gives the number back. -/
theorem ofDigits_digitsOf (n : Nat) : ofDigits (digitsOf n) = n :=
  Nat.ofDigitChars_toDigits (by decide) (by decide)

theorem isDigit_of_mem_digitsOf {n : Nat} {c : Char} (h : c ∈ digitsOf n) : c.isDigit = true :=
  Nat.isDigit_of_mem_toDigits (by decide) (by decide) h

/-- The numerator of a decimal number written as a fraction of natural numbers. -/
def numerator (d : Decimal) : Nat := d.digits * Nat.pow 10 d.exponent.toNat

/-- The denominator of a decimal number written as a fraction of natural numbers. -/
def denominator (d : Decimal) : Nat := Nat.pow 10 (-d.exponent).toNat

end Decimal

end ControlScript
