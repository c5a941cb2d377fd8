import ControlScript.Binary64
import ControlScript.Decimal

/-!
# Rounding to the nearest double

The double nearest to a fraction of natural numbers, a half going to the even neighbour, and the
same for decimal numbers.  Everything is exact: the quotient is rounded once, at the last bit that
the result has room for.
-/

namespace ControlScript.Binary64

/-! ## 1. Fractions -/

/-- The whole number nearest to `num / den`; a half goes to the even neighbour. -/
def roundHalfEven (num den : Nat) : Nat :=
  let quotient := num / den
  match compare (2 * (num % den)) den with
  | .lt => quotient
  | .gt => quotient + 1
  | .eq => quotient + quotient % 2

/-- The magnitude word nearest to `num / den`.  A significand has at most fifty-three bits, so
    `drop` low bits of the multiple of the least unit are rounded away; a significand that rounds
    up to the next power of two carries into the exponent by itself. -/
def nearest (num den : Nat) : Nat :=
  let scaled := num <<< 1074
  let drop := (scaled / den).log2 - 52
  min (roundHalfEven scaled (den <<< drop) + drop * leadingBit) infinite

/-! ## 2. Decimal numbers -/

/-- The magnitude word nearest to a decimal number.  A number of at least `10 ^ 400` is infinite
    and one below `10 ^ (-400)` is zero, so powers of ten stay small whatever the exponent. -/
def nearestDecimal (d : Decimal) : Nat :=
  if d.digits = 0 then 0
  else if 400 ≤ d.exponent then infinite
  else if d.exponent + d.digits.log2 + 1 ≤ -400 then 0
  else nearest d.numerator d.denominator

theorem nearest_le_infinite (num den : Nat) : nearest num den ≤ infinite := Nat.min_le_right _ _

theorem nearestDecimal_le_infinite (d : Decimal) : nearestDecimal d ≤ infinite := by
  unfold nearestDecimal
  split
  · exact Nat.zero_le _
  split
  · exact Nat.le_refl _
  split
  · exact Nat.zero_le _
  exact nearest_le_infinite _ _

/-- The double nearest to a signed decimal number. -/
def ofDecimal (negative : Bool) (d : Decimal) : Binary64 where
  negative := negative
  magnitude := nearestDecimal d
  magnitude_lt := Nat.lt_of_le_of_lt (nearestDecimal_le_infinite d) (by decide)

end ControlScript.Binary64
