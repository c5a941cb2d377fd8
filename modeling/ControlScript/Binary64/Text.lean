import ControlScript.Binary64.Shortest

/-!
# Doubles as text

How the shortest digits of a double are laid out: positionally when the leading digit is near the
decimal point, and with an exponent otherwise.  The few decisions that differ between one kind of
output and another are the fields of a `Style`.
-/

namespace ControlScript.Binary64

/-! ## 1. Layout of digits -/

/-- The decisions of a number format.  A number whose leading digit stands for `10 ^ e` is written
    positionally when `leastPositional ≤ e < 16`. -/
structure Style where
  leastPositional : Int
  signedExponent : Bool
  tie : Tie

/-- The digits of a positional numeral whose first digit stands for `10 ^ e`; the point is always
    written, with at least one digit on each side. -/
def positional (digits : List Char) : (e : Int) → List Char
  | .negSucc k => '0' :: '.' :: (List.replicate k '0' ++ digits)
  | .ofNat k =>
      if digits.length ≤ k + 1 then
        digits ++ List.replicate (k + 1 - digits.length) '0' ++ ['.', '0']
      else
        digits.take (k + 1) ++ '.' :: digits.drop (k + 1)

/-- One digit before the point and the others, if any, behind it. -/
def mantissa : List Char → List Char
  | d :: r@(_ :: _) => d :: '.' :: r
  | digits => digits

/-- The exponent with its sign; a style says whether a plus sign is written. -/
def Style.exponent (style : Style) : Int → List Char
  | .negSucc k => '-' :: Decimal.digitsOf (k + 1)
  | .ofNat k => (if style.signedExponent then ['+'] else []) ++ Decimal.digitsOf k

/-- Significant digits, the first of which stands for `10 ^ e`, as text. -/
def Style.layout (style : Style) (digits : List Char) (e : Int) : List Char :=
  if style.leastPositional ≤ e ∧ e < 16 then positional digits e
  else mantissa digits ++ 'e' :: style.exponent e

/-! ## 2. Doubles -/

/-- The digits of a decimal number without the zeros at their end. -/
def significantDigits (d : Decimal) : List Char :=
  ((Decimal.digitsOf d.digits).reverse.dropWhile (· == '0')).reverse

/-- The text of a finite magnitude. -/
def Style.magnitude (style : Style) (word : Nat) : List Char :=
  if word = 0 then ['0', '.', '0']
  else
    let d := shortest style.tie word
    style.layout (significantDigits d) (d.exponent + (Decimal.digitsOf d.digits).length - 1)

/-- The text of a double: its sign, and the shortest digits that read back to it. -/
def Style.text (style : Style) (x : Binary64) : List Char :=
  if x.isNaN then "NaN".toList
  else
    let body := if x.isFinite then style.magnitude x.magnitude else "inf".toList
    if x.negative then '-' :: body else body

end ControlScript.Binary64
