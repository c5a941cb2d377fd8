import ControlScript.Binary64.Rounding

/-!
# Numerals

The two forms of number literals as data: what a numeral consists of, its text, and the number it
stands for.  A numeral keeps its spelling, so a message can quote it as it was written.
-/

namespace ControlScript

/-! ## 1. Signs -/

/-- An explicit sign in front of a numeral. -/
inductive Sign where
  | plus
  | minus
deriving DecidableEq

namespace Sign

/-- The character that writes a sign. -/
def char : Sign → Char
  | plus => '+'
  | minus => '-'

/-- The sign that a character writes. -/
def ofChar? : Char → Option Sign
  | '+' => some plus
  | '-' => some minus
  | _ => none

/-- A character is a sign exactly when the sign is written by it. -/
theorem ofChar?_eq_some_iff {c : Char} {s : Sign} : ofChar? c = some s ↔ c = s.char := by
  constructor
  · intro h
    unfold ofChar? at h
    split at h <;> cases h <;> rfl
  · rintro rfl
    cases s <;> rfl

end Sign

/-! ## 2. Whole numbers -/

/-- A whole number as written: an optional sign and decimal digits. -/
structure WholeNumeral where
  sign : Option Sign
  digits : List Char
deriving DecidableEq

namespace WholeNumeral

/-- The spelling of a whole number. -/
def chars (n : WholeNumeral) : List Char := n.sign.toList.map Sign.char ++ n.digits

/-- The number that is written. -/
def toInt (n : WholeNumeral) : Int :=
  match n.sign with
  | some .minus => -(Decimal.ofDigits n.digits : Int)
  | _ => Decimal.ofDigits n.digits

/-- The number that is written, if it fits into sixty-four bits. -/
def value? (n : WholeNumeral) : Option Int64 :=
  if Int64.minValue.toInt ≤ n.toInt ∧ n.toInt ≤ Int64.maxValue.toInt then some (Int64.ofInt n.toInt)
  else none

/-- The shortest spelling of an integer. -/
def ofInt (n : Int) : WholeNumeral where
  sign := if n < 0 then some .minus else none
  digits := Decimal.digitsOf n.natAbs

end WholeNumeral

/-! ## 3. Numbers with a fraction and an exponent -/

/-- A number as written: an optional sign, digits before the point, digits behind it if there is a
    point, and a marked exponent if there is one. -/
structure DecimalNumeral where
  sign : Option Sign
  whole : List Char
  fraction : Option (List Char)
  exponent : Option (Char × WholeNumeral)
deriving DecidableEq

namespace DecimalNumeral

/-- The spelling of a number. -/
def chars (n : DecimalNumeral) : List Char :=
  n.sign.toList.map Sign.char ++ n.whole
    ++ (n.fraction.map ('.' :: ·)).getD []
    ++ (n.exponent.map fun (marker, e) => marker :: e.chars).getD []

/-- The magnitude that is written: every digit behind the point divides by ten. -/
def magnitude (n : DecimalNumeral) : Decimal where
  digits := Decimal.ofDigits (n.whole ++ n.fraction.getD [])
  exponent := (n.exponent.map fun (_, e) => e.toInt).getD 0 - (n.fraction.getD []).length

/-- The double nearest to the number that is written. -/
def nearest (n : DecimalNumeral) : Binary64 :=
  .ofDecimal (n.sign = some .minus) n.magnitude

/-- The double nearest to the number that is written, if it is finite. -/
def value? (n : DecimalNumeral) : Option Binary64 :=
  if n.nearest.isFinite then some n.nearest else none

end DecimalNumeral

end ControlScript
