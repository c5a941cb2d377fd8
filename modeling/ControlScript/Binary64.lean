/-!
# Double-precision numbers

A double is a sign and the sixty-three bits below it.  Read as a natural number, those bits are
ordered exactly as the magnitudes they stand for: first the subnormal numbers, then the normal
ones, then infinity, and above it the words that are no number at all.  Every finite magnitude is
a whole number of the least unit `2 ^ (-1074)`, so all arithmetic below is on `Nat` and exact.
-/

namespace ControlScript

/-- A double-precision number: a sign and a magnitude word of sixty-three bits. -/
structure Binary64 where
  negative : Bool
  magnitude : Nat
  magnitude_lt : magnitude < 1 <<< 63 := by decide
deriving DecidableEq

namespace Binary64

/-! ## 1. Words and classes -/

/-- The leading bit of a normal significand, which has fifty-three bits; the fifty-two below it are
    stored in the low part of the word, and the exponent above them. -/
def leadingBit : Nat := 1 <<< 52

/-- The magnitude word of infinity; smaller words are finite, larger ones are not numbers. -/
def infinite : Nat := 2047 * leadingBit

/-- The double whose sixty-four bits, read as a natural number, are `bits`. -/
def ofBits (bits : Nat) : Binary64 where
  negative := bits.testBit 63
  magnitude := bits % (1 <<< 63)
  magnitude_lt := Nat.mod_lt _ (by decide)

/-- Words above infinity stand for no number. -/
def isNaN (x : Binary64) : Bool := infinite < x.magnitude

/-- Words below infinity stand for real numbers. -/
def isFinite (x : Binary64) : Bool := x.magnitude < infinite

/-- Numeric equality: the two zeros are equal, and what is no number equals nothing. -/
def numericallyEqual (x y : Binary64) : Bool :=
  !x.isNaN && !y.isNaN &&
    (x.magnitude == y.magnitude && (x.negative == y.negative || x.magnitude == 0))

/-! ## 2. The value of a magnitude word -/

/-- The binary exponent of a magnitude word, counted from the least unit; subnormal words and the
    first binade of normal words share exponent zero. -/
def scale (word : Nat) : Nat := word / leadingBit - 1

/-- The significand of a magnitude word: normal words carry a leading bit that is not stored. -/
def significand (word : Nat) : Nat :=
  if word < leadingBit then word else leadingBit + word % leadingBit

/-- The magnitude that a finite word stands for, as a multiple of `2 ^ (-1074)`. -/
def units (word : Nat) : Nat := significand word <<< scale word

end Binary64

end ControlScript
