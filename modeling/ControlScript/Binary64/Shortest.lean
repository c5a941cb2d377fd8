import ControlScript.Binary64.Rounding

/-!
# The fewest digits that read back

Of the decimal numbers that round to a given double, the shortest are wanted, and of those the one
nearest to the double.  For every number of digits only the two neighbours of the double on that
decimal grid can qualify, so the search tries those two and stops at the first grid with a hit.
-/

namespace ControlScript.Binary64

/-- Which of two equally near neighbours is taken: the upper one or the one with an even digit. -/
inductive Tie where
  | up
  | even
deriving DecidableEq

/-- A finite magnitude word as a decimal number, with no rounding at all. -/
def exactDecimal (word : Nat) : Decimal := ⟨units word * Nat.pow 5 1074, -1074⟩

/-- Whether the upper of two neighbours is taken, when `rest` of a grid step of `step` lies above
    the lower neighbour `low`. -/
def Tie.takesUpper (tie : Tie) (low rest step : Nat) : Bool :=
  match compare (2 * rest) step, tie with
  | .lt, _ => false
  | .gt, _ => true
  | .eq, .up => true
  | .eq, .even => low % 2 == 1

/-- The nearest neighbour of a word, on the grid that drops `drop` digits of its exact expansion,
    that reads back to the word. -/
def neighbour? (tie : Tie) (word : Nat) (exact : Decimal) (drop : Nat) : Option Decimal :=
  let step := Nat.pow 10 drop
  let low : Decimal := ⟨exact.digits / step, exact.exponent + drop⟩
  let high : Decimal := ⟨low.digits + 1, low.exponent⟩
  match nearestDecimal low == word, nearestDecimal high == word with
  | true, true => some (if tie.takesUpper low.digits (exact.digits % step) step then high else low)
  | true, false => some low
  | false, true => some high
  | false, false => none

/-- The shortest decimal number that reads back to a word with a given exact expansion; seventeen
    digits are enough, and the expansion stands behind them. -/
def shortestOf (tie : Tie) (word : Nat) (exact : Decimal) : Decimal :=
  let length := (Decimal.digitsOf exact.digits).length
  ((List.range 17).findSome? fun n => neighbour? tie word exact (length - (n + 1))).getD exact

/-- The shortest decimal number that reads back to a finite word. -/
def shortest (tie : Tie) (word : Nat) : Decimal := shortestOf tie word (exactDecimal word)

end ControlScript.Binary64
