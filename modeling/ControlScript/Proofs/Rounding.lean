import ControlScript.Binary64.Shortest
import Mathlib.Tactic.Ring

/-!
# Shortest decimal numbers read back

The nearest double depends on a decimal number alone and not on how it is scaled, and every finite
magnitude is the nearest one to its own exact expansion.  So whatever the search for the shortest
digits ends with, it is read back as the double that it started from.
-/

namespace ControlScript.Binary64

/-! ## 1. Fractions -/

theorem compare_mul_right {k : Nat} (hk : 0 < k) (a b : Nat) :
    compare (a * k) (b * k) = compare a b := by
  rcases Nat.lt_trichotomy a b with h | rfl | h
  · rw [Nat.compare_eq_lt.2 h, Nat.compare_eq_lt.2 (Nat.mul_lt_mul_of_pos_right h hk)]
  · rw [Nat.compare_eq_eq.2 rfl, Nat.compare_eq_eq.2 rfl]
  · rw [Nat.compare_eq_gt.2 h, Nat.compare_eq_gt.2 (Nat.mul_lt_mul_of_pos_right h hk)]

theorem roundHalfEven_mul_right {k : Nat} (hk : 0 < k) (num den : Nat) :
    roundHalfEven (num * k) (den * k) = roundHalfEven num den := by
  unfold roundHalfEven
  rw [Nat.mul_div_mul_right _ _ hk, Nat.mul_mod_mul_right, ← Nat.mul_assoc, compare_mul_right hk]

theorem nearest_eq (num den : Nat) : nearest num den =
    min (roundHalfEven (num <<< 1074) (den <<< (((num <<< 1074) / den).log2 - 52))
      + (((num <<< 1074) / den).log2 - 52) * leadingBit) infinite := rfl

theorem nearest_mul_right {k : Nat} (hk : 0 < k) (num den : Nat) :
    nearest (num * k) (den * k) = nearest num den := by
  have hshift : ∀ a n : Nat, (a * k) <<< n = (a <<< n) * k := fun a n => by
    rw [Nat.shiftLeft_eq, Nat.shiftLeft_eq, Nat.mul_right_comm]
  rw [nearest_eq, nearest_eq, hshift, Nat.mul_div_mul_right _ _ hk, hshift,
    roundHalfEven_mul_right hk]

/-- Equal fractions have one nearest magnitude. -/
theorem nearest_congr {a b c d : Nat} (hb : 0 < b) (hd : 0 < d) (h : a * d = c * b) :
    nearest a b = nearest c d := by
  rw [← nearest_mul_right hd a b, h, Nat.mul_comm b d, nearest_mul_right hb]

/-! ## 2. Very large and very small numbers -/

theorem nearest_of_large {k n : Nat} (hk : 1025 ≤ k) (h : 2 ^ k ≤ n) : nearest n 1 = infinite := by
  have hscaled : 2 ^ (k + 1074) ≤ n <<< 1074 := by
    rw [Nat.shiftLeft_eq, Nat.pow_add]
    exact Nat.mul_le_mul_right _ h
  have hne : n <<< 1074 ≠ 0 := Nat.ne_of_gt (Nat.lt_of_lt_of_le (Nat.two_pow_pos _) hscaled)
  have hlog : k + 1074 ≤ (n <<< 1074).log2 := (Nat.le_log2 hne).2 hscaled
  have hdrop : 2047 ≤ (n <<< 1074).log2 - 52 := by omega
  rw [nearest_eq, Nat.div_one]
  refine Nat.min_eq_right (Nat.le_trans (Nat.mul_le_mul_right leadingBit hdrop) ?_)
  exact Nat.le_add_left _ _

theorem nearest_of_small {k n den : Nat} (hk : 1074 ≤ k) (h : 2 ^ (k + 1) * n < den) :
    nearest n den = 0 := by
  have hdouble : 2 * n <<< 1074 < den := by
    have hshift : ∀ p ≤ k, 2 * n <<< p ≤ 2 ^ (k + 1) * n := fun p hp => by
      rw [Nat.shiftLeft_eq, Nat.pow_succ]
      calc 2 * (n * 2 ^ p) = 2 ^ p * (2 * n) := by ring
        _ ≤ 2 ^ k * (2 * n) := Nat.mul_le_mul_right _ (Nat.pow_le_pow_right (by decide) hp)
        _ = 2 ^ k * 2 * n := by ring
    exact Nat.lt_of_le_of_lt (hshift 1074 hk) h
  have hlt : n <<< 1074 < den := by omega
  rw [nearest_eq, Nat.div_eq_of_lt hlt, Nat.log2_zero, Nat.zero_sub, Nat.shiftLeft_zero,
    Nat.zero_mul, Nat.add_zero, roundHalfEven, Nat.div_eq_of_lt hlt, Nat.mod_eq_of_lt hlt,
    Nat.compare_eq_lt.2 hdouble]
  exact Nat.zero_min _

theorem numerator_eq (d : Decimal) : d.numerator = d.digits * 10 ^ d.exponent.toNat := rfl

theorem denominator_eq (d : Decimal) : d.denominator = 10 ^ (-d.exponent).toNat := rfl

theorem denominator_pos (d : Decimal) : 0 < d.denominator := Nat.pow_pos (by decide)

theorem eight_pow_le (n : Nat) : 2 ^ (3 * n) ≤ 10 ^ n := by
  rw [Nat.pow_mul]
  exact Nat.pow_le_pow_left (by decide) n

/-- The limits beyond which a decimal number is not rounded are those of the doubles. -/
theorem nearestDecimal_eq_nearest {d : Decimal} (h : d.digits ≠ 0) :
    nearestDecimal d = nearest d.numerator d.denominator := by
  unfold nearestDecimal
  rw [if_neg h]
  -- three binary digits for a decimal one are enough for either limit, so ten is weakened to eight
  split
  · rename_i hlarge
    have hden : d.denominator = 1 := by
      rw [denominator_eq, show (-d.exponent).toNat = 0 by omega, Nat.pow_zero]
    rw [hden, numerator_eq, nearest_of_large (k := 3 * d.exponent.toNat) (by omega)]
    exact (eight_pow_le _).trans (Nat.le_mul_of_pos_left _ (Nat.pos_of_ne_zero h))
  split
  · rename_i hsmall
    obtain ⟨n, hn⟩ : ∃ n, (-d.exponent).toNat = d.digits.log2 + 1 + n :=
      ⟨(-d.exponent).toNat - (d.digits.log2 + 1), by omega⟩
    have hdigits : d.digits < 10 ^ (d.digits.log2 + 1) :=
      Nat.lt_of_lt_of_le Nat.lt_log2_self (Nat.pow_le_pow_left (by decide) _)
    obtain ⟨k, hk⟩ : ∃ k, 3 * n = k + 1 := ⟨3 * n - 1, by omega⟩
    rw [numerator_eq, denominator_eq, hn, show d.exponent.toNat = 0 by omega, Nat.pow_zero,
      Nat.mul_one, nearest_of_small (k := k) (by omega)]
    rw [← hk]
    calc 2 ^ (3 * n) * d.digits < 2 ^ (3 * n) * 10 ^ (d.digits.log2 + 1) :=
          Nat.mul_lt_mul_of_pos_left hdigits (Nat.two_pow_pos _)
      _ ≤ 10 ^ n * 10 ^ (d.digits.log2 + 1) := Nat.mul_le_mul_right _ (eight_pow_le n)
      _ = 10 ^ (d.digits.log2 + 1 + n) := by rw [← Nat.pow_add, Nat.add_comm]
  · rfl

/-! ## 3. Scales of decimal numbers -/

/-- Zeros at the end of the digits do not matter. -/
theorem nearestDecimal_shift (digits zeros : Nat) (exponent : Int) :
    nearestDecimal ⟨digits * 10 ^ zeros, exponent - zeros⟩ = nearestDecimal ⟨digits, exponent⟩ := by
  by_cases hzero : digits = 0
  · unfold nearestDecimal
    rw [if_pos hzero, if_pos (show digits * 10 ^ zeros = 0 by rw [hzero, Nat.zero_mul])]
  have hshifted : digits * 10 ^ zeros ≠ 0 :=
    Nat.mul_ne_zero hzero (Nat.ne_of_gt (Nat.pow_pos (by decide)))
  rw [nearestDecimal_eq_nearest (d := ⟨digits * 10 ^ zeros, exponent - zeros⟩) hshifted,
    nearestDecimal_eq_nearest (d := ⟨digits, exponent⟩) hzero]
  refine nearest_congr (denominator_pos _) (denominator_pos _) ?_
  rw [numerator_eq, numerator_eq, denominator_eq, denominator_eq, Nat.mul_assoc, Nat.mul_assoc,
    ← Nat.pow_add, ← Nat.pow_add, Nat.mul_assoc, ← Nat.pow_add]
  refine congrArg (fun n => digits * 10 ^ n) ?_
  show zeros + ((exponent - zeros).toNat + (-exponent).toNat)
    = exponent.toNat + (-(exponent - zeros)).toNat
  omega

/-! ## 4. Exact expansions and shortest digits -/

/-- The whole number that a magnitude is in least units is rounded to the magnitude. -/
theorem roundHalfEven_of_mul {den n : Nat} (hden : 0 < den) : roundHalfEven (n * den) den = n := by
  have hzero : compare (2 * 0) den = .lt := Nat.compare_eq_lt.2 (by omega)
  rw [roundHalfEven, Nat.mul_div_cancel _ hden, Nat.mul_mod_left, hzero]

theorem significand_lt (word : Nat) : significand word < 2 * leadingBit := by
  unfold significand
  split
  · omega
  · have hmod := Nat.mod_lt word (show 0 < leadingBit by decide)
    omega

/-- A magnitude word is its significand and its scale. -/
theorem significand_add_scale (word : Nat) :
    significand word + scale word * leadingBit = word := by
  unfold significand scale
  split
  · rename_i hlt
    rw [Nat.div_eq_of_lt hlt]
    simp
  · rename_i hge
    have hdiv : 1 ≤ word / leadingBit := (Nat.one_le_div_iff (by decide)).2 (by omega)
    have hmul :
        (word / leadingBit - 1) * leadingBit + leadingBit = word / leadingBit * leadingBit := by
      rw [← Nat.succ_mul, Nat.succ_eq_add_one, Nat.sub_add_cancel hdiv]
    have hmod := Nat.div_add_mod word leadingBit
    rw [Nat.mul_comm] at hmod
    omega

/-- The bits that do not fit into a significand are as many as the scale says. -/
theorem log2_units (word : Nat) : (units word).log2 - 52 = scale word := by
  have hlead : leadingBit = 2 ^ 52 := by decide
  have hlt := significand_lt word
  unfold units
  rw [Nat.shiftLeft_eq]
  -- a subnormal word is its own significand; a normal one has the leading bit besides
  by_cases hsmall : word < leadingBit
  · have hscale : scale word = 0 := by rw [scale, Nat.div_eq_of_lt hsmall]
    have hsig : significand word = word := if_pos hsmall
    rw [hscale, hsig, Nat.pow_zero, Nat.mul_one]
    by_cases hzero : word = 0
    · simp [hzero]
    · have hlog : word.log2 < 52 := (Nat.log2_lt hzero).2 (hlead ▸ hsmall)
      omega
  · have hge : leadingBit ≤ significand word := by
      rw [significand, if_neg hsmall]
      omega
    have hpow := Nat.two_pow_pos (scale word)
    have hlog : (significand word * 2 ^ scale word).log2 = 52 + scale word := by
      rw [Nat.log2_eq_iff (Nat.mul_ne_zero (by omega) (by omega)), Nat.add_right_comm, Nat.pow_add,
        Nat.pow_add]
      constructor
      · exact Nat.mul_le_mul_right _ (hlead ▸ hge)
      · exact Nat.mul_lt_mul_of_pos_right (by rw [Nat.pow_succ, ← hlead]; omega) hpow
    omega

/-- A finite magnitude is nearest to the number of least units that it is. -/
theorem nearest_units {word den : Nat} (hword : word ≤ infinite) (hden : 0 < den) {num : Nat}
    (hnum : num <<< 1074 = units word * den) : nearest num den = word := by
  rw [nearest_eq, hnum, Nat.mul_div_cancel _ hden, log2_units]
  have hunits : units word * den = significand word * den <<< scale word := by
    rw [units, Nat.shiftLeft_eq, Nat.shiftLeft_eq, Nat.mul_assoc, Nat.mul_comm (2 ^ _)]
  have hshift : 0 < den <<< scale word := by
    rw [Nat.shiftLeft_eq]
    exact Nat.mul_pos hden (Nat.two_pow_pos _)
  rw [hunits, roundHalfEven_of_mul hshift, significand_add_scale, Nat.min_eq_left hword]

/-- The exact expansion of a word when the least unit is `2 ^ (-n)`. -/
def expansion (word n : Nat) : Decimal := ⟨units word * Nat.pow 5 n, -n⟩

/-- The number of digits stays a variable, for the powers are too large to be looked at. -/
theorem exists_expansion (word : Nat) : ∃ n, n = 1074 ∧ exactDecimal word = expansion word n := by
  obtain ⟨n, hn⟩ : ∃ n, n = 1074 := ⟨_, rfl⟩
  have hexponent : (-1074 : Int) = -(n : Int) := by omega
  exact ⟨n, hn, by simp only [exactDecimal, expansion, hexponent, ← hn]⟩

/-- The expansion is as many least units as the word. -/
theorem expansion_scaled (word n : Nat) :
    (expansion word n).numerator <<< n = units word * (expansion word n).denominator := by
  rw [numerator_eq, denominator_eq, expansion, Int.neg_neg, Int.toNat_neg_natCast,
    Int.toNat_natCast, Nat.pow_zero, Nat.mul_one, Nat.shiftLeft_eq, Nat.mul_assoc]
  exact congrArg _ (Nat.mul_pow 5 2 n).symm

theorem exactDecimal_digits_ne_zero {word : Nat} (hzero : word ≠ 0) :
    (exactDecimal word).digits ≠ 0 := by
  have hsig : significand word ≠ 0 := by
    unfold significand
    split
    · exact hzero
    · have hlead : 0 < leadingBit := by decide
      omega
  have hunits : 0 < units word := by
    rw [units, Nat.shiftLeft_eq]
    exact Nat.mul_pos (Nat.pos_of_ne_zero hsig) (Nat.two_pow_pos _)
  obtain ⟨n, -, hexact⟩ := exists_expansion word
  rw [hexact]
  exact Nat.ne_of_gt (Nat.mul_pos hunits (Nat.pow_pos (by decide)))

theorem nearestDecimal_exactDecimal {word : Nat} (hword : word ≤ infinite) (hzero : word ≠ 0) :
    nearestDecimal (exactDecimal word) = word := by
  obtain ⟨n, hn, hexact⟩ := exists_expansion word
  rw [nearestDecimal_eq_nearest (exactDecimal_digits_ne_zero hzero), hexact]
  refine nearest_units hword (denominator_pos _) ?_
  rw [← hn]
  exact expansion_scaled word n

/-- A neighbour that the search stops at reads back. -/
theorem nearestDecimal_of_neighbour? {tie : Tie} {word drop : Nat} {exact d : Decimal}
    (h : neighbour? tie word exact drop = some d) : nearestDecimal d = word := by
  unfold neighbour? at h
  dsimp only at h
  split at h
  · rename_i hlow hhigh
    obtain rfl := Option.some.inj h
    split
    · exact beq_iff_eq.1 hhigh
    · exact beq_iff_eq.1 hlow
  · rename_i hlow _
    obtain rfl := Option.some.inj h
    exact beq_iff_eq.1 hlow
  · rename_i _ hhigh
    obtain rfl := Option.some.inj h
    exact beq_iff_eq.1 hhigh
  · cases h

theorem nearestDecimal_shortestOf (tie : Tie) {word : Nat} {exact : Decimal}
    (hexact : nearestDecimal exact = word) : nearestDecimal (shortestOf tie word exact) = word := by
  unfold shortestOf
  dsimp only
  cases hfound : (List.range 17).findSome? fun n =>
      neighbour? tie word exact ((Decimal.digitsOf exact.digits).length - (n + 1)) with
  | none => exact hexact
  | some d =>
    obtain ⟨n, -, hn⟩ := List.exists_of_findSome?_eq_some hfound
    exact nearestDecimal_of_neighbour? hn

/-- The shortest digits of a finite magnitude read back. -/
theorem nearestDecimal_shortest (tie : Tie) {word : Nat} (hword : word ≤ infinite)
    (hzero : word ≠ 0) : nearestDecimal (shortest tie word) = word :=
  nearestDecimal_shortestOf tie (nearestDecimal_exactDecimal hword hzero)

end ControlScript.Binary64
