import ControlScript.Proofs.Grammar.Token
import ControlScript.Proofs.Rounding

/-!
# Numbers read back from their text

An integer is written with all its digits, a double with the fewest that read back.  Whatever the
layout of the digits is, the text is a complete numeral of the same magnitude, so the number that it
stands for is the one that was written, bit for bit.
-/

namespace ControlScript

/-! ## 1. Digits -/

namespace Decimal

theorem digitsOf_ne_nil (n : Nat) : digitsOf n ≠ [] := Nat.toDigits_ne_nil

theorem ofDigits_append (front back : List Char) :
    ofDigits (front ++ back) = ofDigits front * 10 ^ back.length + ofDigits back := by
  unfold ofDigits
  rw [Nat.ofDigitChars_append, Nat.ofDigitChars_eq_ofDigitChars_zero, Nat.mul_comm]

theorem ofDigits_zeros (zeros : Nat) : ofDigits (List.replicate zeros '0') = 0 := by
  unfold ofDigits
  rw [Nat.ofDigitChars_replicate_zero, Nat.mul_zero]

/-- Zeros in front do not matter. -/
theorem ofDigits_zeros_append (zeros : Nat) (digits : List Char) :
    ofDigits (List.replicate zeros '0' ++ digits) = ofDigits digits := by
  rw [ofDigits_append, ofDigits_zeros, Nat.zero_mul, Nat.zero_add]

theorem ofDigits_append_zeros (digits : List Char) (zeros : Nat) :
    ofDigits (digits ++ List.replicate zeros '0') = ofDigits digits * 10 ^ zeros := by
  rw [ofDigits_append, ofDigits_zeros, List.length_replicate, Nat.add_zero]

end Decimal

/-! ## 2. Whole numbers -/

namespace WholeNumeral

theorem wellFormed_ofInt (n : Int) : (ofInt n).WellFormed :=
  ⟨fun _ hc => Decimal.isDigit_of_mem_digitsOf hc, Decimal.digitsOf_ne_nil _⟩

theorem toInt_ofInt (n : Int) : (ofInt n).toInt = n := by
  unfold ofInt toInt
  rw [Decimal.ofDigits_digitsOf]
  by_cases hneg : n < 0
  · rw [if_pos hneg]
    show -(n.natAbs : Int) = n
    omega
  · rw [if_neg hneg]
    show (n.natAbs : Int) = n
    omega

/-- The digits of an integer of sixty-four bits stand for that integer. -/
theorem value?_ofInt (n : Int64) : (ofInt n.toInt).value? = some n := by
  unfold value?
  rw [toInt_ofInt, if_pos ⟨n.minValue_le_toInt, n.toInt_le⟩, Int64.ofInt_toInt]

end WholeNumeral

/-! ## 3. Layouts of digits -/

namespace Binary64

/-- A numeral without a sign that is spelled in some way and is worth digits the first of which
    stands for `10 ^ e`. -/
structure LaysOut (n : DecimalNumeral) (text digits : List Char) (e : Int) : Prop where
  spelled : n.chars = text
  unsigned : n.sign = none
  wellFormed : n.WellFormed
  worth : nearestDecimal n.magnitude
    = nearestDecimal ⟨Decimal.ofDigits digits, e + 1 - digits.length⟩

section Layouts

variable {digits : List Char} {e : Int}

/-- With zeros behind the digits a numeral is worth the same. -/
theorem nearestDecimal_zeros (digits : List Char) (zeros : Nat) (exponent : Int) :
    nearestDecimal ⟨Decimal.ofDigits (digits ++ List.replicate zeros '0'), exponent - zeros⟩
      = nearestDecimal ⟨Decimal.ofDigits digits, exponent⟩ := by
  rw [Decimal.ofDigits_append_zeros]
  exact nearestDecimal_shift _ _ _

theorem isDigit_of_mem_zeros (zeros : Nat) : ∀ c ∈ List.replicate zeros '0', c.isDigit = true := by
  intro c hc
  rw [List.eq_of_mem_replicate hc]
  decide

/-- All digits are behind the point. -/
theorem laysOut_behind (hdigits : ∀ c ∈ digits, c.isDigit = true) (k : Nat) :
    LaysOut ⟨none, ['0'], some (List.replicate k '0' ++ digits), none⟩
      (positional digits (.negSucc k)) digits (.negSucc k) where
  spelled := by simp [DecimalNumeral.chars, positional]
  unsigned := rfl
  wellFormed := by
    refine ⟨isDigit_of_mem_zeros 1, ?_, .inl (List.cons_ne_nil _ _), by simp⟩
    intro c hc
    exact (List.mem_append.1 hc).elim (isDigit_of_mem_zeros k c) (hdigits c)
  worth := by
    show nearestDecimal ⟨Decimal.ofDigits (List.replicate 1 '0' ++ (List.replicate k '0' ++ digits)),
      0 - ((List.replicate k '0' ++ digits).length : Nat)⟩ = _
    rw [Decimal.ofDigits_zeros_append, Decimal.ofDigits_zeros_append, List.length_append,
      List.length_replicate]
    congr 2
    omega

/-- Zeros fill the digits up to the point, and there is one more behind it. -/
theorem laysOut_filled (hdigits : ∀ c ∈ digits, c.isDigit = true) (hne : digits ≠ []) {k : Nat}
    (hshort : digits.length ≤ k + 1) :
    LaysOut ⟨none, digits ++ List.replicate (k + 1 - digits.length) '0', some ['0'], none⟩
      (positional digits (.ofNat k)) digits (.ofNat k) where
  spelled := by simp [DecimalNumeral.chars, positional, if_pos hshort]
  unsigned := rfl
  wellFormed := by
    refine ⟨?_, isDigit_of_mem_zeros 1, .inl (by simp [hne]), by simp⟩
    intro c hc
    exact (List.mem_append.1 hc).elim (hdigits c) (isDigit_of_mem_zeros _ c)
  worth := by
    show nearestDecimal ⟨Decimal.ofDigits (digits ++ List.replicate (k + 1 - digits.length) '0'
      ++ List.replicate 1 '0'), 0 - 1⟩ = _
    rw [List.append_assoc, List.replicate_append_replicate,
      ← nearestDecimal_zeros digits (k + 1 - digits.length + 1)]
    congr 2
    show (0 - 1 : Int) = (k : Int) + 1 - digits.length - ((k + 1 - digits.length + 1 : Nat) : Int)
    omega

/-- The point is between the digits. -/
theorem laysOut_between (hdigits : ∀ c ∈ digits, c.isDigit = true) {k : Nat}
    (hlong : ¬ digits.length ≤ k + 1) :
    LaysOut ⟨none, digits.take (k + 1), some (digits.drop (k + 1)), none⟩
      (positional digits (.ofNat k)) digits (.ofNat k) where
  spelled := by simp [DecimalNumeral.chars, positional, if_neg hlong]
  unsigned := rfl
  wellFormed := by
    refine ⟨fun c hc => hdigits c (List.mem_of_mem_take hc),
      fun c hc => hdigits c (List.mem_of_mem_drop hc), .inl ?_, by simp⟩
    exact List.ne_nil_of_length_pos (by rw [List.length_take]; omega)
  worth := by
    show nearestDecimal ⟨Decimal.ofDigits (digits.take (k + 1) ++ digits.drop (k + 1)),
      0 - ((digits.drop (k + 1)).length : Nat)⟩ = _
    rw [List.take_append_drop, List.length_drop]
    congr 2
    show (0 : Int) - ((digits.length - (k + 1) : Nat) : Int) = (k : Int) + 1 - digits.length
    omega

theorem exists_positional (hdigits : ∀ c ∈ digits, c.isDigit = true) (hne : digits ≠ []) (e : Int) :
    ∃ n, LaysOut n (positional digits e) digits e := by
  cases e with
  | negSucc k => exact ⟨_, laysOut_behind hdigits k⟩
  | ofNat k =>
    by_cases hshort : digits.length ≤ k + 1
    · exact ⟨_, laysOut_filled hdigits hne hshort⟩
    · exact ⟨_, laysOut_between hdigits hshort⟩

/-- The exponent of a style as a numeral. -/
def Style.exponentNumeral (style : Style) (e : Int) : WholeNumeral where
  sign := if e < 0 then some .minus else if style.signedExponent then some .plus else none
  digits := Decimal.digitsOf e.natAbs

theorem Style.chars_exponentNumeral (style : Style) (e : Int) :
    (style.exponentNumeral e).chars = style.exponent e := by
  cases e with
  | negSucc k =>
    unfold exponentNumeral WholeNumeral.chars
    rw [if_pos (Int.negSucc_lt_zero k)]
    rfl
  | ofNat k =>
    unfold exponentNumeral WholeNumeral.chars
    have hpositive : ¬ Int.ofNat k < 0 := Int.not_lt.2 (Int.natCast_nonneg k)
    rw [if_neg hpositive, exponent]
    cases style.signedExponent with
    | false => rfl
    | true => rfl

theorem Style.toInt_exponentNumeral (style : Style) (e : Int) :
    (style.exponentNumeral e).toInt = e := by
  unfold exponentNumeral WholeNumeral.toInt
  rw [Decimal.ofDigits_digitsOf]
  by_cases hneg : e < 0
  · rw [if_pos hneg]
    show -(e.natAbs : Int) = e
    omega
  · rw [if_neg hneg]
    cases style.signedExponent with
    | false =>
      show (e.natAbs : Int) = e
      omega
    | true =>
      show (e.natAbs : Int) = e
      omega

theorem exists_scientific (style : Style) (hdigits : ∀ c ∈ digits, c.isDigit = true)
    (hne : digits ≠ []) (e : Int) :
    ∃ n, LaysOut n (mantissa digits ++ 'e' :: style.exponent e) digits e := by
  have hexponent : ∀ mark number, some ('e', style.exponentNumeral e) = some (mark, number) →
      (mark = 'e' ∨ mark = 'E') ∧ number.WellFormed := by
    rintro mark number ⟨⟩
    exact ⟨.inl rfl, fun _ hc => Decimal.isDigit_of_mem_digitsOf hc, Decimal.digitsOf_ne_nil _⟩
  match digits, hdigits, hne with
  | [], _, hne => exact absurd rfl hne
  | [d], hdigits, _ =>
    refine ⟨⟨none, [d], none, some ('e', style.exponentNumeral e)⟩, ?_, rfl, ?_, ?_⟩
    · simp [DecimalNumeral.chars, mantissa, style.chars_exponentNumeral]
    · exact ⟨hdigits, by simp, .inl (List.cons_ne_nil _ _), hexponent⟩
    · show nearestDecimal ⟨Decimal.ofDigits [d], (style.exponentNumeral e).toInt - 0⟩ = _
      rw [style.toInt_exponentNumeral]
      congr 2
      show e - 0 = e + 1 - 1
      omega
  | d :: d' :: others, hdigits, _ =>
    refine ⟨⟨none, [d], some (d' :: others), some ('e', style.exponentNumeral e)⟩, ?_, rfl, ?_, ?_⟩
    · simp [DecimalNumeral.chars, mantissa, style.chars_exponentNumeral]
    · obtain ⟨hfirst, hothers⟩ := List.forall_mem_cons.1 hdigits
      exact ⟨List.forall_mem_singleton.2 hfirst, hothers, .inl (List.cons_ne_nil _ _), hexponent⟩
    · show nearestDecimal ⟨Decimal.ofDigits (d :: d' :: others),
        (style.exponentNumeral e).toInt - ((d' :: others).length : Nat)⟩ = _
      rw [style.toInt_exponentNumeral]
      congr 2
      simp only [List.length_cons]
      omega

/-- However a style lays out digits, the text is a numeral that is worth the digits. -/
theorem exists_layout (style : Style) (hdigits : ∀ c ∈ digits, c.isDigit = true) (hne : digits ≠ [])
    (e : Int) : ∃ n, LaysOut n (style.layout digits e) digits e := by
  unfold Style.layout
  split
  · exact exists_positional hdigits hne e
  · exact exists_scientific style hdigits hne e

end Layouts

/-! ## 4. Doubles -/

/-- The significant digits of a number, with zeros behind them, are all its digits. -/
theorem exists_zeros (d : Decimal) :
    ∃ zeros, Decimal.digitsOf d.digits = significantDigits d ++ List.replicate zeros '0' := by
  let reversed := (Decimal.digitsOf d.digits).reverse
  refine ⟨(reversed.takeWhile (· == '0')).length, ?_⟩
  have hzeros : reversed.takeWhile (· == '0')
      = List.replicate (reversed.takeWhile (· == '0')).length '0' := by
    apply List.eq_replicate_of_mem
    intro c hc
    exact beq_iff_eq.1 (List.all_eq_true.1 List.all_takeWhile c hc)
  calc Decimal.digitsOf d.digits
      = (reversed.takeWhile (· == '0') ++ reversed.dropWhile (· == '0')).reverse := by
        rw [List.takeWhile_append_dropWhile, List.reverse_reverse]
    _ = significantDigits d ++ (reversed.takeWhile (· == '0')).reverse := List.reverse_append
    _ = significantDigits d ++ List.replicate (reversed.takeWhile (· == '0')).length '0' := by
        rw [hzeros, List.reverse_replicate, List.length_replicate]

/-- The significant digits of a number are worth the number, when the first of them stands where the
    first of all digits does. -/
theorem nearestDecimal_significantDigits (d : Decimal) :
    nearestDecimal ⟨Decimal.ofDigits (significantDigits d),
      d.exponent + (Decimal.digitsOf d.digits).length - 1 + 1 - (significantDigits d).length⟩
      = nearestDecimal d := by
  obtain ⟨zeros, hzeros⟩ := exists_zeros d
  have hlength : (Decimal.digitsOf d.digits).length = (significantDigits d).length + zeros := by
    rw [hzeros, List.length_append, List.length_replicate]
  have hexponent : d.exponent + (Decimal.digitsOf d.digits).length - 1 + 1
      - (significantDigits d).length - zeros = d.exponent := by omega
  rw [← nearestDecimal_zeros _ zeros, ← hzeros, Decimal.ofDigits_digitsOf, hexponent]

theorem significantDigits_isDigit (d : Decimal) : ∀ c ∈ significantDigits d, c.isDigit = true := by
  obtain ⟨zeros, hzeros⟩ := exists_zeros d
  intro c hc
  apply Decimal.isDigit_of_mem_digitsOf
  rw [hzeros]
  exact List.mem_append_left _ hc

/-- Zeros only are worth zero. -/
theorem significantDigits_ne_nil {d : Decimal} (h : d.digits ≠ 0) : significantDigits d ≠ [] := by
  obtain ⟨zeros, hzeros⟩ := exists_zeros d
  intro hnil
  apply h
  rw [← Decimal.ofDigits_digitsOf d.digits, hzeros, hnil, List.nil_append, Decimal.ofDigits_zeros]

theorem exists_magnitude (style : Style) {word : Nat} (hword : word < infinite) :
    ∃ n : DecimalNumeral, n.chars = style.magnitude word ∧ n.sign = none ∧ n.WellFormed ∧
      nearestDecimal n.magnitude = word := by
  unfold Style.magnitude
  by_cases hzero : word = 0
  · rw [if_pos hzero, hzero]
    refine ⟨⟨none, ['0'], some ['0'], none⟩, rfl, rfl, ?_, ?_⟩
    · exact ⟨by simp, by simp, .inl (List.cons_ne_nil _ _), by simp⟩
    · unfold nearestDecimal
      exact if_pos rfl
  rw [if_neg hzero]
  have hnearest := nearestDecimal_shortest style.tie (Nat.le_of_lt hword) hzero
  generalize shortest style.tie word = d at hnearest
  have hdigits : d.digits ≠ 0 := by
    intro hnone
    apply hzero
    rw [← hnearest, nearestDecimal, if_pos hnone]
  obtain ⟨n, hn⟩ :=
    exists_layout style (significantDigits_isDigit d) (significantDigits_ne_nil hdigits)
    (d.exponent + (Decimal.digitsOf d.digits).length - 1)
  refine ⟨n, hn.spelled, hn.unsigned, hn.wellFormed, ?_⟩
  rw [hn.worth, nearestDecimal_significantDigits, hnearest]

theorem value?_eq_some {n : DecimalNumeral} {x : Binary64} (hfinite : x.isFinite = true)
    (hsign : decide (n.sign = some .minus) = x.negative)
    (hnearest : nearestDecimal n.magnitude = x.magnitude) : n.value? = some x := by
  have hx : n.nearest = x := by
    cases x
    unfold DecimalNumeral.nearest ofDecimal
    simp only [mk.injEq]
    exact ⟨hsign, hnearest⟩
  unfold DecimalNumeral.value?
  rw [hx, if_pos hfinite]

theorem Style.text_of_isFinite (style : Style) {x : Binary64} (hfinite : x.isFinite = true) :
    style.text x
      = if x.negative then '-' :: style.magnitude x.magnitude else style.magnitude x.magnitude := by
  have hword : x.magnitude < infinite := of_decide_eq_true hfinite
  have hnumber : x.isNaN = false := decide_eq_false (Nat.not_lt.2 (Nat.le_of_lt hword))
  simp only [Style.text, hnumber, hfinite, if_true, Bool.false_eq_true, if_false]

/-- The text of a finite double is a numeral that stands for that double. -/
theorem exists_numeral (style : Style) {x : Binary64} (hfinite : x.isFinite = true) :
    ∃ n : DecimalNumeral, n.chars = style.text x ∧ n.WellFormed ∧ n.value? = some x := by
  obtain ⟨n, hchars, hsign, hformed, hnearest⟩ := exists_magnitude style (of_decide_eq_true hfinite)
  rw [style.text_of_isFinite hfinite]
  cases hnegative : x.negative with
  | false =>
    rw [if_neg Bool.false_ne_true]
    refine ⟨n, hchars, hformed, value?_eq_some hfinite ?_ hnearest⟩
    rw [hsign, hnegative]
    rfl
  | true =>
    rw [if_pos rfl]
    refine ⟨{ n with sign := some .minus }, ?_,
      ⟨hformed.whole, hformed.fraction, hformed.nonempty, hformed.exponent⟩,
      value?_eq_some hfinite hnegative.symm hnearest⟩
    rw [← hchars]
    unfold DecimalNumeral.chars
    rw [hsign]
    rfl

end Binary64

end ControlScript
