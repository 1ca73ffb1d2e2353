import HandlerScript.Tree
import HandlerScript.Proofs.Number.Exact
import HandlerScript.Proofs.Grammar

/-!
# Numbers are written so that they read back

The text of a finite number is a numeral of the grammar with that number as its value, and the text of
a whole number is its decimal digits.
-/

namespace HandlerScript

/-! ## Digits -/

theorem digitsValue_append (digits others : List Char) :
    digitsValue (digits ++ others) = 10 ^ others.length * digitsValue digits + digitsValue others :=
  (Nat.ofDigitChars_append 0).trans Nat.ofDigitChars_eq_ofDigitChars_zero

theorem digitsValue_replicate_zero (k : ℕ) : digitsValue (List.replicate k '0') = 0 :=
  Nat.ofDigitChars_replicate_zero

theorem digitsValue_append_zeros (digits : List Char) (k : ℕ) :
    digitsValue (digits ++ List.replicate k '0') = digitsValue digits * 10 ^ k := by
  rw [digitsValue_append, digitsValue_replicate_zero, List.length_replicate, add_zero, mul_comm]

theorem digitsValue_zeros_append (k : ℕ) (digits : List Char) :
    digitsValue (List.replicate k '0' ++ digits) = digitsValue digits := by
  rw [digitsValue_append, digitsValue_replicate_zero, mul_zero, zero_add]

theorem digitsValue_toDigits (n : ℕ) : digitsValue (Nat.toDigits 10 n) = n :=
  Nat.ofDigitChars_ten_toDigits

theorem digits_toDigits (n : ℕ) : Digits (Nat.toDigits 10 n) :=
  ⟨Nat.toDigits_ne_nil, fun _ hc => Nat.isDigit_of_mem_toDigits (by omega) (by omega) hc⟩

theorem isDigit_of_mem_zeros {k : ℕ} {c : Char} (hc : c ∈ List.replicate k '0') : c.isDigit := by
  rw [List.eq_of_mem_replicate hc]
  rfl

theorem digits_zeros {k : ℕ} (hk : 0 < k) : Digits (List.replicate k '0') :=
  ⟨by simp; omega, fun _ => isDigit_of_mem_zeros⟩

theorem Digits.append {digits others : List Char} (h : Digits digits)
    (hothers : ∀ c ∈ others, c.isDigit) : Digits (digits ++ others) :=
  ⟨by simp [h.1], List.forall_mem_append.mpr ⟨h.2, hothers⟩⟩

theorem toDigits_mul_pow {n : ℕ} (hn : 0 < n) (k : ℕ) :
    Nat.toDigits 10 (n * 10 ^ k) = Nat.toDigits 10 n ++ List.replicate k '0' := by
  induction k with
  | zero => simp
  | succ k ih =>
    have happend := @Nat.toDigits_append_toDigits 10 (n * 10 ^ k) 0 (by omega) (by positivity) (by omega)
    rw [Nat.toDigits_zero, add_zero, ih] at happend
    rw [pow_succ, ← mul_assoc, mul_comm, ← happend, List.replicate_succ', List.append_assoc]

theorem head_toDigits_ne_zero {n : ℕ} (hn : 0 < n) : (Nat.toDigits 10 n).head? ≠ some '0' := by
  induction n using Nat.strong_induction_on with
  | _ n ih =>
    by_cases hlt : n < 10
    · have hdigit : ∀ n < 10, 0 < n → Nat.digitChar n ≠ '0' := by decide
      rw [Nat.toDigits_of_lt_base hlt]
      simpa using hdigit n hlt hn
    · -- All digits but the last are those of a tenth of the number.
      rw [Nat.toDigits_of_base_le (by omega) (by omega),
        List.head?_append_of_ne_nil _ Nat.toDigits_ne_nil]
      exact ih (n / 10) (by omega) (by omega)

/-! ## Significant digits -/

namespace Decimal

variable {d : Decimal}

theorem toDigits_eq (d : Decimal) :
    ∃ k, Nat.toDigits 10 d.digits = d.significant ++ List.replicate k '0' := by
  let zeros := (Nat.toDigits 10 d.digits).reverse.takeWhile (· = '0')
  have hzeros : zeros.reverse = List.replicate zeros.length '0' := by
    rw [List.eq_replicate_iff]
    refine ⟨List.length_reverse, fun c hc => ?_⟩
    simpa using List.mem_takeWhile_imp (List.mem_reverse.mp hc)
  refine ⟨zeros.length, ?_⟩
  rw [← hzeros, significant, ← List.reverse_append, List.takeWhile_append_dropWhile,
    List.reverse_reverse]

theorem getLast_significant (d : Decimal) : d.significant.getLast? ≠ some '0' := by
  rw [significant, List.getLast?_reverse]
  intro h
  have := List.head?_dropWhile_not (fun c => decide (c = '0')) (Nat.toDigits 10 d.digits).reverse
  rw [h] at this
  simp at this

theorem significant_isDigit (d : Decimal) : ∀ c ∈ d.significant, c.isDigit := by
  obtain ⟨k, hk⟩ := d.toDigits_eq
  have hall := (digits_toDigits d.digits).2
  rw [hk] at hall
  exact (List.forall_mem_append.mp hall).1

theorem significant_ne_nil (hdigits : d.digits ≠ 0) : d.significant ≠ [] := by
  intro hnil
  obtain ⟨k, hk⟩ := d.toDigits_eq
  rw [hnil, List.nil_append] at hk
  have hvalue := digitsValue_toDigits d.digits
  rw [hk, digitsValue_replicate_zero] at hvalue
  exact hdigits hvalue.symm

theorem head_significant_ne_zero (hdigits : d.digits ≠ 0) : d.significant.head? ≠ some '0' := by
  obtain ⟨k, hk⟩ := d.toDigits_eq
  have hhead := head_toDigits_ne_zero (Nat.pos_of_ne_zero hdigits)
  rwa [hk, List.head?_append_of_ne_nil _ (d.significant_ne_nil hdigits)] at hhead

theorem point_eq {d : Decimal} {k : ℕ}
    (hk : Nat.toDigits 10 d.digits = d.significant ++ List.replicate k '0') :
    d.point = d.significant.length + k + d.exponent := by
  rw [point, digitCount, hk, List.length_append, List.length_replicate]
  push_cast
  ring

theorem value_eq (d : Decimal) :
    d.value = digitsValue d.significant * 10 ^ (d.point - d.significant.length) := by
  obtain ⟨k, hk⟩ := d.toDigits_eq
  have hdigits := digitsValue_toDigits d.digits
  have hpoint : d.point - d.significant.length = k + d.exponent := by
    rw [point_eq hk]
    ring
  rw [hk, digitsValue_append_zeros] at hdigits
  rw [value, ← hdigits, hpoint, zpow_add₀ (by norm_num), zpow_natCast]
  push_cast
  ring

end Decimal

/-! ## Digits around a point -/

/-- Digits with no zero before others, a fraction and a power of ten. -/
inductive UnsignedText : (whole fraction : List Char) → ℤ → List Char → Prop where
  | mk {whole fraction fractionText powerText : List Char} {power : ℤ} : Digits whole →
      (whole.head? = some '0' → whole = ['0']) → FractionText fraction fractionText →
      PowerText power powerText →
      UnsignedText whole fraction power (whole ++ (fractionText ++ powerText))

namespace UnsignedText

variable {whole fraction fractionText text sign : List Char} {power : ℤ} {negative : Bool}

theorem positional (hwhole : Digits whole) (hzeros : whole.head? = some '0' → whole = ['0'])
    (hfraction : FractionText fraction fractionText) :
    UnsignedText whole fraction 0 (whole ++ fractionText) := by
  have htext := UnsignedText.mk hwhole hzeros hfraction .none
  rwa [List.append_nil] at htext

theorem no_zeros (h : UnsignedText whole fraction power text) :
    whole.head? = some '0' → whole = ['0'] := by
  obtain ⟨-, hzeros, -, -⟩ := h
  exact hzeros

theorem head_ne_plus (h : UnsignedText whole fraction power text) : text.head? ≠ some '+' := by
  obtain ⟨hwhole, -, -, -⟩ := h
  rw [List.head?_append_of_ne_nil _ hwhole.1]
  intro hplus
  exact absurd (hwhole.2 _ (List.mem_of_head? hplus)) (by decide)

theorem numeralText (h : UnsignedText whole fraction power text) (hsign : SignText negative sign) :
    NumeralText ⟨negative, whole, fraction, power⟩ (sign ++ text) := by
  obtain ⟨hwhole, -, hfraction, hpower⟩ := h
  exact .mk hsign hwhole hfraction hpower

end UnsignedText

/-- The text has a point or none, and stands for these digits with the point where it belongs. -/
def PlacedText (digits : List Char) (point : ℤ) (text : List Char) : Prop :=
  ∃ whole fraction, UnsignedText whole fraction 0 text ∧
    (digitsValue (whole ++ fraction) * 10 ^ (-(fraction.length : ℤ)) : ℚ) =
      digitsValue digits * 10 ^ (point - digits.length)

section

variable {digits wholeEnd : List Char} {zeros : ℕ}

theorem placedText_before (hdigits : Digits digits) (k : ℕ) :
    PlacedText digits (-k) ('0' :: '.' :: (List.replicate k '0' ++ digits)) := by
  have hfraction : Digits (List.replicate k '0' ++ digits) :=
    ⟨by simp [hdigits.1], List.forall_mem_append.mpr ⟨fun _ => isDigit_of_mem_zeros, hdigits.2⟩⟩
  refine ⟨['0'], List.replicate k '0' ++ digits,
    .positional (digits_zeros one_pos) (fun _ => rfl) (.some hfraction), ?_⟩
  have hvalue : digitsValue (['0'] ++ (List.replicate k '0' ++ digits)) = digitsValue digits :=
    (digitsValue_zeros_append 1 _).trans (digitsValue_zeros_append k _)
  have hlength : (-((List.replicate k '0' ++ digits).length : ℤ)) = -k - digits.length := by
    rw [List.length_append, List.length_replicate]
    push_cast
    ring
  rw [hvalue, hlength]

theorem placedText_after (hdigits : Digits digits) (hhead : digits.head? ≠ some '0')
    (hend : FractionText (List.replicate zeros '0') wholeEnd) (k : ℕ) :
    PlacedText digits (digits.length + k) (digits ++ List.replicate k '0' ++ wholeEnd) := by
  have hzeros : (digits ++ List.replicate k '0').head? ≠ some '0' := by
    rwa [List.head?_append_of_ne_nil _ hdigits.1]
  refine ⟨digits ++ List.replicate k '0', List.replicate zeros '0',
    .positional (hdigits.append fun _ => isDigit_of_mem_zeros) (absurd · hzeros) hend, ?_⟩
  rw [digitsValue_append_zeros, digitsValue_append_zeros, List.length_replicate, zpow_neg,
    zpow_natCast, add_sub_cancel_left, zpow_natCast]
  push_cast
  rw [mul_inv_cancel_right₀ (by positivity)]

theorem placedText_among (hdigits : ∀ c ∈ digits, c.isDigit) (hhead : digits.head? ≠ some '0') {k : ℕ}
    (hpos : 0 < k) (hlt : k < digits.length) :
    PlacedText digits k (digits.take k ++ '.' :: digits.drop k) := by
  have hwhole : Digits (digits.take k) := by
    refine ⟨?_, fun c hc => hdigits c (List.mem_of_mem_take hc)⟩
    rw [← List.length_pos_iff, List.length_take]
    omega
  have hfraction : Digits (digits.drop k) := by
    refine ⟨?_, fun c hc => hdigits c (List.mem_of_mem_drop hc)⟩
    rw [← List.length_pos_iff, List.length_drop]
    omega
  have hzeros : (digits.take k).head? ≠ some '0' := by
    rwa [List.head?_take, if_neg (by omega)]
  refine ⟨digits.take k, digits.drop k, .positional hwhole (absurd · hzeros) (.some hfraction), ?_⟩
  have hlength : (-((digits.drop k).length : ℤ)) = k - digits.length := by
    rw [List.length_drop]
    omega
  rw [List.take_append_drop, hlength]

theorem placedText_placed (hdigits : Digits digits) (hhead : digits.head? ≠ some '0')
    (hend : FractionText (List.replicate zeros '0') wholeEnd) (point : ℤ) :
    PlacedText digits point (NumberFormat.placed wholeEnd digits point) := by
  rw [NumberFormat.placed]
  split_ifs with hfirst hlast
  · obtain ⟨k, rfl⟩ : ∃ k : ℕ, point = -k := Int.exists_eq_neg_ofNat hfirst
    rw [neg_neg, Int.toNat_natCast]
    exact placedText_before hdigits k
  · obtain ⟨k, rfl⟩ : ∃ k : ℕ, point = digits.length + k := Int.exists_add_of_le hlast
    have hzeros : ((digits.length : ℤ) + k).toNat - digits.length = k := by omega
    rw [hzeros]
    exact placedText_after hdigits hhead hend k
  · obtain ⟨k, rfl⟩ : ∃ k : ℕ, point = k := Int.eq_ofNat_of_zero_le (by omega)
    rw [Int.toNat_natCast]
    exact placedText_among hdigits.2 hhead (by omega) (by omega)

end

theorem powerText_natAbs (power : ℤ) : PowerText power
    ('e' :: (if power < 0 then '-' else '+') :: Nat.toDigits 10 power.natAbs) := by
  have hdigits := digits_toDigits power.natAbs
  have hvalue := digitsValue_toDigits power.natAbs
  split_ifs with hnegative
  · have htext := PowerText.some (.inl rfl) .minus hdigits
    rw [hvalue, if_pos rfl, Int.ofNat_natAbs_of_nonpos hnegative.le, neg_neg] at htext
    exact htext
  · have htext := PowerText.some (.inl rfl) .plus hdigits
    rw [hvalue] at htext
    simpa [Int.natAbs_of_nonneg (not_lt.mp hnegative)] using htext

theorem scientific_unsigned {digits : List Char} (hdigits : Digits digits)
    (hhead : digits.head? ≠ some '0') (power : ℤ) :
    ∃ whole fraction, UnsignedText whole fraction power (NumberFormat.scientific digits power) ∧
      whole ++ fraction = digits ∧ whole.length = 1 := by
  obtain ⟨hne, hall⟩ := hdigits
  match digits with
  | [] => exact absurd rfl hne
  | [first] =>
    exact ⟨[first], [], .mk ⟨hne, hall⟩ (absurd · hhead) .none (powerText_natAbs power), rfl, rfl⟩
  | first :: second :: others =>
    obtain ⟨hfirst, hothers⟩ := List.forall_mem_cons.mp hall
    have hwhole : Digits [first] := ⟨nofun, List.forall_mem_singleton.mpr hfirst⟩
    have hfraction : FractionText (second :: others) ('.' :: second :: others) :=
      .some ⟨nofun, hothers⟩
    exact ⟨[first], second :: others,
      .mk hwhole (absurd · hhead) hfraction (powerText_natAbs power), rfl, rfl⟩

theorem placed_whole {digits : List Char} (hdigits : digits ≠ []) (k : ℕ) :
    NumberFormat.placed [] digits (digits.length + k) = digits ++ List.replicate k '0' := by
  have hlength := List.length_pos_iff.mpr hdigits
  rw [NumberFormat.placed, if_neg (by omega), if_pos (by omega), List.append_nil]
  congr 2
  omega

namespace Decimal

theorem toDigits_of_value {d : Decimal} {n : ℕ} (hn : 0 < n) (hvalue : d.value = n) :
    ∃ m : ℕ, Nat.toDigits 10 n = d.significant ++ List.replicate m '0' ∧
      d.point = d.significant.length + m := by
  obtain ⟨k, hk⟩ := d.toDigits_eq
  have hpoint := point_eq hk
  rcases le_total 0 d.exponent with h | h
  · obtain ⟨j, hj⟩ := Int.eq_ofNat_of_zero_le h
    have hmul : n = d.digits * 10 ^ j := by
      rw [value, hj, zpow_natCast] at hvalue
      exact_mod_cast hvalue.symm
    have hdigits : 0 < d.digits := Nat.pos_of_mul_pos_right (hmul ▸ hn)
    refine ⟨k + j, ?_, ?_⟩
    · rw [hmul, toDigits_mul_pow hdigits, hk, List.append_assoc, List.replicate_append_replicate]
    · rw [hpoint, hj]
      push_cast
      ring
  · -- The zeros that the exponent takes back are among those that were cut off.
    obtain ⟨j, hj⟩ := Int.exists_eq_neg_ofNat h
    have hmul : d.digits = n * 10 ^ j := by
      rw [value, hj, zpow_neg, zpow_natCast, ← div_eq_mul_inv, div_eq_iff (by positivity)] at hvalue
      exact_mod_cast hvalue
    rw [hmul, toDigits_mul_pow hn] at hk
    have hle : j ≤ k := by
      by_contra hlt
      obtain ⟨i, rfl⟩ := Nat.exists_eq_add_of_lt (not_le.mp hlt)
      rw [show k + i + 1 = i + 1 + k by omega, ← List.replicate_append_replicate, ← List.append_assoc,
        List.append_cancel_right_eq] at hk
      refine d.getLast_significant ?_
      rw [← hk, List.replicate_succ', ← List.append_assoc, List.getLast?_concat]
    obtain ⟨m, rfl⟩ := Nat.exists_eq_add_of_le' hle
    rw [← List.replicate_append_replicate, ← List.append_assoc, List.append_cancel_right_eq] at hk
    refine ⟨m, hk, ?_⟩
    rw [hpoint, hj]
    push_cast
    ring

theorem placed_of_value {d : Decimal} {n : ℕ} (hn : 0 < n) (hvalue : d.value = n) :
    NumberFormat.placed [] d.significant d.point = Nat.toDigits 10 n := by
  obtain ⟨m, hm, hpoint⟩ := d.toDigits_of_value hn hvalue
  have hdigits : d.digits ≠ 0 := by
    intro hzero
    rw [value, hzero, Nat.cast_zero, zero_mul] at hvalue
    exact hn.ne (by exact_mod_cast hvalue)
  rw [hm, hpoint, placed_whole (d.significant_ne_nil hdigits)]

end Decimal

/-! ## The text of a number -/

namespace NumberFormat

variable {format : NumberFormat} {zeros : ℕ} {x : Binary64}

theorem unsigned_value (hend : FractionText (List.replicate zeros '0') format.wholeEnd)
    (hzero : x.isZero = false) (hdigits : (x.shortest format.tie).digits ≠ 0) :
    ∃ whole fraction power, UnsignedText whole fraction power (format.unsigned x) ∧
      (digitsValue (whole ++ fraction) * 10 ^ (power - fraction.length) : ℚ) =
        (x.shortest format.tie).value := by
  generalize hdecimal : x.shortest format.tie = d at hdigits ⊢
  have hsignificant : Digits d.significant := ⟨d.significant_ne_nil hdigits, d.significant_isDigit⟩
  have hhead := d.head_significant_ne_zero hdigits
  unfold unsigned
  simp only [hzero, hdecimal, Bool.false_eq_true, if_false]
  rw [d.value_eq]
  split
  · obtain ⟨whole, fraction, htext, hvalue⟩ := placedText_placed hsignificant hhead hend d.point
    refine ⟨whole, fraction, 0, htext, ?_⟩
    rw [zero_sub, hvalue]
  · obtain ⟨whole, fraction, htext, hall, hone⟩ :=
      scientific_unsigned hsignificant hhead (d.point - 1)
    refine ⟨whole, fraction, _, htext, ?_⟩
    have hlength : d.point - 1 - (fraction.length : ℤ) = d.point - d.significant.length := by
      rw [← hall, List.length_append, hone]
      push_cast
      ring
    rw [hall, hlength]

theorem unsigned_magnitude (hend : FractionText (List.replicate zeros '0') format.wholeEnd)
    (hfinite : x.isFinite) :
    ∃ whole fraction power, UnsignedText whole fraction power (format.unsigned x) ∧
      Binary64.magnitudeOfDecimal (digitsValue (whole ++ fraction)) (power - fraction.length) =
        x.magnitude := by
  cases hzero : x.isZero with
  | true =>
    have hmagnitude : x.magnitude = 0 := of_decide_eq_true hzero
    have htext : format.unsigned x = ['0'] ++ format.wholeEnd := by
      unfold unsigned
      rw [hzero]
      rfl
    have hvalue : digitsValue (['0'] ++ List.replicate zeros '0') = 0 :=
      digitsValue_replicate_zero (zeros + 1)
    refine ⟨['0'], List.replicate zeros '0', 0, ?_, ?_⟩
    · rw [htext]
      exact .positional (digits_zeros one_pos) (fun _ => rfl) hend
    · rw [hvalue, hmagnitude]
      rfl
  | false =>
    have hreads := Binary64.shortest_readsBack format.tie hfinite hzero
    have hdigits := hreads.digits_ne_zero (of_decide_eq_false hzero)
    obtain ⟨whole, fraction, power, htext, hvalue⟩ := unsigned_value hend hzero hdigits
    refine ⟨whole, fraction, power, htext, ?_⟩
    have hne : digitsValue (whole ++ fraction) ≠ 0 := by
      intro h
      rw [h, Nat.cast_zero, zero_mul, Decimal.value] at hvalue
      have : (0 : ℚ) < (x.shortest format.tie).digits := by exact_mod_cast Nat.pos_of_ne_zero hdigits
      have : (0 : ℚ) < (x.shortest format.tie).digits * 10 ^ (x.shortest format.tie).exponent := by
        positivity
      linarith
    rw [Binary64.magnitudeOfDecimal_eq hne, hvalue]
    exact (Decimal.readsBack_iff hdigits).mp hreads

/-- A finite number is written as a numeral that has its value, without a plus sign and without zeros
before other digits. -/
theorem write_numeral (hend : FractionText (List.replicate zeros '0') format.wholeEnd)
    (hfinite : x.isFinite) : ∃ n, NumeralText n (format.write x) ∧ n.value = x ∧
      (format.write x).head? ≠ some '+' ∧ (n.whole.head? = some '0' → n.whole = ['0']) := by
  obtain ⟨whole, fraction, power, htext, hmagnitude⟩ := unsigned_magnitude hend hfinite
  have hvalue : (⟨x.negative, whole, fraction, power⟩ : Numeral).value = x := by
    rw [Numeral.value, Binary64.ofDecimal, hmagnitude]
  refine ⟨⟨x.negative, whole, fraction, power⟩, ?_, hvalue, ?_, htext.no_zeros⟩
  · unfold write
    cases x.negative with
    | true => exact htext.numeralText .minus
    | false => exact htext.numeralText .none
  · unfold write
    cases x.negative with
    | true => simp
    | false => exact htext.head_ne_plus

end NumberFormat

namespace Expr

theorem numberText_of_isFinite {x : Binary64} (h : x.isFinite) :
    numberText x = numberFormat.write x := by
  have hnan : x.isNaN = false := by
    rw [Binary64.isNaN, decide_eq_false_iff_not]
    rw [Binary64.isFinite, decide_eq_true_iff] at h
    omega
  rw [numberText, hnan, h]
  rfl

theorem unsigned_of_not_isZero {x : Binary64} (h : x.isZero = false) :
    numberFormat.unsigned x =
      NumberFormat.placed [] (x.shortest .away).significant (x.shortest .away).point := by
  rw [NumberFormat.unsigned, h]
  rfl

theorem numberText_numeral {x : Binary64} (hfinite : x.isFinite) :
    ∃ n, NumeralText n (numberText x) ∧ n.value = x := by
  rw [numberText_of_isFinite hfinite]
  obtain ⟨n, htext, hvalue, -⟩ := @NumberFormat.write_numeral numberFormat 0 x .none hfinite
  exact ⟨n, htext, hvalue⟩

theorem numberText_natCast {n : ℕ} (hn : 2 * n < 2 ^ 53) (negative : Bool) :
    numberText (.ofDecimal negative n 0) =
      if negative then '-' :: Nat.toDigits 10 n else Nat.toDigits 10 n := by
  have hunsigned : numberFormat.unsigned (.ofDecimal negative n 0) = Nat.toDigits 10 n := by
    rcases Nat.eq_zero_or_pos n with rfl | hpos
    · rfl
    · have hmagnitude := Binary64.magnitude_ofDecimal_natCast hpos negative
      have hexact := Binary64.isExact_natCast hpos (by omega)
      rw [unsigned_of_not_isZero (Binary64.isZero_of_isExact hexact hmagnitude)]
      exact Decimal.placed_of_value hpos (Binary64.shortest_value_of_natCast hpos hn hmagnitude _)
  rw [numberText_of_isFinite (Binary64.isFinite_ofDecimal_natCast (by omega) negative),
    NumberFormat.write, hunsigned]
  rfl

end Expr
end HandlerScript
