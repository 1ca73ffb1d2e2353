import HandlerScript.Number.Binary64
import Mathlib

/-!
# Rounding, over the rationals

Rounding works on pairs of natural numbers and takes short cuts. Here it is stated for a positive
rational, so that two ways to write one number are rounded alike.
-/

namespace HandlerScript

/-! ## Powers and logarithms -/

theorem zpow_eq_div {b : ℚ} (hb : b ≠ 0) (k : ℤ) : b ^ k = b ^ k.toNat / b ^ (-k).toNat := by
  rw [← zpow_natCast, ← zpow_natCast, ← zpow_sub₀ hb]
  congr 1
  omega

theorem log_eq_of_bounds {q : ℚ} {k : ℤ} (hlow : 2 ^ k ≤ q) (hhigh : q < 2 ^ (k + 1)) :
    Int.log 2 q = k := by
  have hq : 0 < q := lt_of_lt_of_le (by positivity) hlow
  have hle : k ≤ Int.log 2 q := (Int.zpow_le_iff_le_log one_lt_two hq).mp (by exact_mod_cast hlow)
  have hlt : Int.log 2 q < k + 1 :=
    (Int.lt_zpow_iff_log_lt one_lt_two hq).mp (by exact_mod_cast hhigh)
  omega

theorem floorLog2_eq {n d : ℕ} (hn : 0 < n) (hd : 0 < d) :
    floorLog2 n d = Int.log 2 (n / d : ℚ) := by
  have hlown : ((2 ^ n.log2 : ℕ) : ℚ) ≤ n := by exact_mod_cast Nat.log2_self_le hn.ne'
  have hhighn : (n : ℚ) < (2 ^ (n.log2 + 1) : ℕ) := by exact_mod_cast Nat.lt_log2_self
  have hlowd : ((2 ^ d.log2 : ℕ) : ℚ) ≤ d := by exact_mod_cast Nat.log2_self_le hd.ne'
  have hhighd : (d : ℚ) < (2 ^ (d.log2 + 1) : ℕ) := by exact_mod_cast Nat.lt_log2_self
  have hd' : (0 : ℚ) < d := by exact_mod_cast hd
  push_cast at hlown hhighn hlowd hhighd
  have hpow : ∀ a b : ℕ, (2 : ℚ) ^ ((a : ℤ) - b) = 2 ^ a / 2 ^ b := by
    intro a b
    rw [zpow_sub₀ two_ne_zero, zpow_natCast, zpow_natCast]
  have hlow : (2 : ℚ) ^ ((n.log2 : ℤ) - d.log2 - 1) ≤ n / d := by
    have := hpow n.log2 (d.log2 + 1)
    push_cast at this
    rw [sub_sub, this]
    exact div_le_div₀ (by positivity) hlown hd' hhighd.le
  have hhigh : (n / d : ℚ) < 2 ^ ((n.log2 : ℤ) - d.log2 + 1) := by
    have := hpow (n.log2 + 1) d.log2
    push_cast at this
    rw [show (n.log2 : ℤ) - d.log2 + 1 = n.log2 + 1 - d.log2 by ring, this]
    exact div_lt_div₀ hhighn hlowd (by positivity) (by positivity)
  have htest : ∀ k : ℤ, d * 2 ^ k.toNat ≤ n * 2 ^ (-k).toNat ↔ (2 : ℚ) ^ k ≤ n / d := by
    intro k
    rw [zpow_eq_div two_ne_zero, div_le_div_iff₀ (by positivity) hd', ← @Nat.cast_le ℚ]
    push_cast
    rw [mul_comm]
  rw [floorLog2]
  split
  · next h => exact (log_eq_of_bounds ((htest _).mp h) hhigh).symm
  · next h =>
    refine (log_eq_of_bounds hlow ?_).symm
    rw [sub_add_cancel]
    exact not_le.mp (mt (htest _).mpr h)

/-! ## Half to even -/

/-- The nearest natural number; a half goes to the even neighbour. -/
def halfEven (q : ℚ) : ℕ :=
  if q - ⌊q⌋₊ < 1 / 2 then ⌊q⌋₊
  else if 1 / 2 < q - ⌊q⌋₊ then ⌊q⌋₊ + 1
  else ⌊q⌋₊ + ⌊q⌋₊ % 2

theorem roundHalfEven_eq (n : ℕ) {d : ℕ} (hd : 0 < d) : roundHalfEven n d = halfEven (n / d) := by
  have hd' : (0 : ℚ) < d := by exact_mod_cast hd
  have hrest : (n / d : ℚ) - (n / d : ℕ) = (n % d : ℕ) / d := by
    have hdiv : (n : ℚ) = d * (n / d : ℕ) + (n % d : ℕ) := by exact_mod_cast (Nat.div_add_mod n d).symm
    rw [eq_div_iff hd'.ne', sub_mul, div_mul_cancel₀ _ hd'.ne']
    linarith
  have hless : ((n % d : ℕ) / d : ℚ) < 1 / 2 ↔ 2 * (n % d) < d := by
    rw [div_lt_div_iff₀ hd' two_pos, one_mul, mul_comm, ← @Nat.cast_lt ℚ]
    push_cast
    rfl
  have hmore : (1 / 2 : ℚ) < (n % d : ℕ) / d ↔ d < 2 * (n % d) := by
    rw [div_lt_div_iff₀ two_pos hd', one_mul, mul_comm, ← @Nat.cast_lt ℚ]
    push_cast
    rfl
  simp only [roundHalfEven, halfEven, Nat.floor_div_eq_div, hrest, hless, hmore]

@[simp] theorem halfEven_natCast (n : ℕ) : halfEven n = n := by
  simp [halfEven]

theorem floor_le_halfEven (q : ℚ) : ⌊q⌋₊ ≤ halfEven q := by
  unfold halfEven
  split_ifs <;> omega

theorem halfEven_eq_zero {q : ℚ} (hhalf : q < 1 / 2) : halfEven q = 0 := by
  have hfloor : ⌊q⌋₊ = 0 := Nat.floor_eq_zero.mpr (by linarith)
  rw [halfEven, hfloor, if_pos (by simpa using hhalf)]

/-! ## Magnitudes -/

namespace Binary64

/-- The unit of the magnitudes around a positive number: two to this power. -/
def unitAt (q : ℚ) : ℤ := max (-1074) (Int.log 2 q - 52)

/-- The magnitude nearest to a positive number. -/
def nearest (q : ℚ) : BitVec 63 :=
  BitVec.ofNat 63
    (min ((unitAt q + 1074).toNat * 2 ^ 52 + halfEven (q / 2 ^ unitAt q)) infiniteMagnitude)

theorem magnitudeOfRatio_eq {n d : ℕ} (hn : 0 < n) (hd : 0 < d) :
    magnitudeOfRatio n d = nearest (n / d) := by
  have hunits : ∀ k : ℤ, roundHalfEven (n * 2 ^ (-k).toNat) (d * 2 ^ k.toNat) =
      halfEven (n / d / 2 ^ k) := by
    intro k
    rw [roundHalfEven_eq _ (by positivity), zpow_eq_div two_ne_zero]
    push_cast
    congr 1
    field_simp
  simp only [magnitudeOfRatio, floorLog2_eq hn hd, hunits, nearest, unitAt]

theorem nearest_of_large {q : ℚ} (h : 2 ^ (1024 : ℤ) ≤ q) :
    nearest q = BitVec.ofNat 63 infiniteMagnitude := by
  have hq : 0 < q := lt_of_lt_of_le (by positivity) h
  have hlog : 1024 ≤ Int.log 2 q :=
    (Int.zpow_le_iff_le_log one_lt_two hq).mp (by rwa [Nat.cast_ofNat])
  have hunit : unitAt q = Int.log 2 q - 52 := max_eq_right (by omega)
  have hfloor : 2 ^ 52 ≤ ⌊q / 2 ^ unitAt q⌋₊ := by
    apply Nat.le_floor
    rw [hunit, le_div_iff₀ (by positivity)]
    calc ((2 ^ 52 : ℕ) : ℚ) * 2 ^ (Int.log 2 q - 52) = 2 ^ Int.log 2 q := by
          rw [zpow_sub₀ two_ne_zero]
          push_cast
          field_simp
      _ ≤ q := by exact_mod_cast Int.zpow_log_le_self one_lt_two hq
  have hround := floor_le_halfEven (q / 2 ^ unitAt q)
  rw [nearest, min_eq_right]
  unfold infiniteMagnitude
  omega

theorem nearest_of_small {q : ℚ} (hq : 0 < q) (h : q < 2 ^ (-1075 : ℤ)) : nearest q = 0 := by
  have hlog : Int.log 2 q < -1075 :=
    (Int.lt_zpow_iff_log_lt one_lt_two hq).mp (by exact_mod_cast h)
  have hunit : unitAt q = -1074 := max_eq_left (by omega)
  have hround : halfEven (q / 2 ^ unitAt q) = 0 := by
    rw [hunit]
    refine halfEven_eq_zero ?_
    rw [div_lt_iff₀ (by positivity)]
    calc q < 2 ^ (-1 + -1074 : ℤ) := h
      _ = 1 / 2 * 2 ^ (-1074 : ℤ) := by rw [zpow_add₀ two_ne_zero, zpow_neg_one, one_div]
  rw [nearest, hround, hunit]
  rfl

theorem two_zpow_le_ten_zpow : (2 : ℚ) ^ (1024 : ℤ) ≤ 10 ^ (309 : ℤ) := by
  have h : 2 ^ 1024 ≤ 10 ^ 309 := by decide +kernel
  exact_mod_cast h

theorem two_mul_ten_zpow_lt : 2 * (10 : ℚ) ^ (-325 : ℤ) < 2 ^ (-1075 : ℤ) := by
  have h : (2 : ℚ) * 2 ^ 1075 < 10 ^ 325 := by
    have : 2 * 2 ^ 1075 < 10 ^ 325 := by decide +kernel
    exact_mod_cast this
  rw [zpow_neg, zpow_neg, ← div_eq_mul_inv, div_lt_iff₀ (by positivity), ← div_eq_inv_mul,
    lt_div_iff₀ (by positivity)]
  exact_mod_cast h

/-- The short cuts of rounding a decimal change nothing. -/
theorem magnitudeOfDecimal_eq {digits : ℕ} (hdigits : digits ≠ 0) (exponent : ℤ) :
    magnitudeOfDecimal digits exponent = nearest (digits * 10 ^ exponent) := by
  have hpos : (1 : ℚ) ≤ digits := by exact_mod_cast Nat.one_le_iff_ne_zero.mpr hdigits
  rw [magnitudeOfDecimal, if_neg hdigits]
  split_ifs with hlarge hsmall
  · refine (nearest_of_large ?_).symm
    calc (2 : ℚ) ^ (1024 : ℤ) ≤ 10 ^ (309 : ℤ) := two_zpow_le_ten_zpow
      _ ≤ 10 ^ exponent := zpow_le_zpow_right₀ (by norm_num) hlarge
      _ ≤ digits * 10 ^ exponent := le_mul_of_one_le_left (by positivity) hpos
  · refine (nearest_of_small (by positivity) ?_).symm
    have hlog : (digits : ℚ) < 2 ^ (digits.log2 + 1) := by exact_mod_cast Nat.lt_log2_self
    have hexponent : (10 : ℚ) ^ exponent ≤ 10 ^ (-325 : ℤ) / 2 ^ digits.log2 := by
      calc (10 : ℚ) ^ exponent ≤ 10 ^ (-325 - digits.log2 : ℤ) :=
            zpow_le_zpow_right₀ (by norm_num) (by omega)
        _ = 10 ^ (-325 : ℤ) / 10 ^ digits.log2 := by
            rw [zpow_sub₀ (by norm_num), zpow_natCast]
        _ ≤ 10 ^ (-325 : ℤ) / 2 ^ digits.log2 := by gcongr; norm_num
    calc (digits : ℚ) * 10 ^ exponent
        < 2 ^ (digits.log2 + 1) * 10 ^ exponent := by gcongr
      _ ≤ 2 ^ (digits.log2 + 1) * (10 ^ (-325 : ℤ) / 2 ^ digits.log2) := by gcongr
      _ = 2 * 10 ^ (-325 : ℤ) := by rw [pow_succ]; field_simp
      _ < 2 ^ (-1075 : ℤ) := two_mul_ten_zpow_lt
  · rw [magnitudeOfRatio_eq (by positivity) (by positivity), zpow_eq_div (by norm_num)]
    push_cast
    rw [mul_div_assoc]

end Binary64
end HandlerScript
