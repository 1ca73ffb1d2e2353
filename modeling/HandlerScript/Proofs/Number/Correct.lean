import HandlerScript.Proofs.Number.Exact

/-!
# Rounding is to the nearest

Among all finite values the one that a decimal is rounded to is the nearest, and where two are equally
near it is the one with the even significand. From halfway past the greatest finite value on, rounding
gives no finite value.
-/

namespace HandlerScript

/-! ## Half to even -/

section

variable {q : ℚ}

theorem abs_sub_halfEven_le (hq : 0 ≤ q) : |q - halfEven q| ≤ 1 / 2 := by
  have hfloor := Nat.floor_le hq
  have hnext := Nat.lt_floor_add_one q
  rw [abs_le]
  unfold halfEven
  split_ifs with hbelow habove
  · constructor <;> linarith
  · push_cast
    constructor <;> linarith
  · rcases Nat.mod_two_eq_zero_or_one ⌊q⌋₊ with hmod | hmod
    · rw [hmod]
      push_cast
      constructor <;> linarith
    · rw [hmod]
      push_cast
      constructor <;> linarith

theorem even_halfEven_of_half (hq : 0 ≤ q) (h : |q - halfEven q| = 1 / 2) : Even (halfEven q) := by
  have hfloor := Nat.floor_le hq
  have hnext := Nat.lt_floor_add_one q
  unfold halfEven at h ⊢
  split_ifs at h ⊢ with hbelow habove
  · rw [abs_of_nonneg (by linarith)] at h
    exact absurd h hbelow.ne
  · push_cast at h
    rw [abs_of_nonpos (by linarith)] at h
    linarith
  · rw [Nat.even_iff]
    omega

theorem half_le_abs_sub (hq : 0 ≤ q) {k : ℕ} (hk : k ≠ halfEven q) : 1 / 2 ≤ |q - k| := by
  have hnear := abs_sub_halfEven_le hq
  have hapart : (1 : ℚ) ≤ |(halfEven q : ℚ) - k| := by
    have hne : (halfEven q : ℤ) - k ≠ 0 := by omega
    exact_mod_cast Int.one_le_abs hne
  have htriangle := abs_sub_le (halfEven q : ℚ) q k
  rw [abs_sub_comm (halfEven q : ℚ) q] at htriangle
  linarith

theorem halfEven_nearest (hq : 0 ≤ q) (k : ℕ) : |q - halfEven q| ≤ |q - k| := by
  by_cases hk : k = halfEven q
  · rw [hk]
  · exact (abs_sub_halfEven_le hq).trans (half_le_abs_sub hq hk)

theorem even_halfEven_of_tie (hq : 0 ≤ q) {k : ℕ} (hk : k ≠ halfEven q)
    (htie : |q - k| = |q - halfEven q|) : Even (halfEven q) := by
  have hhalf := half_le_abs_sub hq hk
  rw [htie] at hhalf
  exact even_halfEven_of_half hq (le_antisymm (abs_sub_halfEven_le hq) hhalf)

theorem not_even_of_tie (hq : 0 ≤ q) {k : ℕ} (hk : k ≠ halfEven q)
    (htie : |q - k| = |q - halfEven q|) : ¬ Even k := by
  have heven := even_halfEven_of_tie hq hk htie
  have hnear := abs_sub_halfEven_le hq
  have hother := hnear
  rw [← htie] at hother
  rw [abs_le] at hnear hother
  have hle : (k : ℚ) ≤ (halfEven q + 1 : ℕ) := by
    push_cast
    linarith
  have hge : (halfEven q : ℚ) ≤ (k + 1 : ℕ) := by
    push_cast
    linarith
  rw [Nat.cast_le] at hle hge
  rw [Nat.even_iff] at *
  omega

theorem halfEven_lt_iff (hq : 0 ≤ q) {n : ℕ} (hn : Even n) :
    halfEven q < n ↔ q < n - 1 / 2 := by
  have hnear := abs_le.mp (abs_sub_halfEven_le hq)
  constructor
  · intro hlt
    have hle : (halfEven q : ℚ) + 1 ≤ n := by exact_mod_cast hlt
    by_contra hge
    rw [not_lt] at hge
    have hhalf : |q - halfEven q| = 1 / 2 := by
      rw [abs_of_nonneg (by linarith)]
      linarith
    have heq : halfEven q + 1 = n := by
      have : (halfEven q : ℚ) + 1 = n := by linarith
      exact_mod_cast this
    have heven := even_halfEven_of_half hq hhalf
    rw [← heq] at hn
    exact absurd heven (Nat.even_add_one.mp hn)
  · intro hlt
    have : (halfEven q : ℚ) < n := by linarith
    exact_mod_cast this

end

namespace Binary64

/-! ## Units -/

section

variable {q : ℚ}

theorem le_unitAt (q : ℚ) : -1074 ≤ unitAt q := le_max_left _ _

theorem lt_two_zpow_unitAt (hq : 0 < q) : q < 2 ^ (unitAt q + 53) := by
  have hlog : Int.log 2 q < unitAt q + 53 := by
    have := le_max_right (-1074) (Int.log 2 q - 52)
    rw [unitAt]
    omega
  exact_mod_cast (Int.lt_zpow_iff_log_lt one_lt_two hq).mpr hlog

theorem two_zpow_unitAt_le (hq : 0 < q) (h : -1074 < unitAt q) : 2 ^ (unitAt q + 52) ≤ q := by
  have hlog : unitAt q + 52 ≤ Int.log 2 q := by
    rw [unitAt] at *
    omega
  exact_mod_cast (Int.zpow_le_iff_le_log one_lt_two hq).mpr hlog

theorem two_pow_mul_zpow (k : ℕ) (u : ℤ) : (2 : ℚ) ^ k * 2 ^ u = 2 ^ (u + k) := by
  rw [zpow_add₀ two_ne_zero, zpow_natCast, mul_comm]

/-- How many units the nearest value holds. -/
def unitsNear (q : ℚ) : ℕ := halfEven (q / 2 ^ unitAt q)

/-- The nearest value. -/
def rounded (q : ℚ) : ℚ := unitsNear q * 2 ^ unitAt q

theorem div_unit_nonneg (hq : 0 < q) : 0 ≤ q / 2 ^ unitAt q := by positivity

theorem div_unit_lt (hq : 0 < q) : q / 2 ^ unitAt q < 2 ^ 53 := by
  rw [div_lt_iff₀ (by positivity)]
  calc q < 2 ^ (unitAt q + 53) := lt_two_zpow_unitAt hq
    _ = 2 ^ 53 * 2 ^ unitAt q := (two_pow_mul_zpow 53 _).symm

theorem le_div_unit (hq : 0 < q) (h : -1074 < unitAt q) : 2 ^ 52 ≤ q / 2 ^ unitAt q := by
  rw [le_div_iff₀ (by positivity)]
  calc (2 : ℚ) ^ 52 * 2 ^ unitAt q = 2 ^ (unitAt q + 52) := two_pow_mul_zpow 52 _
    _ ≤ q := two_zpow_unitAt_le hq h

theorem unitsNear_le (hq : 0 < q) : unitsNear q ≤ 2 ^ 53 := by
  have hnear := abs_le.mp (abs_sub_halfEven_le (div_unit_nonneg hq))
  have hlt := div_unit_lt hq
  have hcast : (unitsNear q : ℚ) < (2 ^ 53 + 1 : ℕ) := by
    rw [unitsNear]
    push_cast
    linarith
  exact Nat.lt_succ_iff.mp (by exact_mod_cast hcast)

theorem le_unitsNear (hq : 0 < q) (h : -1074 < unitAt q) : 2 ^ 52 ≤ unitsNear q := by
  have hfloor : 2 ^ 52 ≤ ⌊q / 2 ^ unitAt q⌋₊ := Nat.le_floor (by exact_mod_cast le_div_unit hq h)
  exact hfloor.trans (floor_le_halfEven _)

/-! ## The nearest among all values -/

theorem absValue_cases (x : Binary64) {u : ℤ} (hu : -1074 ≤ u) :
    (∃ k : ℕ, x.absValue = k * 2 ^ u ∧ (Even x.significand → Even k)) ∨
      -1074 < u ∧ x.absValue < 2 ^ (u + 52) := by
  have hparts : x.significand < 2 ^ 53 ∧ -1074 ≤ x.unitExponent := by
    obtain ⟨hm, hs, hu⟩ | ⟨hm, hs, hu⟩ := x.parts_cases <;> omega
  obtain ⟨hsignificand, hexponent⟩ := hparts
  rcases le_or_gt u x.unitExponent with hle | hlt
  · obtain ⟨k, hk⟩ := Int.le.dest hle
    refine .inl ⟨x.significand * 2 ^ k, ?_, fun heven => heven.mul_right _⟩
    rw [absValue, ← hk, zpow_add₀ two_ne_zero]
    push_cast
    rw [zpow_natCast]
    ring
  · refine .inr ⟨by omega, ?_⟩
    have hcast : (x.significand : ℚ) < 2 ^ 53 := by exact_mod_cast hsignificand
    calc x.absValue < 2 ^ 53 * 2 ^ x.unitExponent := by
          rw [absValue]
          gcongr
      _ = 2 ^ (x.unitExponent + 53) := two_pow_mul_zpow 53 _
      _ ≤ 2 ^ (u + 52) := zpow_le_zpow_right₀ one_le_two (by omega)

theorem abs_sub_mul_unit (q : ℚ) (k : ℕ) :
    |q - k * 2 ^ unitAt q| = |q / 2 ^ unitAt q - k| * 2 ^ unitAt q := by
  have hunit : (0 : ℚ) < 2 ^ unitAt q := by positivity
  rw [← abs_of_pos hunit, ← abs_mul, abs_of_pos hunit, sub_mul, div_mul_cancel₀ _ hunit.ne']

theorem abs_sub_rounded_le (hq : 0 < q) (k : ℕ) : |q - rounded q| ≤ |q - k * 2 ^ unitAt q| := by
  rw [rounded, abs_sub_mul_unit, abs_sub_mul_unit]
  exact mul_le_mul_of_nonneg_right (halfEven_nearest (div_unit_nonneg hq) k) (by positivity)

theorem abs_sub_rounded_lt (hq : 0 < q) (h : -1074 < unitAt q) {y : ℚ}
    (hy : y < 2 ^ (unitAt q + 52)) : |q - rounded q| < |q - y| := by
  have hle := two_zpow_unitAt_le hq h
  have hleast := abs_sub_rounded_le hq (2 ^ 52)
  have hpow : ((2 ^ 52 : ℕ) : ℚ) * 2 ^ unitAt q = 2 ^ (unitAt q + 52) := by
    rw [Nat.cast_pow]
    exact two_pow_mul_zpow 52 _
  rw [hpow, abs_of_nonneg (by linarith : 0 ≤ q - 2 ^ (unitAt q + 52))] at hleast
  rw [abs_of_nonneg (by linarith : 0 ≤ q - y)]
  linarith

theorem rounded_nearest (hq : 0 < q) (x : Binary64) : |q - rounded q| ≤ |q - x.absValue| := by
  rcases x.absValue_cases (le_unitAt q) with ⟨k, hk, -⟩ | ⟨hunit, hbelow⟩
  · rw [hk]
    exact abs_sub_rounded_le hq k
  · exact (abs_sub_rounded_lt hq hunit hbelow).le

theorem exists_units_of_tie (hq : 0 < q) {x : Binary64} (hne : x.absValue ≠ rounded q)
    (htie : |q - x.absValue| = |q - rounded q|) :
    ∃ k, k ≠ unitsNear q ∧ |q / 2 ^ unitAt q - k| = |q / 2 ^ unitAt q - unitsNear q| ∧
      (Even x.significand → Even k) := by
  rcases x.absValue_cases (le_unitAt q) with ⟨k, hk, heven⟩ | ⟨hunit, hbelow⟩
  · have hunits : k ≠ unitsNear q := by
      rintro rfl
      exact hne hk
    rw [hk, rounded, abs_sub_mul_unit, abs_sub_mul_unit] at htie
    have hpos : (0 : ℚ) < 2 ^ unitAt q := by positivity
    exact ⟨k, hunits, mul_right_cancel₀ hpos.ne' htie, heven⟩
  · exact absurd htie (abs_sub_rounded_lt hq hunit hbelow).ne'

theorem even_unitsNear_of_tie (hq : 0 < q) {x : Binary64} (hne : x.absValue ≠ rounded q)
    (htie : |q - x.absValue| = |q - rounded q|) : Even (unitsNear q) := by
  obtain ⟨k, hunits, hunitsTie, -⟩ := exists_units_of_tie hq hne htie
  exact even_halfEven_of_tie (div_unit_nonneg hq) hunits hunitsTie

/-! ## The magnitude of the nearest value -/

variable {x : Binary64}

theorem toNat_nearest (q : ℚ) : (nearest q).toNat =
    min ((unitAt q + 1074).toNat * 2 ^ 52 + unitsNear q) (2047 * 2 ^ 52) := by
  rw [nearest, BitVec.toNat_ofNat, infiniteMagnitude, unitsNear]
  exact Nat.mod_eq_of_lt (lt_of_le_of_lt (min_le_right _ _) (by norm_num))

/-- A significand that rounds up to the next power of two carries, and is even. -/
theorem absValue_of_nearest (hq : 0 < q) (hx : x.magnitude = nearest q) (hfinite : x.isFinite) :
    x.absValue = rounded q ∧ (Even (unitsNear q) → Even x.significand) := by
  have hle := unitsNear_le hq
  have hge := le_unitsNear hq
  have hlow := le_unitAt q
  have hm := toNat_nearest q
  rw [isFinite_iff, hx] at hfinite
  rw [absValue, rounded]
  have hparts := x.parts_cases
  rw [hx] at hparts
  by_cases hcarry : unitsNear q = 2 ^ 53
  · obtain ⟨hs, hu⟩ : x.significand = 2 ^ 52 ∧ x.unitExponent = unitAt q + 1 := by
      obtain ⟨hm, hs, hu⟩ | ⟨hm, hs, hu⟩ := hparts <;> omega
    rw [hs, hu, hcarry, zpow_add₀ two_ne_zero]
    refine ⟨by push_cast; ring, fun _ => by decide⟩
  · obtain ⟨hs, hu⟩ : x.significand = unitsNear q ∧ x.unitExponent = unitAt q := by
      obtain ⟨hm, hs, hu⟩ | ⟨hm, hs, hu⟩ := hparts <;> omega
    rw [hs, hu]
    exact ⟨rfl, id⟩

theorem overflow_eq : (2 : ℚ) ^ 1024 - 2 ^ 970 = ((2 ^ 53 : ℕ) - 1 / 2) * 2 ^ (971 : ℤ) := by
  have hany : ∀ k : ℕ, (2 : ℚ) ^ (k + 54) - 2 ^ k = ((2 ^ 53 : ℕ) - 1 / 2) * 2 ^ ((k + 1 : ℕ) : ℤ) := by
    intro k
    rw [zpow_natCast]
    push_cast
    ring
  simpa only [Nat.reduceAdd, Nat.cast_ofNat] using hany 970

theorem isFinite_nearest_iff (hq : 0 < q) (hx : x.magnitude = nearest q) :
    x.isFinite ↔ q < 2 ^ 1024 - 2 ^ 970 := by
  have hle := unitsNear_le hq
  have hlow := le_unitAt q
  have hpos : (0 : ℚ) < 2 ^ (971 : ℤ) := by positivity
  rw [isFinite_iff, hx, toNat_nearest, overflow_eq]
  rcases lt_trichotomy (unitAt q) 971 with hunit | hunit | hunit
  · have hlt : q < 2 ^ 52 * 2 ^ (971 : ℤ) := by
      calc q < 2 ^ (unitAt q + 53) := lt_two_zpow_unitAt hq
        _ ≤ 2 ^ (971 + 52 : ℤ) := zpow_le_zpow_right₀ one_le_two (by omega)
        _ = 2 ^ 52 * 2 ^ (971 : ℤ) := (two_pow_mul_zpow 52 971).symm
    have hbelow : (2 : ℚ) ^ 52 * 2 ^ (971 : ℤ) ≤ ((2 ^ 53 : ℕ) - 1 / 2) * 2 ^ (971 : ℤ) := by
      gcongr
      norm_num
    exact iff_of_true (by omega) (hlt.trans_le hbelow)
  · -- The greatest unit: the halfway point is where the units round up to the carry.
    have hcarry : unitsNear q < 2 ^ 53 ↔ q / 2 ^ unitAt q < (2 ^ 53 : ℕ) - 1 / 2 :=
      halfEven_lt_iff (div_unit_nonneg hq) (by decide)
    rw [div_lt_iff₀ (by positivity), hunit] at hcarry
    rw [← hcarry, hunit]
    omega
  · have hge := le_unitsNear hq (by omega)
    have hlarge : 2 ^ 53 * 2 ^ (971 : ℤ) ≤ q := by
      calc (2 : ℚ) ^ 53 * 2 ^ (971 : ℤ) = 2 ^ (971 + 53 : ℤ) := two_pow_mul_zpow 53 971
        _ ≤ 2 ^ (unitAt q + 52) := zpow_le_zpow_right₀ one_le_two (by omega)
        _ ≤ q := two_zpow_unitAt_le hq (by omega)
    have habove : ((2 ^ 53 : ℕ) - 1 / 2 : ℚ) * 2 ^ (971 : ℤ) ≤ 2 ^ 53 * 2 ^ (971 : ℤ) := by
      gcongr
      norm_num
    exact iff_of_false (by omega) (not_lt.mpr (habove.trans hlarge))

end

/-! ## Signed values -/

/-- The value of a finite number. -/
def value (x : Binary64) : ℚ := if x.negative then -x.absValue else x.absValue

/-- The finite number nearest to `q`. If another value is as near, its significand is even. -/
structure IsNearest (x : Binary64) (q : ℚ) : Prop where
  isFinite : x.isFinite
  nearest : ∀ y : Binary64, y.isFinite → |q - x.value| ≤ |q - y.value|
  even : ∀ y : Binary64, y.isFinite → y.value ≠ x.value → |q - y.value| = |q - x.value| →
    Even x.significand

theorem absValue_nonneg (x : Binary64) : 0 ≤ x.absValue := by
  rw [absValue]
  positivity

theorem abs_value (x : Binary64) : |x.value| = x.absValue := by
  rw [value]
  split
  · rw [abs_neg, abs_of_nonneg x.absValue_nonneg]
  · exact abs_of_nonneg x.absValue_nonneg

section

variable {x : Binary64} {q : ℚ}

theorem abs_sub_value (x : Binary64) (q : ℚ) :
    |(if x.negative then -q else q) - x.value| = |q - x.absValue| := by
  rw [value]
  split
  · rw [neg_sub_neg, abs_sub_comm]
  · rfl

theorem abs_sub_absValue_le (hq : 0 < q) (negative : Bool) (y : Binary64) :
    |q - y.absValue| ≤ |(if negative then -q else q) - y.value| := by
  have habs : |if negative then -q else q| = q := by
    split
    · rw [abs_neg, abs_of_pos hq]
    · exact abs_of_pos hq
  have hle := abs_abs_sub_abs_le (if negative then -q else q) y.value
  rwa [habs, abs_value] at hle

theorem value_eq_zero_of_tie {v : ℚ} (hq : q ≠ 0) (h : |q - -v| = |q - v|) : v = 0 := by
  rcases abs_eq_abs.mp h with heq | heq
  · linarith
  · exact absurd (by linarith) hq

theorem isNearest_of_nearest (hq : 0 < q) (hx : x.magnitude = nearest q)
    (hlimit : q < 2 ^ 1024 - 2 ^ 970) : x.IsNearest (if x.negative then -q else q) := by
  have hfinite := (isFinite_nearest_iff hq hx).mpr hlimit
  obtain ⟨habs, heven⟩ := absValue_of_nearest hq hx hfinite
  have hdistance := x.abs_sub_value q
  rw [habs] at hdistance
  refine ⟨hfinite, ?_, ?_⟩
  · intro y _
    rw [hdistance]
    exact (rounded_nearest hq y).trans (abs_sub_absValue_le hq x.negative y)
  · intro y _ hne htie
    have hle := abs_sub_absValue_le hq x.negative y
    rw [htie, hdistance] at hle
    have hties := le_antisymm hle (rounded_nearest hq y)
    by_cases hsame : y.absValue = rounded q
    · -- The other value has the other sign, so it is not as near.
      have hvalues : |y.value| = |x.value| := by rw [abs_value, abs_value, hsame, habs]
      have hneg := (abs_eq_abs.mp hvalues).resolve_left hne
      have hq' : (if x.negative then -q else q) ≠ 0 := by
        split
        · exact neg_ne_zero.mpr hq.ne'
        · exact hq.ne'
      rw [hneg] at htie hne
      have hzero := value_eq_zero_of_tie hq' htie
      rw [hzero, neg_zero] at hne
      exact absurd rfl hne
    · exact heven (even_unitsNear_of_tie hq hsame hties)

theorem absValue_eq_zero_iff (x : Binary64) : x.absValue = 0 ↔ x.magnitude = 0 := by
  have hsignificand : x.significand = 0 ↔ x.magnitude.toNat = 0 := by
    obtain ⟨hm, hs, -⟩ | ⟨hm, hs, -⟩ := x.parts_cases <;> omega
  rw [absValue, mul_eq_zero_iff_right (by positivity), Nat.cast_eq_zero, hsignificand,
    ← BitVec.toNat_inj]
  rfl

theorem magnitude_eq_of_absValue {y : Binary64} (hx : x.isFinite) (hy : y.isFinite)
    (h : x.absValue = y.absValue) : x.magnitude = y.magnitude := by
  by_cases hzero : x.magnitude = 0
  · rw [(absValue_eq_zero_iff x).mpr hzero] at h
    rw [hzero, (absValue_eq_zero_iff y).mp h.symm]
  · have hzero' : y.magnitude ≠ 0 := by rwa [ne_eq, ← absValue_eq_zero_iff, ← h, absValue_eq_zero_iff]
    rw [← nearest_absValue hx (decide_eq_false hzero), h, nearest_absValue hy (decide_eq_false hzero')]

theorem eq_of_absValue {y : Binary64} (hsign : y.negative = x.negative) (hx : x.isFinite)
    (hy : y.isFinite) (h : y.absValue = x.absValue) : y = x := by
  obtain ⟨negative, magnitude⟩ := y
  obtain rfl : negative = x.negative := hsign
  obtain rfl : magnitude = x.magnitude := magnitude_eq_of_absValue hy hx h
  rfl

theorem eq_of_isNearest {y : Binary64} (hq : 0 < q) (hx : x.magnitude = nearest q)
    (hlimit : q < 2 ^ 1024 - 2 ^ 970) (hsign : y.negative = x.negative)
    (h : y.IsNearest (if x.negative then -q else q)) : y = x := by
  have hnearest := isNearest_of_nearest hq hx hlimit
  obtain ⟨habs, -⟩ := absValue_of_nearest hq hx hnearest.isFinite
  have hdistance := x.abs_sub_value q
  have hdistance' := y.abs_sub_value q
  rw [hsign] at hdistance'
  have hties := le_antisymm (h.nearest x hnearest.isFinite) (hnearest.nearest y h.isFinite)
  refine eq_of_absValue hsign hnearest.isFinite h.isFinite ?_
  by_contra hne
  have heven : Even y.significand := by
    refine h.even x hnearest.isFinite (fun hvalue => hne ?_) hties.symm
    rw [← abs_value, ← abs_value, hvalue]
  rw [hdistance, hdistance', habs] at hties
  rw [habs] at hne
  obtain ⟨k, hunits, hunitsTie, hkeven⟩ := exists_units_of_tie hq hne hties
  exact not_even_of_tie (div_unit_nonneg hq) hunits hunitsTie (hkeven heven)

theorem isNearest_zero (hx : x.magnitude = 0) : x.IsNearest 0 := by
  have hvalue : x.value = 0 := by
    rw [← abs_eq_zero, abs_value, absValue_eq_zero_iff, hx]
  refine ⟨?_, ?_, ?_⟩
  · rw [isFinite, hx]
    rfl
  · intro y _
    rw [hvalue, sub_zero, abs_zero]
    exact abs_nonneg _
  · intro y _ hne htie
    rw [hvalue, sub_zero, abs_zero, abs_eq_zero, zero_sub, neg_eq_zero] at htie
    rw [htie, hvalue] at hne
    exact absurd rfl hne

theorem IsNearest.magnitude_eq_zero (h : x.IsNearest 0) : x.magnitude = 0 := by
  have hle := h.nearest ⟨false, 0⟩ rfl
  rw [zero_sub, zero_sub, abs_neg, abs_neg, abs_value, abs_value,
    (absValue_eq_zero_iff ⟨false, 0⟩).mpr rfl] at hle
  exact (absValue_eq_zero_iff x).mp (le_antisymm hle x.absValue_nonneg)

end

/-! ## Decimals -/

variable {digits : ℕ} {exponent : ℤ}

theorem isFinite_ofDecimal_iff (negative : Bool) :
    (ofDecimal negative digits exponent).isFinite ↔
      (digits * 10 ^ exponent : ℚ) < 2 ^ 1024 - 2 ^ 970 := by
  by_cases hdigits : digits = 0
  · subst hdigits
    refine iff_of_true rfl ?_
    rw [Nat.cast_zero, zero_mul, overflow_eq]
    refine mul_pos ?_ (by positivity)
    norm_num
  · exact isFinite_nearest_iff (by positivity) (magnitudeOfDecimal_eq hdigits exponent)

/-- The decimal is rounded to the one value with its sign that is the nearest. -/
theorem isNearest_iff_eq_ofDecimal {x : Binary64}
    (h : (digits * 10 ^ exponent : ℚ) < 2 ^ 1024 - 2 ^ 970) :
    x.IsNearest (if x.negative then -(digits * 10 ^ exponent) else digits * 10 ^ exponent) ↔
      x = ofDecimal x.negative digits exponent := by
  by_cases hdigits : digits = 0
  · subst hdigits
    rw [Nat.cast_zero, zero_mul, neg_zero, ite_self]
    constructor
    · intro hx
      rw [ofDecimal, magnitudeOfDecimal, if_pos rfl, ← hx.magnitude_eq_zero]
    · intro hx
      rw [hx]
      exact isNearest_zero rfl
  · have hmagnitude := magnitudeOfDecimal_eq hdigits exponent
    constructor
    · intro hx
      exact eq_of_isNearest (x := ofDecimal x.negative digits exponent) (by positivity)
        hmagnitude h rfl hx
    · intro hx
      exact isNearest_of_nearest (by positivity) ((congrArg magnitude hx).trans hmagnitude) h

end Binary64
end HandlerScript
