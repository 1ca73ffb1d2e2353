import HandlerScript.Number.Digits
import HandlerScript.Proofs.Number.Nearest

/-!
# Numbers that need no rounding

A finite magnitude is the nearest to its own value, and two values that are held exactly round to one
magnitude only if they are the same. So the shortest digits read back, and those of a whole number
that is held exactly are its own.
-/

namespace HandlerScript

/-- Fifty-three bits and a unit hold the number exactly. -/
def IsExact (q : ℚ) : Prop :=
  ∃ (n : ℕ) (u : ℤ), 0 < n ∧ n < 2 ^ 53 ∧ -1074 ≤ u ∧ u ≤ 971 ∧ (2 ^ 52 ≤ n ∨ u = -1074) ∧
    q = n * 2 ^ u

namespace Binary64

theorem unitAt_mul_zpow {n : ℕ} {u : ℤ} (hpos : 0 < n) (hlt : n < 2 ^ 53) (hlow : -1074 ≤ u)
    (hnormal : 2 ^ 52 ≤ n ∨ u = -1074) : unitAt (n * 2 ^ u) = u := by
  have hupper : ∀ k : ℕ, n < 2 ^ k → (n * 2 ^ u : ℚ) < 2 ^ (u + k) := by
    intro k hk
    have hk' : (n : ℚ) < 2 ^ k := by exact_mod_cast hk
    rw [zpow_add₀ two_ne_zero, mul_comm, zpow_natCast]
    gcongr
  by_cases hbit : 2 ^ 52 ≤ n
  · have hbit' : (2 : ℚ) ^ 52 ≤ n := by exact_mod_cast hbit
    have hlog : Int.log 2 (n * 2 ^ u : ℚ) = u + 52 := by
      refine log_eq_of_bounds ?_ ?_
      · rw [zpow_add₀ two_ne_zero, mul_comm]
        gcongr
        exact_mod_cast hbit'
      · rw [add_assoc]
        exact hupper 53 hlt
    rw [unitAt, hlog]
    omega
  · obtain rfl := hnormal.resolve_left hbit
    have hlog : Int.log 2 (n * 2 ^ (-1074 : ℤ) : ℚ) < -1022 := by
      refine (Int.lt_zpow_iff_log_lt one_lt_two (by positivity)).mp ?_
      rw [Nat.cast_ofNat]
      exact hupper 52 (by omega)
    rw [unitAt]
    omega

theorem nearest_mul_zpow {n : ℕ} {u : ℤ} (hunit : unitAt (n * 2 ^ u) = u) :
    nearest (n * 2 ^ u) =
      BitVec.ofNat 63 (min ((u + 1074).toNat * 2 ^ 52 + n) infiniteMagnitude) := by
  rw [nearest, hunit, mul_div_cancel_right₀ _ (by positivity), halfEven_natCast]

/-! ## Values of magnitudes -/

/-- The value of a finite number without its sign. -/
def absValue (x : Binary64) : ℚ := x.significand * 2 ^ x.unitExponent

theorem isFinite_iff (x : Binary64) : x.isFinite ↔ x.magnitude.toNat < 2047 * 2 ^ 52 := by
  rw [isFinite, infiniteMagnitude, decide_eq_true_iff]

theorem isZero_eq_false_iff (x : Binary64) : x.isZero = false ↔ 0 < x.magnitude.toNat := by
  rw [isZero, decide_eq_false_iff_not, ← BitVec.toNat_inj]
  exact Nat.pos_iff_ne_zero.symm

theorem parts_cases (x : Binary64) :
    (x.magnitude.toNat < 2 ^ 52 ∧ x.significand = x.magnitude.toNat ∧ x.unitExponent = -1074) ∨
      (2 ^ 52 ≤ x.magnitude.toNat ∧ x.significand = 2 ^ 52 + x.magnitude.toNat % 2 ^ 52 ∧
        x.unitExponent = (x.magnitude.toNat / 2 ^ 52 : ℕ) - 1075) := by
  unfold significand unitExponent
  generalize x.magnitude.toNat = m
  by_cases h : m < 2 ^ 52
  · refine .inl ⟨h, ?_, ?_⟩
    · rw [if_pos h, Nat.mod_eq_of_lt h]
    · rw [Nat.div_eq_of_lt h]
      rfl
  · have hdiv : 1 ≤ m / 2 ^ 52 := by omega
    refine .inr ⟨not_lt.mp h, if_neg h, ?_⟩
    rw [max_eq_left hdiv]

theorem isExact_absValue {x : Binary64} (hfinite : x.isFinite) (hzero : x.isZero = false) :
    IsExact x.absValue := by
  rw [isFinite_iff] at hfinite
  rw [isZero_eq_false_iff] at hzero
  refine ⟨x.significand, x.unitExponent, ?_, ?_, ?_, ?_, ?_, rfl⟩ <;>
    obtain ⟨hm, hs, hu⟩ | ⟨hm, hs, hu⟩ := x.parts_cases <;> omega

theorem toNat_nearest_mul_zpow {n : ℕ} {u : ℤ} (hpos : 0 < n) (hlt : n < 2 ^ 53) (hlow : -1074 ≤ u)
    (hhigh : u ≤ 971) (hnormal : 2 ^ 52 ≤ n ∨ u = -1074) :
    (nearest (n * 2 ^ u)).toNat = (u + 1074).toNat * 2 ^ 52 + n := by
  rw [nearest_mul_zpow (unitAt_mul_zpow hpos hlt hlow hnormal), BitVec.toNat_ofNat, infiniteMagnitude,
    min_eq_left (by omega), Nat.mod_eq_of_lt (by omega)]

theorem nearest_absValue {x : Binary64} (hfinite : x.isFinite) (hzero : x.isZero = false) :
    nearest x.absValue = x.magnitude := by
  rw [isFinite_iff] at hfinite
  rw [isZero_eq_false_iff] at hzero
  apply BitVec.eq_of_toNat_eq
  rw [absValue]
  obtain ⟨hm, hs, hu⟩ | ⟨hm, hs, hu⟩ := x.parts_cases
  · rw [toNat_nearest_mul_zpow] <;> omega
  · rw [toNat_nearest_mul_zpow] <;> omega

theorem nearest_injective_of_isExact {q q' : ℚ} (h : IsExact q) (h' : IsExact q')
    (heq : nearest q = nearest q') : q = q' := by
  obtain ⟨n, u, hpos, hlt, hlow, hhigh, hnormal, rfl⟩ := h
  obtain ⟨n', u', hpos', hlt', hlow', hhigh', hnormal', rfl⟩ := h'
  have hnat := congrArg BitVec.toNat heq
  rw [toNat_nearest_mul_zpow hpos hlt hlow hhigh hnormal,
    toNat_nearest_mul_zpow hpos' hlt' hlow' hhigh' hnormal'] at hnat
  obtain ⟨rfl, rfl⟩ : n = n' ∧ u = u' := by omega
  rfl

theorem nearest_ne_zero_of_isExact {q : ℚ} (h : IsExact q) : nearest q ≠ 0 := by
  obtain ⟨n, u, hpos, hlt, hlow, hhigh, hnormal, rfl⟩ := h
  rw [← BitVec.toNat_ne_iff_ne, toNat_nearest_mul_zpow hpos hlt hlow hhigh hnormal]
  simp
  omega

theorem isExact_natCast {n : ℕ} (hpos : 0 < n) (hlt : n < 2 ^ 53) : IsExact n := by
  have hlow := Nat.log2_self_le hpos.ne'
  have hhigh := @Nat.lt_log2_self n
  have hlog : n.log2 < 53 := (Nat.log2_lt hpos.ne').mpr hlt
  have hscale : 2 ^ (52 - n.log2) * 2 ^ n.log2 = 2 ^ 52 := by
    rw [← pow_add]
    congr 1
    omega
  refine ⟨n * 2 ^ (52 - n.log2), n.log2 - 52, by positivity, ?_, by omega, by omega, .inl ?_, ?_⟩
  · calc n * 2 ^ (52 - n.log2) < 2 ^ (n.log2 + 1) * 2 ^ (52 - n.log2) := by gcongr
      _ = 2 ^ 53 := by rw [pow_succ]; linarith
  · calc 2 ^ 52 = 2 ^ n.log2 * 2 ^ (52 - n.log2) := by rw [← hscale, mul_comm]
      _ ≤ n * 2 ^ (52 - n.log2) := by gcongr
  · have hcast : ((n.log2 : ℤ) - 52) = -((52 - n.log2 : ℕ) : ℤ) := by omega
    rw [hcast, zpow_neg, zpow_natCast]
    push_cast
    field_simp

end Binary64

/-! ## Decimals that read back -/

namespace Decimal

def value (d : Decimal) : ℚ := d.digits * 10 ^ d.exponent

variable {d found : Decimal} {magnitude : BitVec 63} {tie : Tie} {cut : ℕ}

theorem readsBack_iff (hdigits : d.digits ≠ 0) :
    d.ReadsBack magnitude ↔ Binary64.nearest d.value = magnitude := by
  rw [ReadsBack, Binary64.magnitudeOfDecimal_eq hdigits, value]

theorem ReadsBack.digits_ne_zero (h : d.ReadsBack magnitude) (hmagnitude : magnitude ≠ 0) :
    d.digits ≠ 0 := by
  intro hdigits
  rw [ReadsBack, hdigits] at h
  exact hmagnitude h.symm

theorem neighbour?_eq_some (h : d.neighbour? tie magnitude cut = some found) :
    (found = d.below cut ∨ found = d.above cut) ∧ found.ReadsBack magnitude := by
  simp only [neighbour?] at h
  split_ifs at h with hbelow hboth habove
  · obtain rfl := Option.some.inj h
    exact ⟨.inr rfl, hboth.1⟩
  · obtain rfl := Option.some.inj h
    exact ⟨.inl rfl, hbelow⟩
  · obtain rfl := Option.some.inj h
    exact ⟨.inr rfl, habove⟩

theorem neighbour?_isSome (h : (d.below cut).ReadsBack magnitude) :
    (d.neighbour? tie magnitude cut).isSome := by
  simp only [neighbour?, if_pos h]
  split <;> rfl

theorem shorten_readsBack (h : d.ReadsBack magnitude) :
    (d.shorten tie magnitude cut).ReadsBack magnitude := by
  induction cut with
  | zero => exact h
  | succ cut ih =>
    rw [shorten]
    cases hneighbour : d.neighbour? tie magnitude (cut + 1) with
    | none => exact ih
    | some found => exact (neighbour?_eq_some hneighbour).2

end Decimal

namespace Binary64

variable {x : Binary64}

theorem exactDecimal_value (x : Binary64) : x.exactDecimal.value = x.absValue := by
  rw [Decimal.value, absValue, exactDecimal]
  generalize x.unitExponent = u
  push_cast
  rcases le_total 0 u with h | h
  · obtain ⟨k, rfl⟩ := Int.eq_ofNat_of_zero_le h
    simp
  · obtain ⟨k, rfl⟩ := Int.exists_eq_neg_ofNat h
    have hten : (10 : ℚ) ^ k = 2 ^ k * 5 ^ k := by rw [← mul_pow]; norm_num
    simp only [Int.toNat_neg_natCast, neg_neg, Int.toNat_natCast, min_eq_left h, zpow_neg, zpow_natCast,
      hten]
    field_simp

theorem exactDecimal_digits_ne_zero (hzero : x.isZero = false) : x.exactDecimal.digits ≠ 0 := by
  have hpos : 0 < x.significand := by
    rw [isZero_eq_false_iff] at hzero
    obtain ⟨hm, hs, -⟩ | ⟨hm, hs, -⟩ := x.parts_cases <;> omega
  rw [exactDecimal]
  positivity

theorem exactDecimal_readsBack (hfinite : x.isFinite) (hzero : x.isZero = false) :
    x.exactDecimal.ReadsBack x.magnitude := by
  rw [Decimal.readsBack_iff (exactDecimal_digits_ne_zero hzero), exactDecimal_value,
    nearest_absValue hfinite hzero]

theorem shortest_readsBack (tie : Tie) (hfinite : x.isFinite) (hzero : x.isZero = false) :
    (x.shortest tie).ReadsBack x.magnitude :=
  Decimal.shorten_readsBack (exactDecimal_readsBack hfinite hzero)

end Binary64

/-! ## Whole numbers -/

theorem pow_digitCount_pred_le {n : ℕ} (hn : 0 < n) : 10 ^ (digitCount n - 1) ≤ n := by
  by_contra hlt
  rw [not_le] at hlt
  rcases Nat.eq_zero_or_pos (digitCount n - 1) with hzero | hpos
  · rw [hzero] at hlt
    omega
  · have hle := (Nat.length_toDigits_le_iff (by omega) hpos).mpr hlt
    rw [← digitCount] at hle
    omega

theorem lt_digitCount {n k : ℕ} (h : 10 ^ k ≤ n) : k < digitCount n := by
  by_contra hle
  rw [not_lt] at hle
  rcases Nat.eq_zero_or_pos k with rfl | hpos
  · have hlength : 0 < digitCount n := Nat.length_toDigits_pos
    omega
  · have hlt := (Nat.length_toDigits_le_iff (by omega) hpos).mp hle
    omega

namespace Decimal

variable {n k cut : ℕ} {found : Decimal} {tie : Tie}

theorem value_of_neighbour (hn : 0 < n) (hlt : 2 * n < 2 ^ 53) (hk : k ≤ cut)
    (hcut : 10 ^ cut ≤ n * 10 ^ k)
    (h : neighbour? tie (Binary64.nearest n) ⟨n * 10 ^ k, -k⟩ cut = some found) :
    found.value = n := by
  obtain ⟨j, rfl⟩ := Nat.exists_eq_add_of_le hk
  obtain ⟨hfound, hreads⟩ := neighbour?_eq_some h
  have hexact := Binary64.isExact_natCast hn (by omega)
  have hdigits := hreads.digits_ne_zero (Binary64.nearest_ne_zero_of_isExact hexact)
  have hgrid : 10 ^ j ≤ n := by
    rw [pow_add, mul_comm] at hcut
    exact Nat.le_of_mul_le_mul_right hcut (by positivity)
  have hcutDigits : n * 10 ^ k / 10 ^ (k + j) = n / 10 ^ j := by
    rw [pow_add, mul_comm n, Nat.mul_div_mul_left _ _ (by positivity)]
  -- On this grid both neighbours are whole, and small enough to be exact.
  have hvalue : found.value = (found.digits * 10 ^ j : ℕ) := by
    have hexponent : found.exponent = j := by
      rcases hfound with rfl | rfl <;> simp [below, above]
    rw [value, hexponent]
    push_cast
    rw [zpow_natCast]
  have hsmall : found.digits * 10 ^ j ≤ 2 * n := by
    have hle : found.digits ≤ n / 10 ^ j + 1 := by
      rcases hfound with rfl | rfl <;> simp [below, above, hcutDigits]
    calc found.digits * 10 ^ j ≤ (n / 10 ^ j + 1) * 10 ^ j := by gcongr
      _ = n / 10 ^ j * 10 ^ j + 10 ^ j := by ring
      _ ≤ n + n := Nat.add_le_add (Nat.div_mul_le_self _ _) hgrid
      _ = 2 * n := by ring
  rw [readsBack_iff hdigits, hvalue] at hreads
  rw [hvalue]
  exact Binary64.nearest_injective_of_isExact
    (Binary64.isExact_natCast (by positivity) (by omega)) hexact hreads

theorem shorten_value (hn : 0 < n) (hlt : 2 * n < 2 ^ 53) (hk : k ≤ cut)
    (hcut : 10 ^ cut ≤ n * 10 ^ k) :
    (shorten tie (Binary64.nearest n) ⟨n * 10 ^ k, -k⟩ cut).value = n := by
  induction cut with
  | zero =>
    obtain rfl : k = 0 := by omega
    simp [shorten, value]
  | succ cut ih =>
    rw [shorten]
    cases hneighbour : neighbour? tie (Binary64.nearest n) ⟨n * 10 ^ k, -k⟩ (cut + 1) with
    | some found => exact value_of_neighbour hn hlt hk hcut hneighbour
    | none =>
      have hne : k ≠ cut + 1 := by
        rintro rfl
        have hbelow : (below ⟨n * 10 ^ (cut + 1), -(cut + 1 : ℕ)⟩ (cut + 1)).ReadsBack
            (Binary64.nearest n) := by
          rw [readsBack_iff] <;> simp [below, value, hn.ne']
        have hsome : (neighbour? tie _ _ _).isSome := neighbour?_isSome hbelow
        rw [hneighbour] at hsome
        simp at hsome
      refine ih (by omega) (le_trans ?_ hcut)
      exact Nat.pow_le_pow_right (by omega) (by omega)

end Decimal

namespace Binary64

theorem isFinite_of_isExact {x : Binary64} {q : ℚ} (h : IsExact q) (hx : x.magnitude = nearest q) :
    x.isFinite := by
  obtain ⟨n, u, hpos, hlt, hlow, hhigh, hnormal, rfl⟩ := h
  rw [isFinite_iff, hx, toNat_nearest_mul_zpow hpos hlt hlow hhigh hnormal]
  omega

theorem isZero_of_isExact {x : Binary64} {q : ℚ} (h : IsExact q) (hx : x.magnitude = nearest q) :
    x.isZero = false := by
  rw [isZero, hx]
  exact decide_eq_false (nearest_ne_zero_of_isExact h)

theorem magnitude_ofDecimal_natCast {n : ℕ} (hn : 0 < n) (negative : Bool) :
    (ofDecimal negative n 0).magnitude = nearest n := by
  rw [ofDecimal, magnitudeOfDecimal_eq hn.ne', zpow_zero, mul_one]

theorem isFinite_ofDecimal_natCast {n : ℕ} (hn : n < 2 ^ 53) (negative : Bool) :
    (ofDecimal negative n 0).isFinite := by
  rcases Nat.eq_zero_or_pos n with rfl | hpos
  · rfl
  · exact isFinite_of_isExact (isExact_natCast hpos hn) (magnitude_ofDecimal_natCast hpos negative)

theorem absValue_eq_natCast {x : Binary64} {n : ℕ} (hn : 0 < n) (hlt : n < 2 ^ 53)
    (hx : x.magnitude = nearest n) : x.absValue = n := by
  have hexact := isExact_natCast hn hlt
  have hfinite := isFinite_of_isExact hexact hx
  have hzero := isZero_of_isExact hexact hx
  refine nearest_injective_of_isExact (isExact_absValue hfinite hzero) hexact ?_
  rw [nearest_absValue hfinite hzero, hx]

theorem absValue_ofDecimal_natCast {n : ℕ} (hn : n < 2 ^ 53) (negative : Bool) :
    (ofDecimal negative n 0).absValue = n := by
  rcases Nat.eq_zero_or_pos n with rfl | hpos
  · have hzero : (ofDecimal negative 0 0).significand = 0 := rfl
    rw [absValue, hzero, Nat.cast_zero, zero_mul]
  · exact absValue_eq_natCast hpos hn (magnitude_ofDecimal_natCast hpos negative)

theorem shortest_value_of_natCast {x : Binary64} {n : ℕ} (hn : 0 < n) (hlt : 2 * n < 2 ^ 53)
    (hx : x.magnitude = nearest n) (tie : Tie) : (x.shortest tie).value = n := by
  have habs := absValue_eq_natCast hn (by omega) hx
  obtain ⟨k, hk⟩ : ∃ k : ℕ, x.exactDecimal.exponent = -k :=
    Int.exists_eq_neg_ofNat (min_le_right _ _)
  have hdigits : x.exactDecimal.digits = n * 10 ^ k := by
    have hvalue := x.exactDecimal_value
    rw [habs, Decimal.value, hk, zpow_neg, zpow_natCast, ← div_eq_mul_inv,
      div_eq_iff (by positivity)] at hvalue
    exact_mod_cast hvalue
  have hdecimal : x.exactDecimal = ⟨n * 10 ^ k, -k⟩ := by
    rw [← hdigits, ← hk]
  have hcount : k < digitCount (n * 10 ^ k) := lt_digitCount (Nat.le_mul_of_pos_left _ hn)
  rw [shortest, hx]
  simp only [hdecimal]
  exact Decimal.shorten_value hn hlt (by omega) (pow_digitCount_pred_le (by positivity))

end Binary64
end HandlerScript
