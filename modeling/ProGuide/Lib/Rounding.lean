import Mathlib.Data.Rat.Floor
import Mathlib.Data.Int.Log
import Mathlib.Tactic.Linarith
import Mathlib.Tactic.FieldSimp
/-!
# Rounded division

A number format of `p` binary digits without bounds on the exponent: whole
numbers below `2 ^ p` are exact, and the relative error is at most half a digit.
The floor of a rounded quotient of whole numbers is then that of the quotient.
-/

namespace ProGuide.Lib

/-- A rounding to `p` binary digits. -/
structure Rounding (p : ℕ) where
  round : ℚ → ℚ
  whole : ∀ n : ℤ, |n| < 2 ^ p → round n = n
  error : ∀ x, |round x - x| ≤ |x| / 2 ^ p

namespace Rounding

variable {p : ℕ}

def div (fl : Rounding p) (a b : ℚ) : ℚ := fl.round (a / b)

/-- What is positive stays so. -/
theorem round_pos (fl : Rounding p) (hp : 0 < p) {x : ℚ} (hx : 0 < x) : 0 < fl.round x := by
  have h := (abs_le.1 (fl.error x)).1
  rw [abs_of_pos hx] at h
  have hhalf : x / 2 ^ p < x := div_lt_self hx (one_lt_pow₀ one_lt_two hp.ne')
  linarith only [h, hhalf]

/-! ## Floors of quotients -/

/-- A number near `n / k` has its floor, unless it is below a whole one. -/
theorem floor_eq_div {n : ℤ} {k : ℕ} (hk : 0 < k) {y : ℚ} (hwhole : ∀ q, n = k * q → y = q)
    (hnear : |y - n / k| < 1 / k) : ⌊y⌋ = n / k := by
  have hkq : (0 : ℚ) < k := Nat.cast_pos.2 hk
  have hkz : (0 : ℤ) < k := Int.natCast_pos.2 hk
  by_cases hd : (k : ℤ) ∣ n
  · obtain ⟨q, rfl⟩ := hd
    rw [hwhole q rfl, Int.floor_intCast, Int.mul_ediv_cancel_left _ hkz.ne']
  · have hquot : (n : ℚ) / k = (n / k : ℤ) + (n % k : ℤ) / k := by
      rw [eq_comm, ← mul_left_inj' hkq.ne', add_mul, div_mul_cancel₀ _ hkq.ne', div_mul_cancel₀ _ hkq.ne']
      exact_mod_cast Int.ediv_mul_add_emod n k
    have hpos : 1 ≤ n % k := Int.emod_pos_of_not_dvd hd |>.resolve_left hkz.ne'
    have hlt : n % k + 1 ≤ k := Int.emod_lt_of_pos n hkz
    have hlow : 1 / (k : ℚ) ≤ (n % k : ℤ) / k := by
      gcongr
      exact_mod_cast hpos
    have hhigh : ((n % k : ℤ) : ℚ) / k + 1 / k ≤ 1 := by
      rw [← add_div, div_le_one hkq]
      exact_mod_cast hlt
    rw [abs_lt, hquot] at hnear
    rw [Int.floor_eq_iff]
    constructor
    · linarith only [hnear.1, hlow]
    · linarith only [hnear.2, hhigh]

theorem whole_div (fl : Rounding p) {k : ℕ} (hk : 0 < k) {q : ℤ} (hn : |k * q| < 2 ^ p) : fl.div (k * q : ℤ) k = q := by
  have hkq : (k : ℚ) ≠ 0 := Nat.cast_ne_zero.2 hk.ne'
  have hq : |q| < 2 ^ p := by
    refine lt_of_le_of_lt ?_ hn
    rw [abs_mul, Nat.abs_cast]
    exact le_mul_of_one_le_left (abs_nonneg q) (by exact_mod_cast hk)
  rw [div, Int.cast_mul, Int.cast_natCast, mul_div_cancel_left₀ _ hkq, fl.whole q hq]

theorem floor_div (fl : Rounding p) {n : ℤ} {k : ℕ} (hk : 0 < k) (hn : |n| < 2 ^ p) : ⌊fl.div n k⌋ = n / k := by
  have hkq : (0 : ℚ) < k := Nat.cast_pos.2 hk
  refine floor_eq_div hk (fun q hq => hq ▸ fl.whole_div hk (hq ▸ hn)) (lt_of_le_of_lt (fl.error _) ?_)
  have hn' : |(n : ℚ)| < 2 ^ p := by exact_mod_cast hn
  rw [abs_div, Nat.abs_cast, div_right_comm, div_lt_div_iff_of_pos_right hkq, div_lt_one (by positivity)]
  exact hn'

/-- Two divisions in a row add up to three errors of one. -/
theorem error_div_div (fl : Rounding p) (a b c : ℚ) :
    |fl.div (fl.div a b) c - a / (b * c)| ≤ 3 * |a / (b * c)| / 2 ^ p := by
  have hstep : a / (b * c) = a / b / c := (div_div a b c).symm
  have hinner : |fl.div a b / c - a / b / c| ≤ |a / b / c| / 2 ^ p := by
    rw [← sub_div, abs_div, abs_div (a / b) c, div_right_comm]
    exact div_le_div_of_nonneg_right (fl.error _) (abs_nonneg c)
  have hone : |a / b / c| / 2 ^ p ≤ |a / b / c| := div_le_self (abs_nonneg _) (one_le_pow₀ one_le_two)
  have hsize : |fl.div a b / c| ≤ 2 * |a / b / c| := by
    have := abs_sub_abs_le_abs_sub (fl.div a b / c) (a / b / c)
    linarith
  have houter : |fl.div (fl.div a b) c - fl.div a b / c| ≤ 2 * |a / b / c| / 2 ^ p :=
    (fl.error _).trans (div_le_div_of_nonneg_right hsize (by positivity))
  rw [hstep]
  calc |fl.div (fl.div a b) c - a / b / c|
      ≤ |fl.div (fl.div a b) c - fl.div a b / c| + |fl.div a b / c - a / b / c| := abs_sub_le _ _ _
    _ ≤ 2 * |a / b / c| / 2 ^ p + |a / b / c| / 2 ^ p := add_le_add houter hinner
    _ = 3 * |a / b / c| / 2 ^ p := by ring

theorem floor_div_div (fl : Rounding p) {n : ℤ} {j k : ℕ} (hj : 0 < j) (hk : 0 < k) (hn : 3 * |n| < 2 ^ p) :
    ⌊fl.div (fl.div n j) k⌋ = n / (j * k : ℕ) := by
  have hjk : 0 < j * k := Nat.mul_pos hj hk
  have hjkq : (0 : ℚ) < (j * k : ℕ) := Nat.cast_pos.2 hjk
  have hn1 : |n| < 2 ^ p := by
    have := abs_nonneg n
    linarith
  have hn' : 3 * |(n : ℚ)| < 2 ^ p := by exact_mod_cast hn
  refine floor_eq_div hjk (fun q hq => ?_) ?_
  · -- both quotients are whole
    rw [Nat.cast_mul, mul_assoc] at hq
    rw [hq] at hn1 ⊢
    have hkq : |(k : ℤ) * q| < 2 ^ p := by
      refine lt_of_le_of_lt ?_ hn1
      rw [abs_mul (j : ℤ), Nat.abs_cast]
      exact le_mul_of_one_le_left (abs_nonneg _) (by exact_mod_cast hj)
    rw [fl.whole_div hj hn1, fl.whole_div hk hkq]
  · have h := fl.error_div_div n j k
    rw [← Nat.cast_mul] at h
    refine lt_of_le_of_lt h ?_
    rw [abs_div, Nat.abs_cast, mul_div_assoc', div_right_comm, div_lt_div_iff_of_pos_right hjkq, div_lt_one (by positivity)]
    exact hn'

end Rounding

/-! ## Rounding to nearest -/

/-- The exponent of the last of the `p` digits of `x`. -/
def lastDigit (p : ℕ) (x : ℚ) : ℤ := Int.log 2 |x| + 1 - p

def roundNearest (p : ℕ) (x : ℚ) : ℚ := round (x / 2 ^ lastDigit p x) * 2 ^ lastDigit p x

theorem roundNearest_zero (p : ℕ) : roundNearest p 0 = 0 := by simp [roundNearest]

theorem roundNearest_whole (p : ℕ) {n : ℤ} (hn : |n| < 2 ^ p) : roundNearest p n = n := by
  by_cases h0 : n = 0
  · rw [h0, Int.cast_zero, roundNearest_zero]
  · have hpos : 0 < |(n : ℚ)| := abs_pos.2 (Int.cast_ne_zero.2 h0)
    have hlog : Int.log 2 |(n : ℚ)| < p := by
      rw [← Int.lt_zpow_iff_log_lt one_lt_two hpos, Nat.cast_ofNat, zpow_natCast]
      exact_mod_cast hn
    -- the last digit is at or after the point
    obtain ⟨k, hk⟩ : ∃ k : ℕ, lastDigit p n = -k := by
      refine ⟨(-lastDigit p n).toNat, ?_⟩
      unfold lastDigit
      omega
    have hscale : (n : ℚ) / 2 ^ lastDigit p n = (n * 2 ^ k : ℤ) := by
      rw [hk, zpow_neg, zpow_natCast, div_inv_eq_mul]
      push_cast
      rfl
    rw [roundNearest, hscale, round_intCast, ← hscale, div_mul_cancel₀ _ (zpow_ne_zero _ two_ne_zero)]

theorem roundNearest_error (p : ℕ) (x : ℚ) : |roundNearest p x - x| ≤ |x| / 2 ^ p := by
  by_cases h0 : x = 0
  · rw [h0, roundNearest_zero]
    simp
  · have hpos : (0 : ℚ) < 2 ^ lastDigit p x := zpow_pos two_pos _
    have hscale : roundNearest p x - x = -(x / 2 ^ lastDigit p x - round (x / 2 ^ lastDigit p x)) * 2 ^ lastDigit p x := by
      rw [roundNearest, neg_sub, sub_mul, div_mul_cancel₀ _ hpos.ne']
    have hdigit : (2 : ℚ) ^ lastDigit p x = 2 * (2 ^ Int.log 2 |x| / 2 ^ p) := by
      rw [lastDigit, zpow_sub₀ two_ne_zero, zpow_add_one₀ two_ne_zero, zpow_natCast]
      ring
    have hlog : (2 : ℚ) ^ Int.log 2 |x| ≤ |x| := by exact_mod_cast Int.zpow_log_le_self one_lt_two (abs_pos.2 h0)
    calc |roundNearest p x - x|
        = |x / 2 ^ lastDigit p x - round (x / 2 ^ lastDigit p x)| * 2 ^ lastDigit p x := by
          rw [hscale, abs_mul, abs_neg, abs_of_pos hpos]
      _ ≤ 1 / 2 * 2 ^ lastDigit p x := mul_le_mul_of_nonneg_right (abs_sub_round _) hpos.le
      _ = 2 ^ Int.log 2 |x| / 2 ^ p := by rw [hdigit]; ring
      _ ≤ |x| / 2 ^ p := div_le_div_of_nonneg_right hlog (by positivity)

/-- Rounding to nearest is one of the roundings. -/
def Rounding.nearest (p : ℕ) : Rounding p where
  round := roundNearest p
  whole _ hn := roundNearest_whole p hn
  error := roundNearest_error p

end ProGuide.Lib
