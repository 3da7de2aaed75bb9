import Mathlib.Algebra.Order.Field.Basic
import Mathlib.Algebra.Order.Field.Power
import Mathlib.Data.Rat.Cast.Order
import Mathlib.Tactic.FieldSimp
import Mathlib.Tactic.GCongr
import Mathlib.Tactic.Linarith
import Mathlib.Tactic.NormNum
import Mathlib.Tactic.Positivity
import Mathlib.Tactic.Ring
import NestedStyles.Number.Arithmetic

/-!
# Ratios that are rounded

`Number.ofRatio` scales a ratio by the power of two that leaves 53 bits before the point
(`Number.exponentOf_spec`) and rounds it to an integer. Unless the ratio is too large by half a
step at least, a finite number comes out, and it lies within half a step of the ratio: within one
part in `2 ^ 53`, or within `2 ^ -1075` for the smallest numbers (`Number.ofRatio_near`). Products
and quotients of finite numbers are such ratios (`Number.exists_mul`, `Number.exists_div`).
-/

namespace NestedStyles.Number

/-- The distance of a finite number from zero. -/
def magnitude : Number → ℚ
  | .finite _ significand exponent => significand * 2 ^ exponent
  | _ => 0

/-- The midpoint between the largest finite number and the next power of two. -/
def limit : ℚ := (2 ^ 54 - 1) * 2 ^ (970 : ℤ)

/-! ## Scaling -/

theorem two_zpow_toNat (e : ℤ) : (2 : ℚ) ^ e.toNat = 2 ^ e * 2 ^ (-e).toNat := by
  rw [← zpow_natCast, ← zpow_natCast, ← zpow_add₀ two_ne_zero]
  congr 1
  omega

/-- A scaled ratio is the ratio over the power of two. -/
theorem scaled_div (num den : ℕ) (e : ℤ) :
    ((scaled num den e).1 : ℚ) / (scaled num den e).2 = num / den / 2 ^ e := by
  have hpow := two_zpow_toNat e
  have hneg : (2 : ℚ) ^ (-e).toNat ≠ 0 := by positivity
  simp only [scaled, Nat.pow_eq, Nat.cast_mul, Nat.cast_pow, Nat.cast_ofNat, hpow]
  field_simp

theorem scaled_pos {den : ℕ} (hden : 0 < den) (num : ℕ) (e : ℤ) : 0 < (scaled num den e).2 := by
  simp only [scaled, Nat.pow_eq]
  positivity

/-- A ratio lies between powers of two that the lengths of its parts give. -/
theorem ratio_bounds {num den : ℕ} (hnum : 0 < num) (hden : 0 < den) :
    (2 : ℚ) ^ ((num.log2 : ℤ) - den.log2 - 1) ≤ num / den ∧
      (num : ℚ) / den < 2 ^ ((num.log2 : ℤ) - den.log2 + 1) := by
  have hlow : (2 : ℚ) ^ num.log2 ≤ num := by exact_mod_cast Nat.log2_self_le hnum.ne'
  have hhigh : (num : ℚ) < 2 ^ (num.log2 + 1) := by exact_mod_cast Nat.lt_log2_self
  have hlow' : (2 : ℚ) ^ den.log2 ≤ den := by exact_mod_cast Nat.log2_self_le hden.ne'
  have hhigh' : (den : ℚ) < 2 ^ (den.log2 + 1) := by exact_mod_cast Nat.lt_log2_self
  have hpos : (0 : ℚ) < den := by exact_mod_cast hden
  constructor
  · have hpow : (2 : ℚ) ^ ((num.log2 : ℤ) - den.log2 - 1) = 2 ^ num.log2 / 2 ^ (den.log2 + 1) := by
      rw [sub_sub, zpow_sub₀ two_ne_zero, zpow_natCast]
      norm_cast
    rw [hpow]
    gcongr
  · have hpow : (2 : ℚ) ^ ((num.log2 : ℤ) - den.log2 + 1) = 2 ^ (num.log2 + 1) / 2 ^ den.log2 := by
      rw [sub_add_eq_add_sub, zpow_sub₀ two_ne_zero, zpow_natCast]
      norm_cast
    rw [hpow]
    calc (num : ℚ) / den ≤ num / 2 ^ den.log2 := by gcongr
      _ < 2 ^ (num.log2 + 1) / 2 ^ den.log2 := by gcongr

/-- The quotient of a scaled ratio has at most 53 bits exactly if the ratio lies below the power of
two that is 53 above the scale. -/
theorem quotient_lt_iff (num : ℕ) {den : ℕ} (hden : 0 < den) (e : ℤ) :
    (scaled num den e).1 / (scaled num den e).2 < 2 * leastFull ↔
      (num : ℚ) / den < 2 ^ (e + 53) := by
  have hpos := scaled_pos hden num e
  have hcast : (0 : ℚ) < (scaled num den e).2 := by exact_mod_cast hpos
  rw [show 2 * leastFull = 2 ^ 53 from rfl, Nat.div_lt_iff_lt_mul hpos, zpow_add₀ two_ne_zero,
    mul_comm ((2 : ℚ) ^ e), ← div_lt_iff₀ (by positivity), ← scaled_div, div_lt_iff₀ hcast]
  norm_cast

/-- The exponent of a ratio is at the lower end of the range, or it leaves the ratio 53 bits. -/
theorem exponentOf_spec {num den : ℕ} (hnum : 0 < num) (hden : 0 < den) :
    (num : ℚ) / den < 2 ^ (exponentOf num den + 53) ∧
      (exponentOf num den = -1074 ∨ (2 : ℚ) ^ (exponentOf num den + 52) ≤ num / den) := by
  obtain ⟨hlow, hhigh⟩ := ratio_bounds hnum hden
  have htest := quotient_lt_iff num hden (max (-1074) ((num.log2 : ℤ) - den.log2 - 53))
  simp only [exponentOf]
  generalize hlowest : max (-1074) ((num.log2 : ℤ) - den.log2 - 53) = low at htest ⊢
  have hexponent : (2 : ℚ) ^ ((num.log2 : ℤ) - den.log2 + 1) ≤ 2 ^ (low + 1 + 53) :=
    zpow_le_zpow_right₀ one_le_two (by omega)
  by_cases hless : (scaled num den low).1 / (scaled num den low).2 < 2 * leastFull
  · simp only [if_pos hless]
    refine ⟨htest.mp hless, ?_⟩
    rcases le_total (-1074) ((num.log2 : ℤ) - den.log2 - 53) with h | h
    · exact .inr (hlow.trans' (zpow_le_zpow_right₀ one_le_two (by omega)))
    · exact .inl (by omega)
  · simp only [if_neg hless]
    refine ⟨hhigh.trans_le hexponent, .inr ?_⟩
    have hle := not_lt.mp (mt htest.mpr hless)
    exact hle.trans' (zpow_le_zpow_right₀ one_le_two (by omega))

/-! ## Rounding -/

/-- A quotient is rounded by one half at most. -/
theorem abs_roundedQuotient_sub_le (num : ℕ) {den : ℕ} (hden : 0 < den) :
    |(roundedQuotient num den : ℚ) - num / den| ≤ 1 / 2 := by
  have hpos : (0 : ℚ) < den := by exact_mod_cast hden
  have hrest : ((num % den : ℕ) : ℚ) < den := by exact_mod_cast Nat.mod_lt num hden
  have hquotient : (num : ℚ) / den = (num / den : ℕ) + (num % den : ℕ) / den := by
    have hsum : (num : ℚ) = den * (num / den : ℕ) + (num % den : ℕ) := by
      exact_mod_cast (Nat.div_add_mod num den).symm
    field_simp
    linarith
  rw [roundedQuotient, hquotient]
  split
  · next hdown =>
    have hhalf : 2 * (num % den) ≤ den := by
      simp only [Bool.or_eq_true, decide_eq_true_eq, Bool.and_eq_true, beq_iff_eq] at hdown
      omega
    have hhalf' : (2 : ℚ) * (num % den : ℕ) ≤ den := by exact_mod_cast hhalf
    have hle : ((num % den : ℕ) : ℚ) / den ≤ 1 / 2 := by
      rw [div_le_div_iff₀ hpos two_pos]
      linarith
    rw [sub_add_cancel_left, abs_neg, abs_of_nonneg (by positivity)]
    exact hle
  · next hup =>
    have hhalf : den ≤ 2 * (num % den) := by
      simp only [Bool.or_eq_true, decide_eq_true_eq] at hup
      omega
    have hhalf' : (den : ℚ) ≤ 2 * (num % den : ℕ) := by exact_mod_cast hhalf
    have hle : (1 : ℚ) / 2 ≤ (num % den : ℕ) / den := by
      rw [div_le_div_iff₀ two_pos hpos]
      linarith
    have hlt : ((num % den : ℕ) : ℚ) / den < 1 := (div_lt_one hpos).mpr hrest
    push_cast
    rw [abs_le]
    constructor <;> linarith

/-- A ratio is rounded to a multiple of its power of two, or to infinity if that is too large. -/
theorem ofRatio_cases (negative : Bool) {num den : ℕ} (hnum : 0 < num) (hden : 0 < den) :
    ∃ steps : ℕ, |(steps : ℚ) - num / den / 2 ^ exponentOf num den| ≤ 1 / 2 ∧
      ((972 ≤ exponentOf num den ∨ 971 ≤ exponentOf num den ∧ steps = 2 ^ 53) ∨
        ∃ significand exponent, ofRatio negative num den = .finite negative significand exponent ∧
          (significand : ℚ) * 2 ^ exponent = steps * 2 ^ exponentOf num den) := by
  have hnear := abs_roundedQuotient_sub_le (scaled num den (exponentOf num den)).1
    (scaled_pos hden num (exponentOf num den))
  rw [scaled_div] at hnear
  refine ⟨_, hnear, ?_⟩
  rw [ofRatio, if_neg hnum.ne']
  dsimp only
  generalize exponentOf num den = e
  generalize roundedQuotient (scaled num den e).1 (scaled num den e).2 = steps
  by_cases hcarried : steps = 2 * leastFull
  · simp only [if_pos hcarried]
    rcases le_or_gt e 970 with he | he
    · refine .inr ⟨leastFull, e + 1, if_neg (by omega), ?_⟩
      rw [hcarried, zpow_add_one₀ two_ne_zero]
      push_cast
      ring
    · exact .inl (.inr ⟨he, hcarried⟩)
  · simp only [if_neg hcarried]
    rcases le_or_gt e 971 with he | he
    · exact .inr ⟨steps, e, if_neg (by omega), rfl⟩
    · exact .inl (.inl he)

/-- A number that is rounded out of range is at least the limit. -/
theorem limit_le {x : ℚ} {e : ℤ} {steps : ℕ} (hfull : e = -1074 ∨ (2 : ℚ) ^ (e + 52) ≤ x)
    (hnear : |(steps : ℚ) * 2 ^ e - x| ≤ 2 ^ e / 2)
    (hlarge : 972 ≤ e ∨ 971 ≤ e ∧ steps = 2 ^ 53) : limit ≤ x := by
  rcases hlarge with he | ⟨he, rfl⟩
  · have hle := hfull.resolve_left (by omega)
    calc limit ≤ 2 ^ 54 * 2 ^ (970 : ℤ) :=
          mul_le_mul_of_nonneg_right (by norm_num) (by positivity)
      _ = 2 ^ (1024 : ℤ) := by rw [← zpow_natCast, ← zpow_add₀ two_ne_zero]; rfl
      _ ≤ 2 ^ (e + 52) := zpow_le_zpow_right₀ one_le_two (by omega)
      _ ≤ x := hle
  · have hstep := (abs_le.mp hnear).2
    calc limit = (2 ^ 53 - 1 / 2) * (2 ^ (970 : ℤ) * 2) := by rw [limit]; ring
      _ = (2 ^ 53 - 1 / 2) * 2 ^ (971 : ℤ) := by rw [← zpow_add_one₀ two_ne_zero]; rfl
      _ ≤ (2 ^ 53 - 1 / 2) * 2 ^ e := by
        gcongr
        · norm_num
      _ ≤ x := by
        push_cast at hstep
        linarith

/-- Half a step is small beside the number, unless the exponent is the least. -/
theorem half_step_le {x : ℚ} {e : ℤ} (hfull : e = -1074 ∨ (2 : ℚ) ^ (e + 52) ≤ x) :
    (2 : ℚ) ^ e / 2 ≤ max (x / 2 ^ 53) (2 ^ (-1075 : ℤ)) := by
  refine le_max_iff.mpr ?_
  rcases hfull with rfl | hfull
  · exact .inr (zpow_sub_one₀ two_ne_zero (-1074 : ℤ)).ge
  · refine .inl ?_
    rw [zpow_add₀ two_ne_zero] at hfull
    rw [div_le_div_iff₀ (by positivity) (by positivity)]
    norm_num at hfull ⊢
    linarith

/-- A ratio below the limit is rounded to a finite number, within half a step. -/
theorem ofRatio_near (negative : Bool) (num : ℕ) {den : ℕ} (hden : 0 < den)
    (hlimit : (num : ℚ) / den < limit) : (ofRatio negative num den).isFinite = true ∧
      |(ofRatio negative num den).magnitude - num / den| ≤
        max ((num : ℚ) / den / 2 ^ 53) (2 ^ (-1075 : ℤ)) := by
  rcases Nat.eq_zero_or_pos num with rfl | hnum
  · exact ⟨rfl, by simp [ofRatio, zero, magnitude]⟩
  obtain ⟨-, hfull⟩ := exponentOf_spec hnum hden
  obtain ⟨steps, hnear, hcases⟩ := ofRatio_cases negative hnum hden
  generalize exponentOf num den = e at hfull hnear hcases
  generalize (num : ℚ) / den = x at hlimit hfull hnear ⊢
  have hpow : (0 : ℚ) < 2 ^ e := by positivity
  have hfar : |(steps : ℚ) * 2 ^ e - x| ≤ 2 ^ e / 2 := by
    have heq : (steps : ℚ) * 2 ^ e - x = (steps - x / 2 ^ e) * 2 ^ e := by field_simp
    rw [heq, abs_mul, abs_of_pos hpow]
    calc |(steps : ℚ) - x / 2 ^ e| * 2 ^ e ≤ 1 / 2 * 2 ^ e := by gcongr
      _ = 2 ^ e / 2 := by ring
  rcases hcases with hlarge | ⟨significand, exponent, hresult, hvalue⟩
  · exact absurd hlimit (not_lt.mpr (limit_le hfull hfar hlarge))
  · rw [hresult, magnitude, hvalue]
    exact ⟨rfl, hfar.trans (half_step_le hfull)⟩

/-- A number of moderate size lies below the limit. -/
theorem lt_limit {x : ℚ} (h : x ≤ 2 ^ 65) : x < limit :=
  calc x ≤ 2 ^ (65 : ℤ) := h
    _ ≤ 2 ^ (970 : ℤ) := zpow_le_zpow_right₀ one_le_two (by norm_num)
    _ < limit := lt_mul_of_one_lt_left (by positivity) (by norm_num)

theorem cast_mul_two_pow (a k : ℕ) : ((a * 2 ^ k : ℕ) : ℚ) = a * 2 ^ (k : ℤ) := by simp

theorem cast_limit : (((2 ^ 54 - 1) * 2 ^ 970 : ℕ) : ℚ) = limit := by
  have hcast : ((2 ^ 54 - 1 : ℕ) : ℚ) = 2 ^ 54 - 1 := by norm_num
  rw [cast_mul_two_pow, hcast]
  exact limit.eq_1.symm

/-! ## Operations on finite numbers -/

section Operations

variable {x y : Number}

@[simp] theorem isFinite_neg : x.neg.isFinite = x.isFinite := by cases x <;> rfl

theorem magnitude_nonneg (x : Number) : 0 ≤ x.magnitude := by
  cases x with
  | finite negative significand exponent =>
    rw [magnitude]
    positivity
  | _ => exact le_rfl

/-- A product is a rounded ratio. -/
theorem exists_mul (hx : x.isFinite = true) (hy : y.isFinite = true) :
    ∃ negative num den, 0 < den ∧ x.mul y = ofRatio negative num den ∧
      (num : ℚ) / den = x.magnitude * y.magnitude := by
  cases x with
  | finite a m e =>
    cases y with
    | finite b n f =>
      refine ⟨_, _, _, ?_, rfl, ?_⟩
      · simp only [Nat.pow_eq]
        positivity
      · have hneg : (2 : ℚ) ^ (-(e + f)).toNat ≠ 0 := by positivity
        simp only [magnitude, Nat.pow_eq, Nat.cast_mul, Nat.cast_pow, Nat.cast_ofNat,
          two_zpow_toNat (e + f), zpow_add₀ (two_ne_zero' ℚ)]
        field_simp
    | _ => exact absurd hy (by simp [isFinite])
  | _ => exact absurd hx (by simp [isFinite])

/-- A quotient by a number other than zero is a rounded ratio. -/
theorem exists_div (hx : x.isFinite = true) (hy : 0 < y.magnitude) :
    ∃ negative num den, 0 < den ∧ x.div y = ofRatio negative num den ∧
      (num : ℚ) / den = x.magnitude / y.magnitude := by
  cases x with
  | finite a m e =>
    cases y with
    | finite b n f =>
      have hn : n ≠ 0 := fun hn => by simp [magnitude, hn] at hy
      refine ⟨_, _, _, ?_, by rw [div, if_neg hn], ?_⟩
      · simp only [Nat.pow_eq]
        positivity
      · have hneg : (2 : ℚ) ^ (f - e).toNat ≠ 0 := by positivity
        have hpow := two_zpow_toNat (e - f)
        rw [neg_sub] at hpow
        simp only [magnitude, Nat.pow_eq, Nat.cast_mul, Nat.cast_pow, Nat.cast_ofNat, hpow,
          zpow_sub₀ (two_ne_zero' ℚ)]
        field_simp
    | _ => exact absurd hy (by simp [magnitude])
  | _ => exact absurd hx (by simp [isFinite])

end Operations

/-- A ratio of one at least is rounded by one part in `2 ^ 53` at most. -/
theorem ofRatio_bounds (negative : Bool) {num den : ℕ} (hden : 0 < den)
    (hone : 1 ≤ (num : ℚ) / den) (hlimit : (num : ℚ) / den < limit) :
    (num : ℚ) / den * (1 - 1 / 2 ^ 53) ≤ (ofRatio negative num den).magnitude ∧
      (ofRatio negative num den).magnitude ≤ num / den * (1 + 1 / 2 ^ 53) := by
  obtain ⟨-, hnear⟩ := ofRatio_near negative num hden hlimit
  have htiny : (2 : ℚ) ^ (-1075 : ℤ) ≤ num / den / 2 ^ 53 :=
    calc (2 : ℚ) ^ (-1075 : ℤ) ≤ 2 ^ (-53 : ℤ) := zpow_le_zpow_right₀ one_le_two (by norm_num)
      _ = 1 / 2 ^ 53 := by norm_num
      _ ≤ num / den / 2 ^ 53 := by gcongr
  rw [max_eq_left htiny, abs_le] at hnear
  constructor <;> linarith

theorem natAbs_lt_limit {n : ℤ} (hn : n.natAbs < 2 ^ 64) : (n.natAbs : ℚ) / (1 : ℕ) < limit := by
  have hcast : (n.natAbs : ℚ) < 2 ^ 64 := by exact_mod_cast hn
  rw [Nat.cast_one, div_one]
  exact lt_limit (hcast.le.trans (by norm_num))

/-- An integer of 64 bits is rounded to a finite number. -/
theorem isFinite_ofInt {n : ℤ} (hn : n.natAbs < 2 ^ 64) : (ofInt n).isFinite = true :=
  (ofRatio_near _ n.natAbs one_pos (natAbs_lt_limit hn)).1

theorem magnitude_ofInt_le {n : ℕ} (hn : n < 2 ^ 64) :
    (ofInt n).magnitude ≤ n * (1 + 1 / 2 ^ 53) := by
  rcases Nat.eq_zero_or_pos n with rfl | hpos
  · simp [ofInt, ofRatio, zero, magnitude]
  · have hone : 1 ≤ (n : ℚ) / (1 : ℕ) := by
      rw [Nat.cast_one, div_one]
      exact_mod_cast hpos
    have hlimit : (n : ℚ) / (1 : ℕ) < limit := @natAbs_lt_limit n hn
    have hbound := (ofRatio_bounds (decide ((n : ℤ) < 0)) one_pos hone hlimit).2
    rw [Nat.cast_one, div_one] at hbound
    exact hbound

end NestedStyles.Number
