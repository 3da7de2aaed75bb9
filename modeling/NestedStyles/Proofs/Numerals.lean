import NestedStyles.Json.Basic
import NestedStyles.Proofs.Rounding

/-!
# Which numerals are in range

Reading a numeral drops digits and rounds up to three times. Dropping digits makes the numeral
smaller (`Numeral.significand_le`), and each rounding makes it larger by one part in `2 ^ 53` at
most, so every numeral up to the third largest double is read as a number
(`Numeral.exists_read?`). A number that is read is finite (`Numeric.isFinite_number`).
-/

namespace NestedStyles

namespace Number

/-- The third largest double. -/
def thirdLargest : ℚ := (2 ^ 53 - 3) * 2 ^ (971 : ℤ)

/-- Two roundings do not take the third largest double to the limit. -/
theorem thirdLargest_lt_limit : thirdLargest * (1 + 1 / 2 ^ 53) ^ 2 < limit := by
  have hpow : (0 : ℚ) < 2 ^ (970 : ℤ) := by positivity
  calc thirdLargest * (1 + 1 / 2 ^ 53) ^ 2
      = (2 ^ 53 - 3) * (2 ^ (970 : ℤ) * 2) * (1 + 1 / 2 ^ 53) ^ 2 := by
        rw [← zpow_add_one₀ two_ne_zero, thirdLargest]
        rfl
    _ = (2 ^ 53 - 3) * 2 * (1 + 1 / 2 ^ 53) ^ 2 * 2 ^ (970 : ℤ) := by ring
    _ < limit := mul_lt_mul_of_pos_right (by norm_num) hpow

theorem thirdLargest_lt_power : thirdLargest < 10 ^ (309 : ℤ) := by
  have hcast : ((2 ^ 53 - 3 : ℕ) : ℚ) = 2 ^ 53 - 3 := by norm_num
  have hlt : (((2 ^ 53 - 3) * 2 ^ 971 : ℕ) : ℚ) < (10 ^ 309 : ℕ) :=
    Nat.cast_lt.mpr (by decide +kernel)
  rw [cast_mul_two_pow, hcast, Nat.cast_pow, ← zpow_natCast] at hlt
  exact hlt

end Number

namespace Json

open Number (magnitude limit)

/-! ## Numbers that are read -/

/-- A number that is read is finite. -/
theorem Numeric.isFinite_number (n : Numeric) : n.number.isFinite = true := by
  cases n with
  | unsigned n => exact Number.isFinite_ofInt n.toNat_lt
  | signed n =>
    have hlow := n.le_toInt
    have hhigh := n.toInt_lt
    exact Number.isFinite_ofInt (by omega)
  | float n hn => exact hn

theorem Numeric.exists_ofNumber? {n : Number} (hn : n.isFinite = true) :
    ∃ found, Numeric.ofNumber? n = some found := ⟨_, dif_pos hn⟩

namespace Numeral

/-! ## Powers of ten -/

theorem tenTo_bounds {power : ℕ} (hpower : power ≤ largestPower) :
    (tenTo power).isFinite = true ∧ 10 ^ power * (1 - 1 / 2 ^ 53) ≤ (tenTo power).magnitude ∧
      (tenTo power).magnitude ≤ 10 ^ power * (1 + 1 / 2 ^ 53) := by
  have hlargest : ((10 ^ largestPower : ℕ) : ℚ) < ((2 ^ 54 - 1) * 2 ^ 970 : ℕ) :=
    Nat.cast_lt.mpr (by decide +kernel)
  have hlimit : ((Nat.pow 10 power : ℕ) : ℚ) / (1 : ℕ) < limit := by
    rw [Nat.cast_one, div_one]
    calc ((10 ^ power : ℕ) : ℚ) ≤ (10 ^ largestPower : ℕ) :=
          Nat.cast_le.mpr (Nat.pow_le_pow_right (by norm_num) hpower)
      _ < ((2 ^ 54 - 1) * 2 ^ 970 : ℕ) := hlargest
      _ = limit := Number.cast_limit
  have hone : 1 ≤ ((Nat.pow 10 power : ℕ) : ℚ) / (1 : ℕ) := by
    rw [Nat.cast_one, div_one]
    exact_mod_cast Nat.one_le_pow power 10 (by norm_num)
  have hbounds := Number.ofRatio_bounds false one_pos hone hlimit
  simp only [Nat.pow_eq, Nat.cast_one, div_one, Nat.cast_pow, Nat.cast_ofNat] at hbounds
  exact ⟨(Number.ofRatio_near false _ one_pos hlimit).1, hbounds⟩

/-- A power of ten is two at least, unless it is one. -/
theorem two_le_tenTo {power : ℕ} (hpos : 0 < power) (hpower : power ≤ largestPower) :
    2 ≤ (tenTo power).magnitude := by
  obtain ⟨-, hlow, -⟩ := tenTo_bounds hpower
  have hten : (10 : ℚ) ^ 1 ≤ 10 ^ power := pow_le_pow_right₀ (by norm_num) hpos
  calc (2 : ℚ) ≤ 10 ^ 1 * (1 - 1 / 2 ^ 53) := by norm_num
    _ ≤ 10 ^ power * (1 - 1 / 2 ^ 53) := by gcongr
    _ ≤ (tenTo power).magnitude := hlow

/-- A quotient by a power of ten is finite and no larger than the bound of what is divided. -/
theorem div_tenTo {x : Number} (hx : x.isFinite = true) (hbound : x.magnitude ≤ 2 ^ 65)
    {power : ℕ} (hpos : 0 < power) (hpower : power ≤ largestPower) :
    (x.div (tenTo power)).isFinite = true ∧ (x.div (tenTo power)).magnitude ≤ 2 ^ 65 := by
  have htwo := two_le_tenTo hpos hpower
  obtain ⟨negative, num, den, hden, heq, hratio⟩ := Number.exists_div hx (by linarith)
  have hhalf : (num : ℚ) / den ≤ 2 ^ 64 := by
    rw [hratio, div_le_iff₀ (by linarith)]
    linarith
  obtain ⟨hfinite, hnear⟩ := Number.ofRatio_near negative num hden
    (Number.lt_limit (hhalf.trans (by norm_num)))
  rw [heq]
  refine ⟨hfinite, ?_⟩
  have htiny : (2 : ℚ) ^ (-1075 : ℤ) ≤ 2 ^ (0 : ℤ) := zpow_le_zpow_right₀ one_le_two (by norm_num)
  have hmax : max ((num : ℚ) / den / 2 ^ 53) (2 ^ (-1075 : ℤ)) ≤ 2 ^ 64 :=
    max_le ((div_le_self (by positivity) (by norm_num)).trans hhalf)
      (htiny.trans (by norm_num))
  have := (abs_le.mp hnear).2
  linarith

/-- A number of moderate size stays finite where it is divided by powers of ten. -/
theorem isFinite_scaled_of_neg {x : Number} {exponent : ℤ} (hx : x.isFinite = true)
    (hbound : x.magnitude ≤ 2 ^ 65) (hexponent : exponent < 0) :
    (scaled x exponent).isFinite = true := by
  fun_induction scaled x exponent with
  | case1 => omega
  | case2 x exponent hpower =>
    exact (div_tenTo hx hbound (by omega) hpower).1
  | case3 => exact hx
  | case4 => omega
  | case5 x exponent hpower hzero hneg ih =>
    obtain ⟨hdiv, hdivbound⟩ := @div_tenTo x hx hbound largestPower (by decide) le_rfl
    refine ih hdiv hdivbound ?_
    simp only [largestPower] at *
    omega

/-- Up to the third largest double the product of an integer of 64 bits and a power of ten is
finite. -/
theorem isFinite_mul_tenTo {n : ℕ} (hn : n < 2 ^ 64) {power : ℕ} (hpower : power ≤ largestPower)
    (hsmall : (n : ℚ) * 10 ^ power ≤ Number.thirdLargest) :
    ((Number.ofInt n).mul (tenTo power)).isFinite = true := by
  obtain ⟨hten, -, htenbound⟩ := tenTo_bounds hpower
  obtain ⟨negative, num, den, hden, heq, hratio⟩ :=
    Number.exists_mul (@Number.isFinite_ofInt n hn) hten
  rw [heq]
  refine (Number.ofRatio_near negative num hden ?_).1
  calc (num : ℚ) / den = (Number.ofInt n).magnitude * (tenTo power).magnitude := hratio
    _ ≤ (n * (1 + 1 / 2 ^ 53)) * (10 ^ power * (1 + 1 / 2 ^ 53)) :=
      mul_le_mul (Number.magnitude_ofInt_le hn) htenbound (Number.magnitude_nonneg _)
        (by positivity)
    _ = n * 10 ^ power * (1 + 1 / 2 ^ 53) ^ 2 := by ring
    _ ≤ Number.thirdLargest * (1 + 1 / 2 ^ 53) ^ 2 := by gcongr
    _ < limit := Number.thirdLargest_lt_limit

/-- Up to the third largest double an integer of 64 bits stays finite where it is scaled by a power
of ten. -/
theorem isFinite_scaled {n : ℕ} (hn : n < 2 ^ 64) {exponent : ℤ}
    (hsmall : (n : ℚ) * 10 ^ exponent ≤ Number.thirdLargest) :
    (scaled (.ofInt n) exponent).isFinite = true := by
  have hfinite : (Number.ofInt n).isFinite = true := Number.isFinite_ofInt hn
  rcases lt_or_ge exponent 0 with hneg | hnonneg
  · have hcast : (n : ℚ) < 2 ^ 64 := by exact_mod_cast hn
    refine isFinite_scaled_of_neg hfinite ((Number.magnitude_ofInt_le hn).trans ?_) hneg
    linarith
  rw [scaled]
  by_cases hpower : exponent.natAbs ≤ largestPower
  · rw [if_pos hpower, if_pos hnonneg]
    refine isFinite_mul_tenTo hn hpower ?_
    rwa [← zpow_natCast, Int.natAbs_of_nonneg hnonneg]
  · rw [if_neg hpower]
    rcases Nat.eq_zero_or_pos n with rfl | hpos
    · exact hfinite
    · have hlarge : 309 ≤ exponent := by
        rw [largestPower] at hpower
        omega
      have hone : (1 : ℚ) ≤ n := by exact_mod_cast hpos
      refine absurd hsmall (not_le.mpr ?_)
      calc Number.thirdLargest < 10 ^ (309 : ℤ) := Number.thirdLargest_lt_power
        _ ≤ 10 ^ exponent := zpow_le_zpow_right₀ (by norm_num) hlarge
        _ ≤ n * 10 ^ exponent := le_mul_of_one_le_left (by positivity) hone

/-! ## Digits that are dropped -/

/-- The integer that an integer with digits behind it makes. -/
def appended (n : ℕ) (digits : List Char) : ℕ :=
  digits.foldl (fun n c => 10 * n + (c.toNat - '0'.toNat)) n

theorem appended_cons (n : ℕ) (digit : Char) (digits : List Char) : appended n (digit :: digits) =
    appended (10 * n + (digit.toNat - '0'.toNat)) digits := List.foldl_cons ..

theorem appended_append (n : ℕ) (front back : List Char) :
    appended n (front ++ back) = appended (appended n front) back := List.foldl_append

theorem le_appended (n : ℕ) (digits : List Char) : n * 10 ^ digits.length ≤ appended n digits := by
  induction digits generalizing n with
  | nil => exact (Nat.mul_one n).le
  | cons digit rest ih =>
    calc n * 10 ^ (rest.length + 1) = 10 * n * 10 ^ rest.length := by ring
      _ ≤ (10 * n + (digit.toNat - '0'.toNat)) * 10 ^ rest.length := by gcongr; omega
      _ ≤ appended n (digit :: rest) := (ih _).trans_eq (appended_cons n digit rest).symm

/-- The digits that are gathered are the longest front that 64 bits hold. -/
theorem gather_eq {n : ℕ} (hn : n < 2 ^ 64) (digits : List Char) :
    ∃ taken rest, digits = taken ++ rest ∧ gather n digits = (appended n taken, rest.length) ∧
      appended n taken < 2 ^ 64 ∧
        ∀ digit more, rest = digit :: more → 2 ^ 64 ≤ appended n (taken ++ [digit]) := by
  induction digits generalizing n with
  | nil => exact ⟨[], [], rfl, rfl, hn, by simp⟩
  | cons digit digits ih =>
    rw [gather]
    by_cases hnext : 10 * n + (digit.toNat - '0'.toNat) < Nat.pow 2 64
    · obtain ⟨taken, rest, rfl, hgather, hless, hmore⟩ := ih hnext
      exact ⟨digit :: taken, rest, rfl, (if_pos hnext).trans hgather, hless, hmore⟩
    · refine ⟨[], digit :: digits, rfl, if_neg hnext, hn, ?_⟩
      rintro _ _ ⟨⟩
      exact not_lt.mp hnext

/-- Where a digit does not fit any more, leaving out this digit and those after it makes the integer
smaller, even if digits behind them fit again. -/
theorem appended_le_of_dropped {n : ℕ} {digit : Char} {lost taken : List Char}
    (hfull : 2 ^ 64 ≤ appended n [digit]) (hless : appended n taken < 2 ^ 64)
    (hpos : 0 < taken.length) :
    appended n taken * 10 ^ (digit :: lost).length ≤
      appended (appended n (digit :: lost)) taken := by
  have hdropped : 2 ^ 64 * 10 ^ lost.length ≤ appended n (digit :: lost) := by
    rw [← List.singleton_append, appended_append]
    exact (Nat.mul_le_mul_right _ hfull).trans (le_appended _ lost)
  calc appended n taken * 10 ^ (lost.length + 1)
      ≤ 2 ^ 64 * 10 ^ (lost.length + 1) := Nat.mul_le_mul_right _ hless.le
    _ = 2 ^ 64 * 10 ^ lost.length * 10 ^ 1 := by rw [pow_add, Nat.mul_assoc]
    _ ≤ appended n (digit :: lost) * 10 ^ taken.length :=
      Nat.mul_le_mul hdropped (Nat.pow_le_pow_right (by norm_num) hpos)
    _ ≤ appended (appended n (digit :: lost)) taken := le_appended _ taken

/-- Dropping digits makes a numeral smaller. -/
theorem significand_le {whole fraction : List Char} {leading dropped significand left : ℕ}
    (hwhole : gather 0 whole = (leading, dropped))
    (hfraction : gather leading fraction = (significand, left)) :
    significand < 2 ^ 64 ∧ left ≤ fraction.length ∧
      significand * 10 ^ (dropped + left) ≤ Number.digitsValue (whole ++ fraction) := by
  obtain ⟨front, lost, rfl, hfront, hleading, hmore⟩ := gather_eq (Nat.two_pow_pos 64) whole
  obtain ⟨rfl, rfl⟩ := Prod.mk.inj (hfront.symm.trans hwhole)
  obtain ⟨taken, rest, rfl, htaken, hless, -⟩ := gather_eq hleading fraction
  obtain ⟨rfl, rfl⟩ := Prod.mk.inj (htaken.symm.trans hfraction)
  refine ⟨hless, by simp, ?_⟩
  have hvalue : Number.digitsValue (front ++ lost ++ (taken ++ rest)) =
      appended (appended (appended (appended 0 front) lost) taken) rest := by
    change appended 0 _ = _
    simp only [appended_append]
  have hkept : appended (appended 0 front) taken * 10 ^ lost.length ≤
      appended (appended (appended 0 front) lost) taken := by
    cases lost with
    | nil => exact (Nat.mul_one _).le
    | cons digit lost =>
      cases taken with
      | nil => exact le_appended _ _
      | cons first taken =>
        have hfull := hmore digit lost rfl
        rw [appended_append] at hfull
        exact appended_le_of_dropped hfull hless (Nat.succ_pos _)
  rw [hvalue, pow_add, ← Nat.mul_assoc]
  exact (Nat.mul_le_mul_right _ hkept).trans (le_appended _ rest)

/-! ## Numerals in range -/

/-- The exact value of a numeral without its sign. -/
def magnitude (numeral : Numeral) : ℚ :=
  Number.digitsValue (numeral.whole ++ numeral.fraction) *
    10 ^ (numeral.exponent.getD 0 - numeral.fraction.length)

theorem isFinite_signed {numeral : Numeral} {n : Number} :
    (numeral.signed n).isFinite = n.isFinite := by
  rw [signed]
  split
  · exact Number.isFinite_neg
  · rfl

/-- An integer of 64 bits is in range with any sign. -/
theorem exists_integer? (numeral : Numeral) {n : ℕ} (hn : n < 2 ^ 64) :
    ∃ found, numeral.integer? n = some found := by
  rw [integer?]
  split
  · exact ⟨_, rfl⟩
  · split
    · exact ⟨_, rfl⟩
    · exact Numeric.exists_ofNumber? (isFinite_signed.trans (Number.isFinite_ofInt hn))

/-- Every numeral up to the third largest double is in range. -/
theorem exists_read? {numeral : Numeral} (h : numeral.magnitude ≤ Number.thirdLargest) :
    ∃ found, numeral.read? = some found := by
  obtain ⟨leading, dropped, hwhole⟩ : ∃ leading dropped,
      gather 0 numeral.whole = (leading, dropped) := ⟨_, _, rfl⟩
  obtain ⟨significand, left, hfraction⟩ : ∃ significand left,
      gather leading numeral.fraction = (significand, left) := ⟨_, _, rfl⟩
  obtain ⟨hless, hleft, hle⟩ := significand_le hwhole hfraction
  simp only [read?, hwhole, hfraction]
  split
  · exact exists_integer? numeral hless
  · refine Numeric.exists_ofNumber? (isFinite_signed.trans (isFinite_scaled hless (h.trans' ?_)))
    have hcast : (significand : ℚ) * 10 ^ (dropped + left) ≤
        Number.digitsValue (numeral.whole ++ numeral.fraction) := by exact_mod_cast hle
    calc (significand : ℚ) * 10 ^ ((dropped : ℤ) - (numeral.fraction.length - left : ℕ) +
          numeral.exponent.getD 0)
        = significand * 10 ^ (dropped + left) *
            10 ^ (numeral.exponent.getD 0 - numeral.fraction.length) := by
          rw [mul_assoc, ← zpow_natCast, ← zpow_add₀ (by norm_num)]
          congr 2
          omega
      _ ≤ numeral.magnitude := mul_le_mul_of_nonneg_right hcast (by positivity)

/-- Above the bound a numeral may be out of range whose nearest double is the largest one. -/
example : read? ⟨false, ['1'], "7976931348623158".toList, some 308⟩ = none := by decide +kernel

/-- A numeral need not be read as the nearest double. -/
example : (read? ⟨false, ['9', '1'], "33333333333333".toList, none⟩).map Numeric.number =
    some (.ofDecimal ⟨false, 9133333333333331, -14⟩) := by decide +kernel

end Numeral

end Json

end NestedStyles
