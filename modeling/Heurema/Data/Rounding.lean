import Mathlib.Algebra.Order.Field.Power
import Mathlib.Data.Int.Log
import Mathlib.Data.Rat.Floor
import Mathlib.Tactic.FieldSimp
import Mathlib.Tactic.GCongr

/-! # Rounding to a binary format

The value an IEEE operation returns is its exact value rounded to the format: to
the nearest multiple of the unit in the last place, and to the even one of two
that are as near. Values are rationals; what lies above the greatest finite
value is for the encoding to handle. -/

/-- The integer nearest to `x`, the even one of two. -/
def nearestEven (x : ℚ) : ℤ :=
  if Int.fract x < 1 / 2 then ⌊x⌋
  else if 1 / 2 < Int.fract x then ⌊x⌋ + 1
  else if Even ⌊x⌋ then ⌊x⌋ else ⌊x⌋ + 1

theorem floor_le_nearestEven (x : ℚ) : ⌊x⌋ ≤ nearestEven x := by
  unfold nearestEven
  split_ifs <;> omega

theorem nearestEven_le_floor (x : ℚ) : nearestEven x ≤ ⌊x⌋ + 1 := by
  unfold nearestEven
  split_ifs <;> omega

@[simp] theorem nearestEven_intCast (n : ℤ) : nearestEven n = n := by
  simp [nearestEven]

theorem nearestEven_mono {x y : ℚ} (h : x ≤ y) : nearestEven x ≤ nearestEven y := by
  rcases (Int.floor_le_floor h).lt_or_eq with hlt | heq
  · have hx := nearestEven_le_floor x
    have hy := floor_le_nearestEven y
    omega
  · -- On one unit interval the fractions are ordered as the numbers are.
    have hfract : Int.fract x ≤ Int.fract y := by
      rw [Int.fract, Int.fract, heq]
      linarith
    unfold nearestEven
    rw [heq]
    split_ifs <;> first | omega | linarith

theorem nearestEven_neg (x : ℚ) : nearestEven (-x) = -nearestEven x := by
  rcases eq_or_ne (Int.fract x) 0 with h0 | h0
  · have hx : x = (⌊x⌋ : ℚ) := by
      have := Int.self_sub_floor x
      linarith
    rw [hx, ← Int.cast_neg, nearestEven_intCast, nearestEven_intCast]
  · have hfract := Int.fract_neg h0
    have hfloor : ⌊-x⌋ = -⌊x⌋ - 1 := by
      have hneg := Int.self_sub_floor (-x)
      have hpos := Int.self_sub_floor x
      have : ((⌊-x⌋ : ℤ) : ℚ) = ((-⌊x⌋ - 1 : ℤ) : ℚ) := by
        push_cast
        linarith
      exact_mod_cast this
    have heven : Even ⌊-x⌋ ↔ ¬ Even ⌊x⌋ := by
      rw [hfloor, Int.even_sub_one, even_neg]
    unfold nearestEven
    rw [hfract]
    split_ifs <;> first | omega | linarith | (exfalso; tauto)

/-- A binary format: the bits of its significands, and the exponent of its least
positive number. -/
structure BinaryFormat where
  precision : Nat
  least : Int
  positive : 0 < precision := by decide
  fractional : least ≤ 0 := by decide

namespace BinaryFormat

variable (f : BinaryFormat)

def binary32 : BinaryFormat := { precision := 24, least := -149 }

def binary64 : BinaryFormat := { precision := 53, least := -1074 }

/-- The exponent of the unit in the last place of a number of this size. -/
def exponent (x : ℚ) : Int := max (Int.log 2 |x| + 1 - f.precision) f.least

/-- The significand of the format's number nearest to `x`. -/
def significand (x : ℚ) : Int := nearestEven (x / 2 ^ f.exponent x)

/-- The format's number nearest to `x`. -/
def round (x : ℚ) : ℚ := f.significand x * 2 ^ f.exponent x

/-- The numbers of the format, were its exponents unbounded. -/
def Representable (x : ℚ) : Prop :=
  ∃ (n e : Int), f.least ≤ e ∧ |n| ≤ 2 ^ f.precision ∧ x = n * 2 ^ e

variable {f} {x y : ℚ}

theorem least_le_exponent : f.least ≤ f.exponent x := le_max_right _ _

theorem exponent_mono (hx : 0 < x) (h : x ≤ y) : f.exponent x ≤ f.exponent y := by
  have hlog : Int.log 2 |x| ≤ Int.log 2 |y| := by
    rw [abs_of_pos hx, abs_of_pos (hx.trans_le h)]
    exact Int.log_mono_right hx h
  unfold exponent
  omega

theorem abs_lt_scaled (x : ℚ) : |x| < 2 ^ (f.exponent x + f.precision) := by
  have hlog : Int.log 2 |x| + 1 ≤ f.exponent x + f.precision := by
    unfold exponent
    omega
  calc |x| < ((2 : ℕ) : ℚ) ^ (Int.log 2 |x| + 1) := Int.lt_zpow_succ_log_self (by decide) _
    _ ≤ 2 ^ (f.exponent x + f.precision) := by
      push_cast
      exact zpow_le_zpow_right₀ (by norm_num) hlog

theorem exponent_le {e : Int} (hx : x ≠ 0) (he : f.least ≤ e) (h : |x| < 2 ^ (e + f.precision)) :
    f.exponent x ≤ e := by
  have hlog : Int.log 2 |x| < e + f.precision := by
    rw [← Int.lt_zpow_iff_log_lt (by decide) (abs_pos.mpr hx)]
    exact_mod_cast h
  unfold exponent
  omega

@[simp] theorem round_zero : f.round 0 = 0 := by
  have : nearestEven 0 = 0 := nearestEven_intCast 0
  simp [round, significand, this]

theorem round_neg (x : ℚ) : f.round (-x) = -f.round x := by
  simp only [round, significand, exponent, abs_neg, neg_div, nearestEven_neg, Int.cast_neg, neg_mul]

/-- A multiple of a unit is a multiple of every smaller one. -/
theorem refine_unit {e e' : Int} (n : Int) (h : e' ≤ e) : ∃ m : Int, (n * 2 ^ e : ℚ) = m * 2 ^ e' := by
  obtain ⟨k, hk⟩ := Int.eq_ofNat_of_zero_le (sub_nonneg.mpr h)
  have he : e = (k : Int) + e' := by omega
  refine ⟨n * 2 ^ k, ?_⟩
  rw [he, zpow_add₀ (by norm_num), zpow_natCast]
  push_cast
  ring

/-- A multiple of its own unit in the last place is kept. -/
theorem round_eq_self {n : Int} (h : x = n * 2 ^ f.exponent x) : f.round x = x := by
  have hunit : (2 : ℚ) ^ f.exponent x ≠ 0 := by positivity
  have hdiv : x / 2 ^ f.exponent x = n := by rw [div_eq_iff hunit]; exact h
  rw [round, significand, hdiv, nearestEven_intCast]
  exact h.symm

theorem round_of_representable (h : f.Representable x) : f.round x = x := by
  obtain ⟨n, e, he, hn, rfl⟩ := h
  rcases eq_or_ne n 0 with rfl | hn0
  · simp
  have hscaled (m e : Int) : |(m * 2 ^ e : ℚ)| = (|m| : Int) * 2 ^ e := by
    rw [abs_mul, abs_of_pos (a := (2 : ℚ) ^ e) (by positivity), Int.cast_abs]
  -- A significand of `2 ^ precision` is half as large one exponent higher.
  obtain ⟨m, e', he', hm0, hm, heq⟩ : ∃ m e' : Int, f.least ≤ e' ∧ m ≠ 0 ∧ |m| < 2 ^ f.precision ∧
      (n * 2 ^ e : ℚ) = m * 2 ^ e' := by
    rcases hn.lt_or_eq with hlt | hfull
    · exact ⟨n, e, he, hn0, hlt, rfl⟩
    · obtain ⟨p, hp⟩ := Nat.exists_eq_succ_of_ne_zero f.positive.ne'
      rw [hp, pow_succ] at hfull
      obtain ⟨m, rfl⟩ : (2 : Int) ∣ n := by
        rw [← dvd_abs, hfull]
        exact Int.dvd_mul_left _ _
      refine ⟨m, e + 1, by omega, by rintro rfl; simp at hn0, ?_, ?_⟩
      · rw [abs_mul] at hfull
        have : (0 : Int) < 2 ^ p := by positivity
        rw [hp, pow_succ]
        norm_num at hfull
        omega
      · rw [zpow_add₀ (by norm_num)]
        push_cast
        ring
  have hexponent : f.exponent (n * 2 ^ e) ≤ e' := by
    refine exponent_le ?_ he' ?_
    · rw [heq]
      exact mul_ne_zero (by exact_mod_cast hm0) (by positivity)
    · rw [heq, hscaled, zpow_add₀ (by norm_num), mul_comm]
      have hcast : ((|m| : Int) : ℚ) < 2 ^ (f.precision : Int) := by exact_mod_cast hm
      gcongr
  obtain ⟨k, hk⟩ := refine_unit m hexponent
  exact round_eq_self (heq.trans hk)

theorem abs_significand_le (x : ℚ) : |f.significand x| ≤ 2 ^ f.precision := by
  have hlt := abs_lt_scaled (f := f) x
  have hunit : (0 : ℚ) < 2 ^ f.exponent x := by positivity
  have hdiv : |x / 2 ^ f.exponent x| ≤ 2 ^ f.precision := by
    rw [abs_div, abs_of_pos hunit, div_le_iff₀ hunit]
    rw [zpow_add₀ (by norm_num), zpow_natCast, mul_comm] at hlt
    exact hlt.le
  have hbound : ((2 ^ f.precision : Int) : ℚ) = 2 ^ f.precision := by push_cast; rfl
  rw [abs_le, ← hbound, ← Int.cast_neg] at hdiv
  rw [abs_le]
  have hlower := nearestEven_mono hdiv.1
  have hupper := nearestEven_mono hdiv.2
  rw [nearestEven_intCast] at hlower hupper
  exact ⟨hlower, hupper⟩

theorem representable_round (x : ℚ) : f.Representable (f.round x) :=
  ⟨f.significand x, f.exponent x, least_le_exponent, abs_significand_le x, rfl⟩

@[simp] theorem round_round (x : ℚ) : f.round (f.round x) = f.round x :=
  round_of_representable (representable_round x)

@[simp] theorem round_one : f.round 1 = 1 :=
  round_of_representable ⟨1, 0, f.fractional, by simpa using one_le_pow₀ one_le_two, by simp⟩

theorem round_nonneg (h : 0 ≤ x) : 0 ≤ f.round x := by
  have hsignificand : 0 ≤ f.significand x := by
    have hdiv : ((0 : Int) : ℚ) ≤ x / 2 ^ f.exponent x := by positivity
    rw [significand, ← nearestEven_intCast 0]
    exact nearestEven_mono hdiv
  rw [round]
  have hcast : (0 : ℚ) ≤ f.significand x := by exact_mod_cast hsignificand
  positivity

theorem round_le {n : Int} (h : x ≤ n * 2 ^ f.exponent x) : f.round x ≤ n * 2 ^ f.exponent x := by
  have hunit : (0 : ℚ) < 2 ^ f.exponent x := by positivity
  have hle : f.significand x ≤ n := by
    rw [significand, ← nearestEven_intCast n]
    exact nearestEven_mono ((div_le_iff₀ hunit).mpr h)
  have hcast : (f.significand x : ℚ) ≤ n := by exact_mod_cast hle
  rw [round]
  gcongr

theorem le_round {n : Int} (h : n * 2 ^ f.exponent x ≤ x) : n * 2 ^ f.exponent x ≤ f.round x := by
  have hunit : (0 : ℚ) < 2 ^ f.exponent x := by positivity
  have hle : n ≤ f.significand x := by
    rw [significand, ← nearestEven_intCast n]
    exact nearestEven_mono ((le_div_iff₀ hunit).mpr h)
  have hcast : (n : ℚ) ≤ f.significand x := by exact_mod_cast hle
  rw [round]
  gcongr

theorem round_mono_of_pos (hx : 0 < x) (h : x ≤ y) : f.round x ≤ f.round y := by
  rcases (exponent_mono (f := f) hx h).eq_or_lt with heq | hlt
  · have hunit : (0 : ℚ) < 2 ^ f.exponent y := by positivity
    have hdiv : x / 2 ^ f.exponent y ≤ y / 2 ^ f.exponent y := by gcongr
    have hmono : ((nearestEven (x / 2 ^ f.exponent y) : Int) : ℚ) ≤
        (nearestEven (y / 2 ^ f.exponent y) : Int) := by exact_mod_cast nearestEven_mono hdiv
    rw [round, round, significand, significand, heq]
    gcongr
  · -- A power of two, a multiple of either unit, lies between the two numbers.
    have hleast := least_le_exponent (f := f) (x := x)
    have hprecision := f.positive
    have hlogx : Int.log 2 |x| + 1 ≤ Int.log 2 |y| := by
      unfold exponent at hlt
      omega
    have hlogy : f.exponent y ≤ Int.log 2 |y| := by
      unfold exponent at hlt hleast ⊢
      omega
    have hlo : x ≤ ((1 : Int) : ℚ) * 2 ^ Int.log 2 |y| := by
      calc x ≤ |x| := le_abs_self x
        _ ≤ ((2 : ℕ) : ℚ) ^ (Int.log 2 |x| + 1) := (Int.lt_zpow_succ_log_self (by decide) _).le
        _ ≤ 2 ^ Int.log 2 |y| := by
          push_cast
          exact zpow_le_zpow_right₀ (by norm_num) hlogx
        _ = ((1 : Int) : ℚ) * 2 ^ Int.log 2 |y| := by rw [Int.cast_one, one_mul]
    have hhi : ((1 : Int) : ℚ) * 2 ^ Int.log 2 |y| ≤ y := by
      have hy := hx.trans_le h
      have := Int.zpow_log_le_self (b := 2) (by decide) hy
      rw [Int.cast_one, one_mul, abs_of_pos hy]
      exact_mod_cast this
    obtain ⟨m, hm⟩ := refine_unit 1 (hlt.le.trans hlogy)
    obtain ⟨n, hn⟩ := refine_unit 1 hlogy
    calc f.round x ≤ m * 2 ^ f.exponent x := round_le (hm ▸ hlo)
      _ = n * 2 ^ f.exponent y := hm.symm.trans hn
      _ ≤ f.round y := le_round (hn ▸ hhi)

theorem round_mono : Monotone f.round := by
  intro x y h
  rcases lt_trichotomy x 0 with hx | rfl | hx
  · rcases lt_or_ge y 0 with hy | hy
    · have := round_mono_of_pos (f := f) (neg_pos.mpr hy) (neg_le_neg h)
      rw [round_neg, round_neg] at this
      exact neg_le_neg_iff.mp this
    · have := round_nonneg (f := f) (neg_nonneg.mpr hx.le)
      rw [round_neg] at this
      exact (neg_nonneg.mp this).trans (round_nonneg hy)
  · simpa using round_nonneg (f := f) h
  · exact round_mono_of_pos hx h

end BinaryFormat
