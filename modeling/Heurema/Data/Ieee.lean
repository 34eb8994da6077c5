import Heurema.Data.Float
import Heurema.Data.Rounding
import Mathlib.Data.Nat.Sqrt

/-! # Values of floating-point numbers

What number a bit pattern stands for, and the bit pattern of a number rounded to
the format. The patterns of one sign are numbered in the order of their values,
so the unit in the last place and its multiple give the pattern by a sum. -/

namespace BinaryFormat

variable (f : BinaryFormat)

/-- The number that a pattern without its sign stands for. -/
def decode (pattern : Nat) : ℚ :=
  let exponent := pattern / 2 ^ (f.precision - 1)
  let fraction := pattern % 2 ^ (f.precision - 1)
  if exponent = 0 then fraction * 2 ^ f.least
  else (2 ^ (f.precision - 1) + fraction : Nat) * 2 ^ (exponent - 1 + f.least)

/-- The pattern, without its sign, of the format's number nearest to `x`; that
of infinity when the format has none. -/
def encode (infinity : Nat) (x : ℚ) : Nat :=
  -- Zero has no leading digit to take an exponent from.
  if x = 0 then 0
  else min infinity
    (f.significand |x| + (f.exponent |x| - f.least) * 2 ^ (f.precision - 1)).toNat

variable {f} {pattern pattern' : Nat}

@[simp] theorem decode_zero : f.decode 0 = 0 := by simp [decode]

/-- The fields of a pattern give its value; a fraction one too large carries into
the exponent with the value it should. -/
theorem decode_fields (exponent : Nat) {fraction : Nat} (h : fraction ≤ 2 ^ (f.precision - 1)) :
    f.decode (2 ^ (f.precision - 1) * exponent + fraction) =
      if exponent = 0 then (fraction : ℚ) * 2 ^ f.least
      else ((2 ^ (f.precision - 1) + fraction : Nat) : ℚ) * 2 ^ (exponent - 1 + f.least) := by
  have hbase : 0 < 2 ^ (f.precision - 1) := by positivity
  rw [decode]
  rcases h.lt_or_eq with hlt | heq
  · rw [Nat.mul_add_div hbase, Nat.mul_add_mod, Nat.div_eq_of_lt hlt, Nat.mod_eq_of_lt hlt,
      Nat.add_zero]
  · rw [heq, ← Nat.mul_succ, Nat.mul_div_cancel_left _ hbase, Nat.mul_mod_right]
    cases exponent with
    | zero => simp
    | succ exponent =>
      have hexponent : ((exponent + 1 + 1 : Nat) : Int) - 1 + f.least =
          1 + ((exponent + 1 : Nat) - 1 + f.least) := by
        push_cast
        ring
      simp only [Nat.succ_eq_add_one, Nat.add_eq_zero_iff, one_ne_zero, and_false, if_false,
        Nat.add_zero, hexponent]
      rw [zpow_add₀ (by norm_num), ← mul_assoc]
      congr 1
      push_cast
      ring

theorem decode_lt_succ (pattern : Nat) : f.decode pattern < f.decode (pattern + 1) := by
  have hmod : pattern % 2 ^ (f.precision - 1) < 2 ^ (f.precision - 1) :=
    Nat.mod_lt _ (by positivity)
  rw [← Nat.div_add_mod pattern (2 ^ (f.precision - 1)), Nat.add_assoc, decode_fields _ hmod.le,
    decode_fields _ (Nat.succ_le_of_lt hmod)]
  split <;> push_cast <;> gcongr <;> linarith

theorem decode_strictMono : StrictMono f.decode := strictMono_nat_of_lt_succ decode_lt_succ

theorem decode_nonneg (pattern : Nat) : 0 ≤ f.decode pattern := by
  rw [← decode_zero (f := f)]
  exact decode_strictMono.monotone (Nat.zero_le pattern)

end BinaryFormat

namespace F32

def ZERO : F32 := ⟨0x00000000#32⟩

def NEG_ZERO : F32 := ⟨0x80000000#32⟩

/-- `f32::is_sign_negative`. -/
def isSignNegative (x : F32) : Bool := x.bits.msb

/-- The pattern without its sign. -/
def magnitude (x : F32) : Nat := x.bits.toNat % 2 ^ 31

/-- The value of a finite number. Two finite numbers are `==` when their values
are equal. -/
def toRat (x : F32) : ℚ :=
  let value := BinaryFormat.binary32.decode x.magnitude
  if x.isSignNegative then -value else value

/-- The number nearest to `x`, with a sign even when it is zero. -/
def ofSigned (negative : Bool) (x : ℚ) : F32 :=
  ⟨(if negative then 0x80000000#32 else 0#32) |||
    BitVec.ofNat 32 (BinaryFormat.binary32.encode 0x7f800000 x)⟩

/-- The number nearest to `x`. -/
def ofRat (x : ℚ) : F32 := ofSigned (x < 0) x

/-- A number is its sign and its magnitude. -/
theorem ext_magnitude {x y : F32} (hsign : x.isSignNegative = y.isSignNegative)
    (hmagnitude : x.magnitude = y.magnitude) : x = y := by
  have fields (x : F32) : x.bits.toNat = (if x.isSignNegative then 2 ^ 31 else 0) + x.magnitude := by
    have hlt := x.bits.isLt
    have hmsb : x.isSignNegative = true ↔ 2 ^ 31 ≤ x.bits.toNat := by
      rw [isSignNegative, BitVec.msb_eq_decide]
      simp
    unfold magnitude
    split
    · next hneg =>
      have := hmsb.mp hneg
      omega
    · next hneg =>
      have := mt hmsb.mpr hneg
      omega
  refine F32.ext (BitVec.eq_of_toNat_eq ?_)
  rw [fields x, fields y, hsign, hmagnitude]

/-- The two zeros are one value; every other value has one pattern. -/
theorem toRat_eq_iff {x y : F32} : x.toRat = y.toRat ↔
    x = y ∨ (x = ZERO ∧ y = NEG_ZERO) ∨ (x = NEG_ZERO ∧ y = ZERO) := by
  constructor
  · intro h
    have hx := BinaryFormat.decode_nonneg (f := BinaryFormat.binary32) x.magnitude
    have hy := BinaryFormat.decode_nonneg (f := BinaryFormat.binary32) y.magnitude
    unfold toRat at h
    by_cases hsign : x.isSignNegative = y.isSignNegative
    · rw [hsign] at h
      have hinjective := (BinaryFormat.decode_strictMono (f := BinaryFormat.binary32)).injective
      refine .inl (ext_magnitude hsign (hinjective ?_))
      dsimp only at h
      split at h
      · exact neg_inj.mp h
      · exact h
    · have hzero : BinaryFormat.binary32.decode x.magnitude = 0 ∧
          BinaryFormat.binary32.decode y.magnitude = 0 := by
        dsimp only at h
        split at h <;> split at h <;> first | (exfalso; grind) | (constructor <;> linarith)
      have hmagnitude (pattern : Nat) (h : BinaryFormat.binary32.decode pattern = 0) : pattern = 0 :=
        BinaryFormat.decode_strictMono.injective (h.trans BinaryFormat.decode_zero.symm)
      have hx0 := hmagnitude _ hzero.1
      have hy0 := hmagnitude _ hzero.2
      have zero {x : F32} (hsign : x.isSignNegative = false) (h : x.magnitude = 0) : x = ZERO :=
        ext_magnitude hsign h
      have negZero {x : F32} (hsign : x.isSignNegative = true) (h : x.magnitude = 0) : x = NEG_ZERO :=
        ext_magnitude hsign h
      cases hxs : x.isSignNegative with
      | true => exact .inr (.inr ⟨negZero hxs hx0, zero (by simpa [hxs] using Ne.symm hsign) hy0⟩)
      | false => exact .inr (.inl ⟨zero hxs hx0, negZero (by simpa [hxs] using Ne.symm hsign) hy0⟩)
  · have hvalue : ZERO.toRat = NEG_ZERO.toRat := by decide +kernel
    rintro (rfl | ⟨rfl, rfl⟩ | ⟨rfl, rfl⟩)
    · rfl
    · exact hvalue
    · exact hvalue.symm

theorem zero_of_between {x : F32} (hlow : NEG_ZERO ≤ x) (hhigh : x ≤ ZERO) :
    x = NEG_ZERO ∨ x = ZERO := by
  have hlow : totalKey NEG_ZERO.bits ≤ totalKey x.bits := hlow
  have hhigh : totalKey x.bits ≤ totalKey ZERO.bits := hhigh
  have hneg : totalKey NEG_ZERO.bits = 2 ^ 31 - 1 := by decide
  have hzero : totalKey ZERO.bits = 2 ^ 32 := by decide
  rw [hneg] at hlow
  rw [hzero] at hhigh
  have hlt := x.bits.isLt
  have hmsb := BitVec.msb_eq_decide x.bits
  unfold totalKey at hlow hhigh
  split at hhigh
  · next hsign =>
    rw [if_pos hsign] at hlow
    left
    refine F32.ext (BitVec.eq_of_toNat_eq ?_)
    have hge : 2 ^ 31 ≤ x.bits.toNat := by simpa [hsign] using hmsb
    rw [BitVec.toNat_not] at hlow
    show x.bits.toNat = 2 ^ 31
    omega
  · right
    refine F32.ext (BitVec.eq_of_toNat_eq ?_)
    show x.bits.toNat = 0
    omega

end F32

namespace F64

/-- `f64::is_sign_negative`. -/
def isSignNegative (x : F64) : Bool := x.bits.msb

/-- The value of a finite number. -/
def toRat (x : F64) : ℚ :=
  let value := BinaryFormat.binary64.decode (x.bits.toNat % 2 ^ 63)
  if x.isSignNegative then -value else value

/-- The number nearest to `x`, with a sign even when it is zero. -/
def ofSigned (negative : Bool) (x : ℚ) : F64 :=
  ⟨(if negative then 0x8000000000000000#64 else 0#64) |||
    BitVec.ofNat 64 (BinaryFormat.binary64.encode 0x7ff0000000000000 x)⟩

/-- `f64::from`. -/
def ofF32 (x : F32) : F64 := ofSigned x.isSignNegative x.toRat

/-- `as f32`. -/
def toF32 (x : F64) : F32 := F32.ofSigned x.isSignNegative x.toRat

example : toF32 ⟨0x8000000000000000#64⟩ = F32.NEG_ZERO := by decide +kernel

/-! ## Operations on finite numbers -/

def NEG_ZERO : F64 := ⟨0x8000000000000000#64⟩

def neg (x : F64) : F64 := ⟨x.bits ^^^ 0x8000000000000000#64⟩

/-- An exact zero is positive, unless both terms are negative zeros. -/
def add (x y : F64) : F64 :=
  let sum := x.toRat + y.toRat
  ofSigned (if sum = 0 then x.isSignNegative && y.isSignNegative else sum < 0) sum

def sub (x y : F64) : F64 := x.add y.neg

def mul (x y : F64) : F64 := ofSigned (x.isSignNegative ^^ y.isSignNegative) (x.toRat * y.toRat)

def div (x y : F64) : F64 := ofSigned (x.isSignNegative ^^ y.isSignNegative) (x.toRat / y.toRat)

/-- The integer nearest to the root of `x`, the even one of two. -/
def nearestRoot (x : ℚ) : Nat :=
  let root := Nat.sqrt ⌊x⌋₊
  let middle : ℚ := (root + 1 / 2) ^ 2
  if x < middle then root
  else if middle < x then root + 1
  else if Even root then root else root + 1

/-- `f64::sqrt` of a number that is not negative. -/
def sqrt (x : F64) : F64 :=
  let format := BinaryFormat.binary64
  let unit := max (Int.log 2 x.toRat / 2 + 1 - format.precision) format.least
  ofSigned false (nearestRoot (x.toRat / 2 ^ (2 * unit)) * 2 ^ unit)

end F64
