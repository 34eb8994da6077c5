import Mathlib.Algebra.Order.Ring.Nat
import Mathlib.Order.Std
import Mathlib.Order.Lattice
import Mathlib.Tactic.Common

/-! # Floating-point numbers

A float is its bit pattern, and its order is `total_cmp`. The arithmetic is
not modelled here: what computes with floats takes it as a parameter. -/

/-- The bits of an `f32`. -/
@[ext] structure F32 where
  bits : BitVec 32
deriving DecidableEq, Repr

/-- The bits of an `f64`. -/
@[ext] structure F64 where
  bits : BitVec 64
deriving DecidableEq, Repr

/-- The rank of a bit pattern under `total_cmp`: the patterns with the sign bit
come first, and among them the order of the magnitudes is reversed. -/
def totalKey {w : Nat} (bits : BitVec w) : Nat :=
  if bits.msb then (~~~bits).toNat else 2 ^ w + bits.toNat

theorem totalKey_injective {w : Nat} : Function.Injective (@totalKey w) := by
  intro a b h
  have ha := (~~~a).isLt
  have hb := (~~~b).isLt
  unfold totalKey at h
  split at h <;> split at h
  · exact BitVec.not_inj.mp (BitVec.eq_of_toNat_eq h)
  · omega
  · omega
  · exact BitVec.eq_of_toNat_eq (by omega)

namespace F32

/-- `f32::is_finite`: the exponent is not all ones. -/
def isFinite (x : F32) : Bool := x.bits &&& 0x7f800000#32 != 0x7f800000#32

/-- `f32::total_cmp`. -/
instance : LinearOrder F32 :=
  LinearOrder.lift' (fun x => totalKey x.bits)
    (fun _ _ h => F32.ext (totalKey_injective h))

end F32

namespace F64

/-- `f64::INFINITY`. -/
def INFINITY : F64 := ⟨0x7ff0000000000000#64⟩

/-- `f64::total_cmp`. -/
instance : LinearOrder F64 :=
  LinearOrder.lift' (fun x => totalKey x.bits)
    (fun _ _ h => F64.ext (totalKey_injective h))

end F64
