import Heurema.Data.Ieee
import Heurema.Hnsw.Engine

/-! # Distances

The distances as the code computes them, in `f64`. The products of finite `f32`
components and their sums stay finite, so no operation meets an infinity. -/

namespace Heurema.Hnsw.Metric

/-- `Iterator::sum`, which starts from negative zero. -/
def sum (terms : List F64) : F64 := terms.foldl F64.add F64.NEG_ZERO

def squaredDifference (a b : F32) : F64 :=
  let difference := (F64.ofF32 a).sub (F64.ofF32 b)
  difference.mul difference

def product (a b : F32) : F64 := (F64.ofF32 a).mul (F64.ofF32 b)

/-- The dot product and the two squared norms, in one pass from zero. -/
def cosineTerms (left right : List F32) : F64 × F64 × F64 :=
  let zero : F64 := ⟨0x0000000000000000#64⟩
  (left.zip right).foldl (fun (dot, leftNorm, rightNorm) (a, b) =>
    (dot.add (product a b), leftNorm.add (product a a), rightNorm.add (product b b)))
    (zero, zero, zero)

def distance (metric : VectorDistance) (left right : List F32) : F64 :=
  match metric with
  | .l2 => sum (left.zipWith squaredDifference right)
  | .innerProduct => (sum (left.zipWith product right)).neg
  | .cosine =>
    let (dot, leftNorm, rightNorm) := cosineTerms left right
    let one : F64 := ⟨0x3ff0000000000000#64⟩
    if leftNorm.toRat = 0 ∧ rightNorm.toRat = 0 then ⟨0x0000000000000000#64⟩
    else if leftNorm.toRat = 0 ∨ rightNorm.toRat = 0 then one
    else one.sub (dot.div (leftNorm.sqrt.mul rightNorm.sqrt))

/-- The engine's arithmetic, up to the text of a number in an error. -/
abbrev math (display : F64 → String) : VectorMath where
  distance := distance
  narrow := F64.toF32
  display := display

end Heurema.Hnsw.Metric
