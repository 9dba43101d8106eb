import Mathlib.Tactic

/-!
# 64-bit floats by their bits

The comparisons of IEEE 754 `binary64` values: `lt` is the numeric order, false on a NaN, and
`totalLe` the total order of `f64::total_cmp`.  Arithmetic is not modelled.
-/

/-- A 64-bit float, by its bits. -/
structure F64 where
  bits : UInt64
  deriving DecidableEq

namespace F64

def isNeg (x : F64) : Bool := 2 ^ 63 ≤ x.bits.toNat

/-- Exponent and fraction. -/
def magnitude (x : F64) : ℕ := x.bits.toNat % 2 ^ 63

def isNaN (x : F64) : Bool := 0x7FF0000000000000 < x.magnitude

/-- An integer in the numeric order of the float, for floats that are no NaN. -/
def rank (x : F64) : ℤ := if x.isNeg then -x.magnitude else x.magnitude

/-- `x < y`. -/
def lt (x y : F64) : Bool := !x.isNaN && !y.isNaN && decide (x.rank < y.rank)

/-- `x <= y`. -/
def le (x y : F64) : Bool := !x.isNaN && !y.isNaN && decide (x.rank ≤ y.rank)

/-- An integer in the total order: the two zeros are apart. -/
def totalRank (x : F64) : ℤ := if x.isNeg then -x.magnitude - 1 else x.magnitude

/-- `x.total_cmp(&y)` is not `Greater`. -/
def totalLe (x y : F64) : Bool := x.totalRank ≤ y.totalRank

theorem lt_irrefl (x : F64) : lt x x = false := by simp [lt]

theorem lt_trans (x y z : F64) (hxy : lt x y = true) (hyz : lt y z = true) : lt x z = true := by
  simp only [lt, Bool.and_eq_true, decide_eq_true_eq] at *
  exact ⟨⟨hxy.1.1, hyz.1.2⟩, hxy.2.trans hyz.2⟩

-- -1.0 < -0.0, the zeros are equal, and a NaN is in no order.
example : lt ⟨0xBFF0000000000000⟩ ⟨0x8000000000000000⟩ = true ∧ lt ⟨0x8000000000000000⟩ ⟨0⟩ = false ∧
    lt ⟨0x7FF8000000000000⟩ ⟨0⟩ = false ∧ lt ⟨0⟩ ⟨0x7FF8000000000000⟩ = false := by decide

end F64
