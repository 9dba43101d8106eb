import Mathlib.Data.List.Basic

/-!
# Sets of bits in a word

* `union`, `twoPow_and_union`.
-/

namespace WildAgentOs.BitSets

open BitVec

variable {w : ℕ}

/-- The words of a list, joined. -/
def union (words : List (BitVec w)) : BitVec w := words.foldl (· ||| ·) 0

theorem getLsbD_foldl_or (words : List (BitVec w)) (acc : BitVec w) (i : ℕ) :
    (words.foldl (· ||| ·) acc).getLsbD i = (acc.getLsbD i || words.any (·.getLsbD i)) := by
  induction words generalizing acc with
  | nil => simp
  | cons word words ih =>
    rw [List.foldl_cons, ih, getLsbD_or, List.any_cons, Bool.or_assoc]

theorem getLsbD_union (words : List (BitVec w)) (i : ℕ) : (union words).getLsbD i = words.any (·.getLsbD i) := by
  unfold union
  rw [getLsbD_foldl_or]
  simp

theorem twoPow_ne_zero {i : ℕ} (h : i < w) : twoPow w i ≠ 0 := by
  intro hzero
  have hbit : (twoPow w i).getLsbD i = true := by simp [h]
  rw [hzero] at hbit
  simp at hbit

/-- Different bits do not meet. -/
theorem twoPow_and_twoPow {i j : ℕ} (h : i ≠ j) : twoPow w i &&& twoPow w j = 0 := by
  rw [twoPow_and]
  simp [getLsbD_twoPow, h.symm]

/-- **A bit and a union of bits** have nothing in common exactly if the bit is none of them. -/
theorem twoPow_and_union {i : ℕ} (bits : List ℕ) (h : i < w) :
    twoPow w i &&& union (bits.map (twoPow w)) = 0 ↔ i ∉ bits := by
  rw [twoPow_and, getLsbD_union]
  have hany : (bits.map (twoPow w)).any (·.getLsbD i) = decide (i ∈ bits) := by
    rw [Bool.eq_iff_iff]
    simp only [List.any_map, List.any_eq_true, Function.comp_apply, getLsbD_twoPow,
      Bool.and_eq_true, decide_eq_true_eq]
    constructor
    · rintro ⟨j, hj, -, rfl⟩
      exact hj
    · intro hi
      exact ⟨i, hi, h, rfl⟩
  rw [hany]
  by_cases hi : i ∈ bits
  · rw [decide_eq_true hi, if_pos rfl]
    exact ⟨fun hzero => absurd hzero (twoPow_ne_zero h), fun hnot => absurd hi hnot⟩
  · simp [hi]

end WildAgentOs.BitSets
