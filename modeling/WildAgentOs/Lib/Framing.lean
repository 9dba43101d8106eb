import Mathlib.Tactic

/-!
# Cutting a stream into pieces

A `Cutter` takes the first complete piece off a list, if there is one, and does so whatever
follows the piece.  Taking pieces off eagerly, while the list still grows, then gives the same
pieces as taking them off the whole list (`pieces_append`).

* `pieces`, `rest`, `pieces_taken`.
-/

namespace Framing

open List

variable {α : Type*}

/-- A piece is not empty, and is cut off alike in front of any rest. -/
structure Cutter (α : Type*) where
  cut : List α → Option (List α × List α)
  append_of_cut : ∀ {xs t r}, cut xs = some (t, r) → t ++ r = xs
  ne_nil_of_cut : ∀ {xs t r}, cut xs = some (t, r) → t ≠ []
  cut_append : ∀ {xs t r}, cut xs = some (t, r) → ∀ r', cut (t ++ r') = some (t, r')

namespace Cutter

variable (c : Cutter α) {xs ys t r : List α}

/-- The pieces that at most `fuel` cuts take, and the rest. -/
def cutFrom : ℕ → List α → List (List α) × List α
  | 0, xs => ([], xs)
  | fuel + 1, xs =>
    match c.cut xs with
    | none => ([], xs)
    | some (t, r) => (t :: (cutFrom fuel r).1, (cutFrom fuel r).2)

/-- The complete pieces of a list. -/
def pieces (xs : List α) : List (List α) := (c.cutFrom xs.length xs).1

/-- What is left behind the complete pieces. -/
def rest (xs : List α) : List α := (c.cutFrom xs.length xs).2

theorem length_lt_of_cut (h : c.cut xs = some (t, r)) : r.length < xs.length := by
  have hpos : 0 < t.length := length_pos_iff.2 (c.ne_nil_of_cut h)
  rw [← c.append_of_cut h, length_append]
  omega

/-- More fuel than elements changes nothing. -/
theorem cutFrom_eq {fuel fuel' : ℕ} (h : xs.length ≤ fuel) (h' : xs.length ≤ fuel') :
    c.cutFrom fuel xs = c.cutFrom fuel' xs := by
  induction fuel generalizing xs fuel' with
  | zero =>
    obtain rfl : xs = [] := length_eq_zero_iff.1 (Nat.le_zero.1 h)
    have hnone : c.cut [] = none := by
      rw [Option.eq_none_iff_forall_ne_some]
      rintro ⟨t, r⟩ hcut
      exact Nat.not_lt_zero _ (c.length_lt_of_cut hcut)
    cases fuel' with
    | zero => rfl
    | succ fuel' => simp [cutFrom, hnone]
  | succ fuel ih =>
    cases hcut : c.cut xs with
    | none =>
      cases fuel' with
      | zero => simp [cutFrom, hcut]
      | succ fuel' => simp [cutFrom, hcut]
    | some p =>
      obtain ⟨t, r⟩ := p
      have hlt := c.length_lt_of_cut hcut
      cases fuel' with
      | zero => omega
      | succ fuel' =>
        unfold cutFrom
        rw [hcut]
        simp only
        rw [ih (by omega) (by omega : r.length ≤ fuel')]

theorem cutFrom_length (fuel : ℕ) (h : xs.length ≤ fuel) :
    c.cutFrom fuel xs = (c.pieces xs, c.rest xs) := c.cutFrom_eq h le_rfl

theorem pieces_of_none {xs : List α} (h : c.cut xs = none) : c.pieces xs = [] ∧ c.rest xs = xs := by
  unfold pieces rest
  cases xs.length with
  | zero => exact ⟨rfl, rfl⟩
  | succ n => simp [cutFrom, h]

theorem pieces_of_some (h : c.cut xs = some (t, r)) : c.pieces xs = t :: c.pieces r ∧ c.rest xs = c.rest r := by
  have hlt := c.length_lt_of_cut h
  have hfrom : c.cutFrom (xs.length - 1 + 1) xs = (c.pieces xs, c.rest xs) := c.cutFrom_length _ (by omega)
  unfold cutFrom at hfrom
  rw [h] at hfrom
  simp only [c.cutFrom_length (xs.length - 1) (by omega : r.length ≤ xs.length - 1)] at hfrom
  obtain ⟨hpieces, hrest⟩ := Prod.mk.inj hfrom
  exact ⟨hpieces.symm, hrest.symm⟩

/-- Cutting takes nothing away, and the pieces come off in front of any other list. -/
theorem pieces_taken (xs : List α) : (c.pieces xs).flatten ++ c.rest xs = xs ∧
      ∀ ys, c.pieces ((c.pieces xs).flatten ++ ys) = c.pieces xs ++ c.pieces ys ∧
        c.rest ((c.pieces xs).flatten ++ ys) = c.rest ys := by
  induction hn : xs.length using Nat.strong_induction_on generalizing xs with
  | _ n ih =>
    cases hcut : c.cut xs with
    | none =>
      obtain ⟨hpieces, hrest⟩ := c.pieces_of_none hcut
      rw [hpieces, hrest]
      exact ⟨rfl, fun ys => ⟨rfl, rfl⟩⟩
    | some p =>
      obtain ⟨t, r⟩ := p
      obtain ⟨hpieces, hrest⟩ := c.pieces_of_some hcut
      obtain ⟨happ, htaken⟩ := ih r.length (hn ▸ c.length_lt_of_cut hcut) r rfl
      rw [hpieces, hrest, flatten_cons, append_assoc, happ]
      refine ⟨c.append_of_cut hcut, fun ys => ?_⟩
      rw [append_assoc]
      obtain ⟨hpieces', hrest'⟩ := c.pieces_of_some (c.cut_append hcut ((c.pieces r).flatten ++ ys))
      rw [hpieces', hrest', (htaken ys).1, (htaken ys).2]
      exact ⟨rfl, rfl⟩

theorem flatten_pieces_append_rest (xs : List α) : (c.pieces xs).flatten ++ c.rest xs = xs := (c.pieces_taken xs).1

/-- Every piece is one that is cut off. -/
theorem cut_of_mem_pieces (h : t ∈ c.pieces xs) (r : List α) : c.cut (t ++ r) = some (t, r) := by
  induction hn : xs.length using Nat.strong_induction_on generalizing xs with
  | _ n ih =>
    cases hcut : c.cut xs with
    | none =>
      rw [(c.pieces_of_none hcut).1] at h
      cases h
    | some p =>
      obtain ⟨t', r'⟩ := p
      rw [(c.pieces_of_some hcut).1] at h
      rcases mem_cons.1 h with rfl | h
      · exact c.cut_append hcut r
      · exact ih r'.length (hn ▸ c.length_lt_of_cut hcut) h rfl

end Cutter

end Framing
