import Mathlib.Data.Finset.Union
import Mathlib.Logic.Function.Basic
import Mathlib.Logic.Relation
import Mathlib.Tactic

/-!
# Transitive closures kept row by row

A graph given by the successors of each vertex, and a table with a row for each vertex: what is reached
from it by one or more edges.  `relink` replaces one row by what the rows of the new successors say, and
adds it to the rows that reach the vertex.

* `Exact`, `Dependents`;
* `exact_relink`, `exact_unlink`: then the changed table is exact, for the changed graph.
-/

namespace Closure

open Relation List Function

variable {α : Type*}

/-- There is an edge to each successor. -/
def Edge (succ : α → List α) (x y : α) : Prop := y ∈ succ x

/-- Reached by one or more edges. -/
abbrev Reaches (succ : α → List α) : α → α → Prop := TransGen (Edge succ)

/-- The rows are the transitive closure. -/
def Exact (rows : α → Finset α) (succ : α → List α) : Prop := ∀ x y, y ∈ rows x ↔ Reaches succ x y

/-- No other vertex that reaches `a` loses anything it reaches. -/
def Dependents (a : α) (succ succ' : α → List α) : Prop :=
  ∀ x, x ≠ a → Reaches succ x a → ∀ y, Reaches succ x y → Reaches succ' x y

/-! ### Paths through a changed vertex -/

variable {x y : α}

section

variable {a : α} {succ succ' : α → List α}

section

variable (hsame : ∀ x, x ≠ a → succ' x = succ x)

include hsame

/-- A path stays in the other graph until it meets the vertex at which they differ. -/
theorem Reaches.or_through (h : Reaches succ' x y) (hx : x ≠ a) :
    Reaches succ x y ∨ Reaches succ x a ∧ Reaches succ' a y := by
  induction h using TransGen.head_induction_on with
  | @single x hedge =>
    refine .inl (TransGen.single ?_)
    unfold Edge at hedge ⊢
    rwa [← hsame x hx]
  | @head x z hedge hpath ih =>
    have hedge' : Edge succ x z := by
      unfold Edge at hedge ⊢
      rwa [← hsame x hx]
    by_cases hz : z = a
    · subst hz
      exact .inr ⟨.single hedge', hpath⟩
    · rcases ih hz with h | ⟨h, htail⟩
      · exact .inl (.head hedge' h)
      · exact .inr ⟨.head hedge' h, htail⟩

/-- Other vertices reach the changed one as before. -/
theorem reaches_changed_iff {x : α} (hx : x ≠ a) :
    Reaches succ' x a ↔ Reaches succ x a := by
  constructor
  · intro h
    rcases h.or_through hsame hx with h | h
    · exact h
    · exact h.1
  · intro h
    rcases Reaches.or_through (fun x hx => (hsame x hx).symm) h hx with h | h
    · exact h
    · exact h.1

/-- Where no dependent loses anything, no other vertex does. -/
theorem Dependents.reaches (hkeep : Dependents a succ succ')
    (hx : x ≠ a) (h : Reaches succ x y) : Reaches succ' x y := by
  by_cases hthrough : Reaches succ x a
  · exact hkeep x hx hthrough y h
  · rcases Reaches.or_through (fun x hx => (hsame x hx).symm) h hx with h | ⟨h, -⟩
    · exact h
    · exact absurd ((reaches_changed_iff hsame hx).1 h) hthrough

/-- What another vertex reaches after the change. -/
theorem Dependents.reaches_iff (hkeep : Dependents a succ succ')
    (hx : x ≠ a) : Reaches succ' x y ↔ Reaches succ x y ∨ Reaches succ x a ∧ Reaches succ' a y := by
  constructor
  · exact fun h => h.or_through hsame hx
  · rintro (h | ⟨h, htail⟩)
    · exact hkeep.reaches hsame hx h
    · exact (hkeep.reaches hsame hx h).trans htail

/-- What the changed vertex reaches, it reaches by a path that does not come back to it. -/
theorem Reaches.of_target {y : α} (h : Reaches succ' a y) :
    ∃ t ∈ succ' a, y = t ∨ t ≠ a ∧ Reaches succ t y := by
  induction h with
  | single hedge => exact ⟨_, hedge, .inl rfl⟩
  | @tail z y _ hedge ih =>
    by_cases hz : z = a
    · subst hz
      exact ⟨y, hedge, .inl rfl⟩
    · have hedge' : Edge succ z y := by
        unfold Edge at hedge ⊢
        rwa [← hsame z hz]
      obtain ⟨t, ht, rfl | ⟨hne, hreaches⟩⟩ := ih
      · exact ⟨z, ht, .inr ⟨hz, .single hedge'⟩⟩
      · exact ⟨t, ht, .inr ⟨hne, hreaches.tail hedge'⟩⟩

end

end

/-! ### The table -/

section

variable [DecidableEq α]

/-- What the rows of the successors say. -/
def targetRow (rows : α → Finset α) (targets : List α) : Finset α :=
  targets.foldl (fun row t => insert t row ∪ rows t) ∅

theorem mem_targetRow {rows : α → Finset α} {targets : List α} {y : α} :
    y ∈ targetRow rows targets ↔ ∃ t ∈ targets, y = t ∨ y ∈ rows t := by
  have hfold : ∀ (targets : List α) (row : Finset α),
      y ∈ targets.foldl (fun row t => insert t row ∪ rows t) row ↔ y ∈ row ∨ ∃ t ∈ targets, y = t ∨ y ∈ rows t := by
    intro targets
    induction targets with
    | nil => simp
    | cons t targets ih =>
      intro row
      rw [foldl_cons, ih, Finset.mem_union, Finset.mem_insert]
      simp only [mem_cons, exists_eq_or_imp, or_assoc]
      exact or_left_comm
  unfold targetRow
  rw [hfold]
  simp

/-- The row of a vertex is replaced, unless its new one is empty, and then added to the rows that reach the
vertex. -/
def relink (rows : α → Finset α) (a : α) (targets : List α) : α → Finset α :=
  let row := targetRow rows targets
  let rows := if row = ∅ then rows else update rows a row
  fun x => if a ∈ rows x then rows x ∪ rows a else rows x

variable {rows : α → Finset α} {a : α} {succ succ' : α → List α}

theorem mem_row_iff (hsame : ∀ x, x ≠ a → succ' x = succ x) (hkeep : Dependents a succ succ')
    (hrows : ∀ x, x ≠ a → ∀ y, y ∈ rows x ↔ Reaches succ x y)
    (hself : succ' a = [] ∨ a ∈ succ' a → ∀ y ∈ rows a, Reaches succ' a y) {y : α} :
    y ∈ (if targetRow rows (succ' a) = ∅ then rows else update rows a (targetRow rows (succ' a))) a ↔
      Reaches succ' a y := by
  have hmem : y ∈ targetRow rows (succ' a) ↔ Reaches succ' a y := by
    rw [mem_targetRow]
    constructor
    · rintro ⟨t, ht, rfl | hy⟩
      · exact .single ht
      · by_cases hta : t = a
        · subst hta
          exact hself (.inr ht) y hy
        · exact .head ht (hkeep.reaches hsame hta ((hrows t hta y).1 hy))
    · intro h
      obtain ⟨t, ht, rfl | ⟨hne, hreaches⟩⟩ := h.of_target hsame
      · exact ⟨_, ht, .inl rfl⟩
      · exact ⟨t, ht, .inr ((hrows t hne y).2 hreaches)⟩
  split_ifs with hempty
  · have hnil : succ' a = [] := by
      rw [eq_nil_iff_forall_not_mem]
      intro t ht
      have hin : t ∈ targetRow rows (succ' a) := mem_targetRow.2 ⟨t, ht, .inl rfl⟩
      rw [hempty] at hin
      exact Finset.notMem_empty t hin
    constructor
    · exact hself (.inl hnil) y
    · intro h
      rw [hempty] at hmem
      exact absurd (hmem.2 h) (Finset.notMem_empty y)
  · rw [update_self]
    exact hmem

/-- A vertex gets new successors.  Its row may be anything where it is replaced, and must not say too much where it
is kept or read. -/
theorem exact_relink (hsame : ∀ x, x ≠ a → succ' x = succ x) (hkeep : Dependents a succ succ')
    (hrows : ∀ x, x ≠ a → ∀ y, y ∈ rows x ↔ Reaches succ x y)
    (hself : succ' a = [] ∨ a ∈ succ' a → ∀ y ∈ rows a, Reaches succ' a y) : Exact (relink rows a (succ' a)) succ' := by
  intro x y
  unfold relink
  have hrow := fun y => @mem_row_iff _ _ rows a succ succ' hsame hkeep hrows hself y
  by_cases hx : x = a
  · subst hx
    rw [← hrow y]
    split_ifs <;> simp
  · have hother : ∀ y, y ∈ (if targetRow rows (succ' a) = ∅ then rows
        else update rows a (targetRow rows (succ' a))) x ↔ Reaches succ x y := by
      intro y
      rw [← hrows x hx y]
      split_ifs
      · exact Iff.rfl
      · rw [update_of_ne hx]
    rw [hkeep.reaches_iff hsame hx, ← hother y, ← hother a, ← hrow y]
    by_cases hin : a ∈ (if targetRow rows (succ' a) = ∅ then rows
        else update rows a (targetRow rows (succ' a))) x
    · rw [if_pos hin, Finset.mem_union]
      tauto
    · rw [if_neg hin]
      tauto

/-- A vertex loses its successors, and its row. -/
theorem exact_unlink (hexact : Exact rows succ) (hkeep : Dependents a succ (update succ a [])) :
    Exact (update rows a ∅) (update succ a []) := by
  have hsame : ∀ x, x ≠ a → update succ a [] x = succ x := fun x hx => update_of_ne hx _ _
  have hnone : ∀ y, ¬Reaches (update succ a []) a y := by
    intro y h
    obtain ⟨t, ht, -⟩ := h.of_target hsame
    rw [update_self] at ht
    exact not_mem_nil ht
  intro x y
  by_cases hx : x = a
  · subst hx
    rw [update_self]
    exact ⟨fun h => absurd h (Finset.notMem_empty y), fun h => absurd h (hnone y)⟩
  · rw [update_of_ne hx, hexact, hkeep.reaches_iff hsame hx]
    constructor
    · exact .inl
    · rintro (h | ⟨-, h⟩)
      · exact h
      · exact absurd h (hnone y)

end

/-! ### Changes that lose nothing -/

variable {succ succ' : α → List α}

theorem Reaches.mono (h : ∀ x, succ x ⊆ succ' x) (hreaches : Reaches succ x y) : Reaches succ' x y :=
  TransGen.mono (fun x _ hedge => h x hedge) _ _ hreaches

theorem Dependents.of_subset {a : α} (h : ∀ x, succ x ⊆ succ' x) : Dependents a succ succ' :=
  fun _ _ _ _ hreaches => hreaches.mono h

theorem exact_empty : Exact (fun _ => (∅ : Finset α)) fun _ => [] := by
  intro x y
  refine ⟨fun h => absurd h (Finset.notMem_empty y), fun h => ?_⟩
  induction h with
  | single hedge => exact absurd hedge not_mem_nil
  | tail _ hedge => exact absurd hedge not_mem_nil

end Closure
