import WildAgentOs.Lib.F64

/-!
# The first of the smallest entries

A loop that looks for the smallest entry of a list below a bound, and takes the first one where several are smallest.

* `FirstMin.Order`: what is asked of the comparison, which may leave some keys in no order;
* `firstMin`: the index that the loop finds;
* `firstMin_spec`: what is found, and when nothing is.
-/

namespace FirstMin

open List

/-- A strict order, in which a key that is below another one can be placed. -/
structure Order {β : Type*} (lt : β → β → Bool) : Prop where
  irrefl : ∀ x, lt x x = false
  trans : ∀ x y z, lt x y = true → lt y z = true → lt x z = true
  place : ∀ x y z w, lt x z = true → lt y w = true → lt x y = true ∨ lt y z = true

theorem Order.f64 : Order F64.lt where
  irrefl := F64.lt_irrefl
  trans := F64.lt_trans
  place x y z w hxz hyw := by
    simp only [F64.lt, Bool.and_eq_true, Bool.not_eq_true', decide_eq_true_eq] at *
    by_cases hyz : y.rank < z.rank
    · exact .inr ⟨⟨hyw.1.1, hxz.1.2⟩, hyz⟩
    · exact .inl ⟨⟨hxz.1.1, hyw.1.1⟩, by omega⟩

variable {α β : Type*} (lt : β → β → Bool) (key : α → β)

/-- The loop, with the index, the bound and what is found so far. -/
def firstMinFrom : ℕ → β → Option ℕ → List α → Option ℕ
  | _, _, found, [] => found
  | i, bound, found, a :: l =>
    if lt (key a) bound then firstMinFrom (i + 1) (key a) (some i) l else firstMinFrom (i + 1) bound found l

def firstMin (bound : β) (l : List α) : Option ℕ := firstMinFrom lt key 0 bound none l

/-- An entry below the bound, none smaller, and those before it are larger or not below the bound. -/
structure IsFirstMin (bound : β) (before : List α) (x : α) (after : List α) : Prop where
  below : lt (key x) bound = true
  least : ∀ a ∈ before ++ x :: after, lt (key a) (key x) = false
  first : ∀ a ∈ before, lt (key a) bound = true → lt (key x) (key a) = true

variable {lt key}

theorem firstMinFrom_spec (h : Order lt) (i : ℕ) (bound : β) (found : Option ℕ) (l : List α) :
    (firstMinFrom lt key i bound found l = found ∧ ∀ a ∈ l, lt (key a) bound = false) ∨
      ∃ before x after, l = before ++ x :: after ∧
        firstMinFrom lt key i bound found l = some (i + before.length) ∧ IsFirstMin lt key bound before x after := by
  induction l generalizing i bound found with
  | nil => exact .inl ⟨rfl, fun a ha => absurd ha not_mem_nil⟩
  | cons a l ih =>
    unfold firstMinFrom
    by_cases hbelow : lt (key a) bound = true
    · rw [if_pos hbelow]
      rcases ih (i + 1) (key a) (some i) with ⟨hsame, hnone⟩ | ⟨before, x, after, rfl, hfound, hx⟩
      · refine .inr ⟨[], a, l, rfl, hsame, hbelow, ?_, fun b hb => absurd hb not_mem_nil⟩
        exact forall_mem_cons.2 ⟨h.irrefl _, hnone⟩
      · refine .inr ⟨a :: before, x, after, rfl, ?_, h.trans _ _ _ hx.below hbelow, ?_, ?_⟩
        · rw [hfound, length_cons]
          congr 1
          omega
        · refine forall_mem_cons.2 ⟨Bool.eq_false_iff.2 fun hlt => ?_, hx.least⟩
          exact Bool.eq_false_iff.1 (h.irrefl (key a)) (h.trans _ _ _ hlt hx.below)
        · refine forall_mem_cons.2 ⟨fun _ => hx.below, fun b hb hb' => ?_⟩
          rcases h.place _ _ _ _ hx.below hb' with hless | hmore
          · exact hless
          · exact hx.first b hb hmore
    · rw [if_neg hbelow]
      have hnot := Bool.eq_false_iff.2 hbelow
      rcases ih (i + 1) bound found with ⟨hsame, hnone⟩ | ⟨before, x, after, rfl, hfound, hx⟩
      · exact .inl ⟨hsame, forall_mem_cons.2 ⟨hnot, hnone⟩⟩
      · refine .inr ⟨a :: before, x, after, rfl, ?_, hx.below, ?_, ?_⟩
        · rw [hfound, length_cons]
          congr 1
          omega
        · refine forall_mem_cons.2 ⟨Bool.eq_false_iff.2 fun hlt => hbelow ?_, hx.least⟩
          exact h.trans _ _ _ hlt hx.below
        · exact forall_mem_cons.2 ⟨fun hb => absurd hb hbelow, hx.first⟩

/-- **What the loop finds.** -/
theorem firstMin_spec (h : Order lt) (bound : β) (l : List α) :
    (firstMin lt key bound l = none ∧ ∀ a ∈ l, lt (key a) bound = false) ∨
      ∃ before x after, l = before ++ x :: after ∧ firstMin lt key bound l = some before.length ∧
        IsFirstMin lt key bound before x after := by
  rcases firstMinFrom_spec h 0 bound none l with hnone | ⟨before, x, after, hl, hfound, hx⟩
  · exact .inl hnone
  · exact .inr ⟨before, x, after, hl, by rw [firstMin, hfound, Nat.zero_add], hx⟩

/-- The last entry is not found, if one before it is below the bound and not larger. -/
theorem firstMin_concat (h : Order lt) {bound : β} {l : List α} {last : α}
    (hl : ∃ a ∈ l, lt (key a) bound = true ∧ lt (key last) (key a) = false) :
    ∃ before x after, l = before ++ x :: after ∧ firstMin lt key bound (l ++ [last]) = some before.length ∧
      lt (key x) bound = true ∧ lt (key last) (key x) = false := by
  obtain ⟨a, ha, hbelow, hnot⟩ := hl
  rcases @firstMin_spec _ _ lt key h bound (l ++ [last]) with ⟨-, hnone⟩ | ⟨before, x, after, hsplit, hfound, hx⟩
  · exact absurd (hnone a (mem_append_left _ ha)) (by rw [hbelow]; exact Bool.noConfusion)
  · have hlast : lt (key last) (key x) = false := hx.least last (hsplit ▸ by simp)
    rcases append_eq_append_iff.1 hsplit with ⟨c, rfl, hc⟩ | ⟨c, rfl, hc⟩
    · -- The entry would be the last one, and not before the other.
      have hin := hx.first a (mem_append_left _ ha) hbelow
      cases c with
      | nil =>
        obtain ⟨rfl, -⟩ := cons.inj hc
        rw [hnot] at hin
        cases hin
      | cons first c => simp at hc
    · cases c with
      | nil =>
        obtain ⟨rfl, -⟩ := cons.inj hc
        rw [append_nil] at ha
        have hin := hx.first a ha hbelow
        rw [hnot] at hin
        cases hin
      | cons first c =>
        obtain ⟨rfl, rfl⟩ := cons.inj hc
        exact ⟨before, x, c, rfl, hfound, hx.below, hlast⟩

end FirstMin
