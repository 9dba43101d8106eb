import Mathlib.Data.List.Basic
import Mathlib.Data.List.Nodup
import Mathlib.Order.Nat
import Mathlib.Tactic.SplitIfs

/-!
# Threads over a shared state

Threads of a state that they share take steps in any order; a step can spawn threads.  A thread stays
at its place of the list, so that a schedule is a list of places.

* `Move`, `System.advance`, `System.stepAt`, `getElem?_advance`;
* `forall_advance`, `exists_advance`, `filterMap_advance`, `nodup_filterMap_advance`, `eq_of_nodup_filterMap`.
-/

namespace WildAgentOs.Interleaving

open List

variable {σ τ κ : Type*}

structure System (σ τ : Type*) where
  shared : σ
  threads : List τ

/-- What a step makes of the shared state and of its thread, and the threads that it spawns. -/
structure Move (σ τ : Type*) where
  shared : σ
  thread : τ
  spawned : List τ

namespace System

/-- The thread at a place has moved. -/
def advance (s : System σ τ) (i : ℕ) (move : Move σ τ) : System σ τ :=
  ⟨move.shared, s.threads.set i move.thread ++ move.spawned⟩

/-- The thread at a place takes a step, if there is one. -/
def stepAt (next : σ → τ → Move σ τ) (s : System σ τ) (i : ℕ) : System σ τ :=
  match s.threads[i]? with
  | none => s
  | some t => s.advance i (next s.shared t)

@[simp] theorem shared_advance (s : System σ τ) (i : ℕ) (move : Move σ τ) :
    (s.advance i move).shared = move.shared := rfl

variable {s : System σ τ} {i : ℕ} {t : τ} {next : σ → τ → Move σ τ}

theorem stepAt_of_some (h : s.threads[i]? = some t) : s.stepAt next i = s.advance i (next s.shared t) := by
  unfold stepAt
  rw [h]

theorem stepAt_of_none (h : s.threads[i]? = none) : s.stepAt next i = s := by
  unfold stepAt
  rw [h]

variable {move : Move σ τ} {u : τ}

/-- The thread at a place is the one that has moved, or another, or a spawned one. -/
theorem getElem?_advance {j : ℕ} (h : (s.advance i move).threads[j]? = some u) :
    (j = i ∧ u = move.thread) ∨ (j ≠ i ∧ s.threads[j]? = some u) ∨ (s.threads.length ≤ j ∧ u ∈ move.spawned) := by
  unfold advance at h
  simp only at h
  rcases lt_or_ge j s.threads.length with hj | hj
  · rw [getElem?_append_left (by simpa using hj)] at h
    by_cases hji : j = i
    · subst hji
      rw [getElem?_set_self hj] at h
      exact .inl ⟨rfl, (Option.some.inj h).symm⟩
    · rw [getElem?_set_ne (Ne.symm hji)] at h
      exact .inr (.inl ⟨hji, h⟩)
  · rw [getElem?_append_right (by simpa using hj)] at h
    exact .inr (.inr ⟨hj, mem_of_getElem? h⟩)

theorem getElem?_advance_self (h : s.threads[i]? = some t) : (s.advance i move).threads[i]? = some move.thread := by
  obtain ⟨hi, -⟩ := List.getElem?_eq_some_iff.1 h
  unfold advance
  rw [getElem?_append_left (by simpa using hi), getElem?_set_self hi]

variable {i j : ℕ}

theorem getElem?_advance_of_ne (hij : j ≠ i) (h : s.threads[j]? = some u) :
    (s.advance i move).threads[j]? = some u := by
  obtain ⟨hj, -⟩ := List.getElem?_eq_some_iff.1 h
  unfold advance
  rw [getElem?_append_left (by simpa using hj), getElem?_set_ne (Ne.symm hij), h]

theorem thread_mem_advance (h : s.threads[i]? = some t) : move.thread ∈ (s.advance i move).threads :=
  mem_of_getElem? (getElem?_advance_self h)

theorem mem_advance (h : u ∈ (s.advance i move).threads) :
    u = move.thread ∨ (∃ j, j ≠ i ∧ s.threads[j]? = some u) ∨ u ∈ move.spawned := by
  obtain ⟨j, hj⟩ := mem_iff_getElem?.1 h
  obtain ⟨-, hu⟩ | ⟨hji, hu⟩ | ⟨-, hu⟩ := getElem?_advance hj
  · exact .inl hu
  · exact .inr (.inl ⟨j, hji, hu⟩)
  · exact .inr (.inr hu)

variable {t u : τ}

/-- A thread other than the one that moves stays. -/
theorem mem_advance_of_ne (hi : s.threads[i]? = some t) (hu : u ∈ s.threads) (hne : t ≠ u) :
    u ∈ (s.advance i move).threads := by
  obtain ⟨j, hj⟩ := mem_iff_getElem?.1 hu
  have hji : j ≠ i := by
    rintro rfl
    exact hne (Option.some.inj (hi.symm.trans hj))
  exact mem_of_getElem? (getElem?_advance_of_ne hji hj)

/-- **An assertion about each thread**: the step makes it of its own thread and of the spawned ones, and
keeps it of the others. -/
theorem forall_advance {P : σ → τ → Prop} (hs : ∀ u ∈ s.threads, P s.shared u)
    (hown : P move.shared move.thread) (hspawned : ∀ u ∈ move.spawned, P move.shared u)
    (hothers : ∀ j u, j ≠ i → s.threads[j]? = some u → P s.shared u → P move.shared u) :
    ∀ u ∈ (s.advance i move).threads, P (s.advance i move).shared u := by
  intro u hu
  obtain rfl | ⟨j, hji, hj⟩ | hu := mem_advance hu
  · exact hown
  · exact hothers j u hji hj (hs u (mem_of_getElem? hj))
  · exact hspawned u hu

/-- **A thread that is looked for** is still there, but for the one that has moved. -/
theorem exists_advance {Q : τ → Prop} {s : System σ τ} (move : Move σ τ) (hi : s.threads[i]? = some t)
    (hs : ∃ u ∈ s.threads, Q u) : (∃ u ∈ (s.advance i move).threads, Q u) ∨ Q t := by
  obtain ⟨u, hu, hQ⟩ := hs
  obtain ⟨j, hj⟩ := mem_iff_getElem?.1 hu
  by_cases hji : j = i
  · subst hji
    obtain rfl := Option.some.inj (hj.symm.trans hi)
    exact .inr hQ
  · exact .inl ⟨u, mem_of_getElem? (getElem?_advance_of_ne hji hj), hQ⟩

/-! ### Names that threads own -/

variable {owner : τ → Option κ} {l : List τ}

theorem filterMap_set_of_eq {t t' : τ} (hi : l[i]? = some t) (h : owner t' = owner t) :
    (l.set i t').filterMap owner = l.filterMap owner := by
  induction l generalizing i with
  | nil => rfl
  | cons u l ih =>
    cases i with
    | zero =>
      obtain rfl : u = t := by simpa using hi
      rw [set_cons_zero, filterMap_cons, filterMap_cons, h]
    | succ i =>
      rw [set_cons_succ, filterMap_cons, filterMap_cons, ih (by simpa using hi)]

/-- A thread that keeps its name, and spawns none that has one. -/
theorem filterMap_advance (hi : s.threads[i]? = some t)
    (hown : owner move.thread = owner t) (hspawned : ∀ u ∈ move.spawned, owner u = none) :
    (s.advance i move).threads.filterMap owner = s.threads.filterMap owner := by
  unfold advance
  rw [filterMap_append, filterMap_set_of_eq hi hown, filterMap_eq_nil_iff.2 hspawned, append_nil]

/-- A thread that keeps its name, gives it up, or takes one that no thread has. -/
theorem nodup_filterMap_advance (hi : s.threads[i]? = some t) (hnodup : (s.threads.filterMap owner).Nodup)
    (hown : ∀ k, owner move.thread = some k → owner t = some k ∨ ∀ u ∈ s.threads, owner u ≠ some k)
    (hspawned : ∀ u ∈ move.spawned, owner u = none) : ((s.advance i move).threads.filterMap owner).Nodup := by
  unfold advance
  rw [filterMap_append, filterMap_eq_nil_iff.2 hspawned, append_nil]
  obtain ⟨hlt, hget⟩ := List.getElem?_eq_some_iff.1 hi
  have hpair : s.threads.Pairwise fun a b => ∀ x ∈ owner a, ∀ y ∈ owner b, x ≠ y := pairwise_filterMap.1 hnodup
  rw [pairwise_iff_getElem] at hpair
  refine pairwise_filterMap.2 (pairwise_iff_getElem.2 fun a b ha hb hab x hx y hy => ?_)
  rw [length_set] at ha hb
  rw [getElem_set] at hx hy
  split_ifs at hx hy with hia hib hib
  · omega
  · rcases hown x hx with hkept | hnew
    · subst hia
      exact hpair i b ha hb hab x (by rw [hget]; exact hkept) y hy
    · rintro rfl
      exact hnew _ (getElem_mem hb) hy
  · rcases hown y hy with hkept | hnew
    · subst hib
      exact hpair a i ha hb hab x hx y (by rw [hget]; exact hkept)
    · rintro rfl
      exact hnew _ (getElem_mem ha) hx
  · exact hpair a b ha hb hab x hx y hy

/-- Of distinct names each has one owner. -/
theorem eq_of_nodup_filterMap (h : (l.filterMap owner).Nodup) {k : κ}
    (hi : l[i]? = some t) (hj : l[j]? = some u) (ht : owner t = some k) (hu : owner u = some k) : i = j := by
  have hpair : l.Pairwise fun a b => ∀ x ∈ owner a, ∀ y ∈ owner b, x ≠ y := pairwise_filterMap.1 h
  obtain ⟨hi', rfl⟩ := List.getElem?_eq_some_iff.1 hi
  obtain ⟨hj', rfl⟩ := List.getElem?_eq_some_iff.1 hj
  rcases lt_trichotomy i j with hlt | heq | hlt
  · exact absurd rfl (pairwise_iff_getElem.1 hpair i j hi' hj' hlt k ht k hu)
  · exact heq
  · exact absurd rfl (pairwise_iff_getElem.1 hpair j i hj' hi' hlt k hu k ht)

end System

end WildAgentOs.Interleaving
