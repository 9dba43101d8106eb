import Mathlib.Algebra.Order.BigOperators.Group.List
import Mathlib.Data.List.Basic
import Mathlib.Tactic

/-!
# Locks that are taken in an order

Threads run programs of lock steps over locks that are shared or exclusive; a thread whose next step takes a lock
that is held against it waits.  When every thread takes its locks upwards in one order of the locks, no state is
reached in which all that are not done wait for each other.  Two threads that take two locks crosswise reach one.

* `step`, `Reached`: the runs of some programs, in any interleaving;
* `Waits`, `Deadlocked`, `InOrder`, `not_deadlocked_of_inOrder`, `Alone`, `not_deadlocked_of_single`;
* `exists_deadlocked_of_crossed`.
-/

namespace LockOrder

open List Option

inductive Mode
  | shared
  | exclusive
  deriving DecidableEq

inductive Op (L : Type*)
  | acquire (l : L) (mode : Mode)
  | release (l : L)
  deriving DecidableEq

/-- The locks that a thread holds, and what it has still to do. -/
structure Thread (L : Type*) where
  held : List (L × Mode)
  todo : List (Op L)
  deriving DecidableEq

variable {L : Type*}

/-- A lock is held against who wants it. -/
def Conflict (l : L) (mode : Mode) (h : L × Mode) : Prop := h.1 = l ∧ (h.2 = .exclusive ∨ mode = .exclusive)

instance [DecidableEq L] (l : L) (mode : Mode) (h : L × Mode) : Decidable (Conflict l mode h) :=
  inferInstanceAs (Decidable (_ ∧ _))

/-- Nobody holds the lock against who wants it. -/
def Free (threads : List (Thread L)) (l : L) (mode : Mode) : Prop := ∀ t ∈ threads, ∀ h ∈ t.held, ¬Conflict l mode h

instance [DecidableEq L] (threads : List (Thread L)) (l : L) (mode : Mode) : Decidable (Free threads l mode) :=
  inferInstanceAs (Decidable (∀ t ∈ threads, ∀ h ∈ t.held, ¬Conflict l mode h))

/-- The threads before their first step. -/
def start (programs : List (List (Op L))) : List (Thread L) := programs.map fun program => ⟨[], program⟩

variable {i : ℕ} {programs : List (List (Op L))}

theorem getElem?_start {program : List (Op L)} (h : programs[i]? = some program) :
    (start programs)[i]? = some ⟨[], program⟩ := by
  simp [start, h]

/-- The thread at a place waits for a lock that another thread holds. -/
def Waits (threads : List (Thread L)) (i : ℕ) : Prop :=
  ∃ t l mode rest, threads[i]? = some t ∧ t.todo = .acquire l mode :: rest ∧
    ∃ j u, j ≠ i ∧ threads[j]? = some u ∧ ∃ h ∈ u.held, Conflict l mode h

/-- **A deadlock**: some thread is not done, and all that are not wait for others. -/
structure Deadlocked (threads : List (Thread L)) : Prop where
  unfinished : ∃ t ∈ threads, t.todo ≠ []
  waits : ∀ i t, threads[i]? = some t → t.todo ≠ [] → Waits threads i

variable [DecidableEq L]

/-- The thread at a place takes its next step, unless it is done or has to wait. -/
def step (threads : List (Thread L)) (i : ℕ) : Option (List (Thread L)) :=
  match threads[i]? with
  | none => none
  | some t =>
    match t.todo with
    | [] => none
    | .acquire l mode :: rest =>
      if Free threads l mode then some (threads.set i ⟨(l, mode) :: t.held, rest⟩) else none
    | .release l :: rest => some (threads.set i ⟨t.held.filter fun h => decide (h.1 ≠ l), rest⟩)

inductive Reached (programs : List (List (Op L))) : List (Thread L) → Prop
  | start : Reached programs (start programs)
  | step {threads threads' : List (Thread L)} (i : ℕ) (h : Reached programs threads)
      (hstep : step threads i = some threads') : Reached programs threads'

/-- **What a step can do.** -/
theorem step_cases {threads threads' : List (Thread L)} (h : step threads i = some threads') :
    ∃ t, threads[i]? = some t ∧
      ((∃ l mode rest, t.todo = .acquire l mode :: rest ∧ Free threads l mode ∧
          threads' = threads.set i ⟨(l, mode) :: t.held, rest⟩) ∨
        ∃ l rest, t.todo = .release l :: rest ∧
          threads' = threads.set i ⟨t.held.filter fun h => decide (h.1 ≠ l), rest⟩) := by
  unfold step at h
  cases hget : threads[i]? with
  | none => simp [hget] at h
  | some t =>
    refine ⟨t, rfl, ?_⟩
    rw [hget] at h
    simp only at h
    cases htodo : t.todo with
    | nil => simp [htodo] at h
    | cons op rest =>
      cases op with
      | acquire l mode =>
        simp only [htodo] at h
        split_ifs at h with hfree
        exact .inl ⟨l, mode, rest, rfl, hfree, (some.inj h).symm⟩
      | release l =>
        simp only [htodo] at h
        exact .inr ⟨l, rest, rfl, (some.inj h).symm⟩

variable {t : Thread L}

theorem step_acquire {threads : List (Thread L)} {l : L} {mode : Mode} {rest : List (Op L)}
    (hget : threads[i]? = some t) (htodo : t.todo = .acquire l mode :: rest) (hfree : Free threads l mode) :
    step threads i = some (threads.set i ⟨(l, mode) :: t.held, rest⟩) := by
  unfold step
  simp [hget, htodo, hfree]

/-! ### Programs in order -/

/-- The locks are taken upwards, and none is kept at the end. -/
def InOrder (rank : L → ℕ) : List (L × Mode) → List (Op L) → Prop
  | held, [] => held = []
  | held, .acquire l mode :: todo => (∀ h ∈ held, rank h.1 < rank l) ∧ InOrder rank ((l, mode) :: held) todo
  | held, .release l :: todo => InOrder rank (held.filter fun h => decide (h.1 ≠ l)) todo

instance decidableInOrder (rank : L → ℕ) : ∀ held todo, Decidable (InOrder rank held todo)
  | held, [] => inferInstanceAs (Decidable (held = []))
  | held, .acquire l mode :: todo =>
    have := decidableInOrder rank ((l, mode) :: held) todo
    inferInstanceAs (Decidable ((∀ h ∈ held, rank h.1 < rank l) ∧ InOrder rank ((l, mode) :: held) todo))
  | held, .release l :: todo => decidableInOrder rank (held.filter fun h => decide (h.1 ≠ l)) todo

variable {rank : L → ℕ} {programs : List (List (Op L))} {threads threads' : List (Thread L)}

/-- What is true of a program and stays true while its own thread goes on, is true of the thread. -/
theorem own_of_reached {P : List (L × Mode) → List (Op L) → Prop}
    (hacquire : ∀ held l mode todo, P held (.acquire l mode :: todo) → P ((l, mode) :: held) todo)
    (hrelease : ∀ held l todo, P held (.release l :: todo) → P (held.filter fun h => decide (h.1 ≠ l)) todo)
    (hprogram : ∀ program, programs[i]? = some program → P [] program) (h : Reached programs threads) :
    ∀ t, threads[i]? = some t → P t.held t.todo := by
  induction h with
  | start =>
    intro t ht
    rw [start, getElem?_map, map_eq_some_iff] at ht
    obtain ⟨program, hget, rfl⟩ := ht
    exact hprogram program hget
  | step k _ hstep ih =>
    obtain ⟨u, hget, hcases⟩ := step_cases hstep
    have hlt := (List.getElem?_eq_some_iff.1 hget).1
    intro t ht
    by_cases hk : k = i
    · subst hk
      have hu := ih u hget
      obtain ⟨l, mode, rest, htodo, -, rfl⟩ | ⟨l, rest, htodo, rfl⟩ := hcases
      · obtain rfl := some.inj ((getElem?_set_self hlt).symm.trans ht)
        exact hacquire _ _ _ _ (htodo ▸ hu)
      · obtain rfl := some.inj ((getElem?_set_self hlt).symm.trans ht)
        exact hrelease _ _ _ (htodo ▸ hu)
    · refine ih t ?_
      obtain ⟨l, mode, rest, -, -, rfl⟩ | ⟨l, rest, -, rfl⟩ := hcases <;> rwa [getElem?_set_ne hk] at ht

theorem inOrder_of_reached (hprograms : ∀ program ∈ programs, InOrder rank [] program)
    (h : Reached programs threads) : ∀ t ∈ threads, InOrder rank t.held t.todo := by
  intro t ht
  obtain ⟨i, hi⟩ := mem_iff_getElem?.1 ht
  exact own_of_reached (P := InOrder rank) (fun _ _ _ _ h => h.2) (fun _ _ _ h => h)
    (fun program hget => hprograms program (mem_of_getElem? hget)) h t hi

/-- The rank of the lock that a thread takes next. -/
def awaited (rank : L → ℕ) (t : Thread L) : ℕ :=
  match t.todo with
  | .acquire l _ :: _ => rank l
  | _ => 0

/-- Who waits, waits for one that is not done and that wants a higher lock. -/
theorem Deadlocked.exists_higher (h : Deadlocked threads) (hthreads : ∀ t ∈ threads, InOrder rank t.held t.todo)
    (ht : t ∈ threads) (htodo : t.todo ≠ []) :
    ∃ u ∈ threads, u.todo ≠ [] ∧ awaited rank t < awaited rank u := by
  obtain ⟨i, hi⟩ := mem_iff_getElem?.1 ht
  obtain ⟨t', l, mode, rest, hget, hacquire, j, u, -, hu, k, hk, hconflict⟩ := h.waits i t hi htodo
  obtain rfl : t = t' := some.inj (hi.symm.trans hget)
  have hmem := mem_of_getElem? hu
  have hu' := hthreads u hmem
  have hu_todo : u.todo ≠ [] := by
    intro hnil
    rw [hnil] at hu'
    rw [show u.held = [] from hu'] at hk
    simp at hk
  obtain ⟨u', l', mode', rest', hget', hacquire', -⟩ := h.waits j u hu hu_todo
  obtain rfl : u = u' := some.inj (hu.symm.trans hget')
  refine ⟨u, hmem, hu_todo, ?_⟩
  rw [hacquire'] at hu'
  have hlt := hu'.1 k hk
  rw [hconflict.1] at hlt
  simpa [awaited, hacquire, hacquire'] using hlt

/-- **Programs that take their locks in order do not deadlock**, in any interleaving: a chain of those that wait
would climb for ever. -/
theorem not_deadlocked_of_inOrder (hprograms : ∀ program ∈ programs, InOrder rank [] program)
    (h : Reached programs threads) : ¬Deadlocked threads := by
  intro hdead
  have hthreads := inOrder_of_reached hprograms h
  have hclimb : ∀ n, ∃ t ∈ threads, t.todo ≠ [] ∧ n ≤ awaited rank t := by
    intro n
    induction n with
    | zero =>
      obtain ⟨t, ht, htodo⟩ := hdead.unfinished
      exact ⟨t, ht, htodo, Nat.zero_le _⟩
    | succ n ih =>
      obtain ⟨t, ht, htodo, hle⟩ := ih
      obtain ⟨u, hu, hu_todo, hlt⟩ := hdead.exists_higher hthreads ht htodo
      exact ⟨u, hu, hu_todo, by omega⟩
  obtain ⟨t, ht, -, hle⟩ := hclimb ((threads.map (awaited rank)).sum + 1)
  have hsum := single_le_sum (l := threads.map (awaited rank)) (by simp) _ (List.mem_map_of_mem ht)
  omega

/-! ### Programs that run alone -/

/-- Alone, the program never waits for a lock of its own and keeps none at the end. -/
def Alone : List (L × Mode) → List (Op L) → Prop
  | held, [] => held = []
  | held, .acquire l mode :: todo => (∀ h ∈ held, ¬Conflict l mode h) ∧ Alone ((l, mode) :: held) todo
  | held, .release l :: todo => Alone (held.filter fun h => decide (h.1 ≠ l)) todo

variable {held : List (L × Mode)}

theorem InOrder.alone {todo : List (Op L)} (h : InOrder rank held todo) : Alone held todo := by
  induction todo generalizing held with
  | nil => exact h
  | cons op todo ih =>
    cases op with
    | acquire l mode =>
      refine ⟨fun k hk hconflict => ?_, ih h.2⟩
      have hlt := h.1 k hk
      rw [hconflict.1] at hlt
      exact lt_irrefl _ hlt
    | release l => exact ih h

theorem alone_append {todo todo' : List (Op L)} (h : Alone held todo) (h' : Alone [] todo') :
    Alone held (todo ++ todo') := by
  induction todo generalizing held with
  | nil =>
    obtain rfl : held = [] := h
    exact h'
  | cons op todo ih =>
    cases op with
    | acquire l mode => exact ⟨h.1, ih h.2⟩
    | release l => exact ih h

/-- **One program of any kind does not deadlock with others that hold one lock at a time.** -/
theorem not_deadlocked_of_single (hone : ∀ program, programs[i]? = some program → Alone [] program)
    (hothers : ∀ j program, j ≠ i → programs[j]? = some program → InOrder (fun _ => 0) [] program)
    (h : Reached programs threads) : ¬Deadlocked threads := by
  intro hdead
  -- Who holds a lock and waits for another is the one program.
  have hholder : ∀ (j : ℕ) (u : Thread L), threads[j]? = some u → u.held ≠ [] → u.todo ≠ [] → j = i := by
    intro j u hu hheld htodo
    by_contra hne
    have horder := own_of_reached (P := InOrder fun _ => 0) (fun _ _ _ _ h => h.2) (fun _ _ _ h => h)
      (hothers j · hne) h u hu
    obtain ⟨u', l, mode, rest, hget, hacquire, -⟩ := hdead.waits j u hu htodo
    obtain rfl := some.inj (hu.symm.trans hget)
    rw [hacquire] at horder
    obtain ⟨k, hk⟩ := exists_mem_of_ne_nil _ hheld
    exact absurd (horder.1 k hk) (lt_irrefl 0)
  have hunfinished : ∀ (j : ℕ) (u : Thread L), threads[j]? = some u → u.held ≠ [] → u.todo ≠ [] := by
    intro j u hu hheld hnil
    refine hheld ?_
    have halone := own_of_reached (P := Alone) (fun _ _ _ _ h => h.2) (fun _ _ _ h => h) (i := j)
      (fun program hprogram => ?_) h u hu
    · rwa [hnil] at halone
    · by_cases hj : j = i
      · exact hone program (hj ▸ hprogram)
      · exact (hothers j program hj hprogram).alone
  have hblocks : ∀ (j : ℕ) (t : Thread L), threads[j]? = some t → t.todo ≠ [] → ∃ u, threads[i]? = some u ∧ u.todo ≠ [] ∧ j ≠ i := by
    intro j t ht htodo
    obtain ⟨t', l, mode, rest, -, -, k, u, hkj, hu, lock, hlock, -⟩ := hdead.waits j t ht htodo
    have hheld : u.held ≠ [] := ne_nil_of_mem hlock
    have hrest := hunfinished k u hu hheld
    obtain rfl := hholder k u hu hheld hrest
    exact ⟨u, hu, hrest, hkj.symm⟩
  obtain ⟨t, hmem, htodo⟩ := hdead.unfinished
  obtain ⟨j, hj⟩ := mem_iff_getElem?.1 hmem
  obtain ⟨u, hu, hrest, -⟩ := hblocks j t hj htodo
  obtain ⟨-, -, -, hne⟩ := hblocks i u hu hrest
  exact hne rfl

/-- While nobody else holds a lock, a thread can be run to the end of such a part of its program. -/
theorem Reached.alone (h : Reached programs threads) {part rest : List (Op L)}
    (hget : threads[i]? = some ⟨held, part ++ rest⟩) (hothers : ∀ j t, j ≠ i → threads[j]? = some t → t.held = [])
    (halone : Alone held part) : Reached programs (threads.set i ⟨[], rest⟩) := by
  induction part generalizing threads held with
  | nil =>
    obtain rfl : held = [] := halone
    obtain ⟨hlt, heq⟩ := List.getElem?_eq_some_iff.1 hget
    rwa [← show threads[i] = ⟨[], rest⟩ from heq, set_getElem_self]
  | cons op part ih =>
    have hlt := (List.getElem?_eq_some_iff.1 hget).1
    have hkept : ∀ t', ∀ j t, j ≠ i → (threads.set i t')[j]? = some t → t.held = [] := by
      intro t' j t hne ht
      rw [getElem?_set_ne hne.symm] at ht
      exact hothers j t hne ht
    cases op with
    | acquire l mode =>
      have hfree : Free threads l mode := by
        intro t ht k hk
        obtain ⟨j, hj⟩ := mem_iff_getElem?.1 ht
        by_cases hne : j = i
        · subst hne
          obtain rfl := some.inj (hget.symm.trans hj)
          exact halone.1 k hk
        · rw [hothers j t hne hj] at hk
          cases hk
      have hnext := ih (.step i h (step_acquire hget rfl hfree)) (getElem?_set_self hlt) (hkept _) halone.2
      rwa [set_set] at hnext
    | release l =>
      have hstep : LockOrder.step threads i = some (threads.set i ⟨held.filter fun h => decide (h.1 ≠ l), part ++ rest⟩) := by
        unfold LockOrder.step
        simp [hget]
      have hnext := ih (.step i h hstep) (getElem?_set_self hlt) (hkept _) halone
      rwa [set_set] at hnext

/-! ### Programs that cross -/

variable {m₁ m₂ m₃ m₄ : Mode} {i j : ℕ} {a b : L}

/-- Two threads that are about to take two locks crosswise, while nobody holds one and all others are done or want a
lock that one of the two takes first. -/
theorem Reached.exists_deadlocked (h : Reached programs threads)
    {rest rest' : List (Op L)} (hab : a ≠ b) (hij : i ≠ j)
    (hi : threads[i]? = some ⟨[], .acquire a m₁ :: .acquire b m₂ :: rest⟩)
    (hj : threads[j]? = some ⟨[], .acquire b m₃ :: .acquire a m₄ :: rest'⟩)
    (ha : Conflict a m₄ (a, m₁)) (hb : Conflict b m₂ (b, m₃)) (hnobody : ∀ t ∈ threads, t.held = [])
    (hothers : ∀ k t, k ≠ i → k ≠ j → threads[k]? = some t → t.todo = [] ∨ ∃ l mode rest,
      t.todo = .acquire l mode :: rest ∧ (Conflict l mode (a, m₁) ∨ Conflict l mode (b, m₃))) :
    ∃ threads, Reached programs threads ∧ Deadlocked threads := by
  let one : List (Thread L) := threads.set i ⟨[(a, m₁)], .acquire b m₂ :: rest⟩
  let two : List (Thread L) := one.set j ⟨[(b, m₃)], .acquire a m₄ :: rest'⟩
  have hlt : i < threads.length := (List.getElem?_eq_some_iff.1 hi).1
  have hlt' : j < one.length := by
    simpa [one] using (List.getElem?_eq_some_iff.1 hj).1
  have hone : LockOrder.step threads i = some one := by
    refine step_acquire hi rfl fun t ht k hk => ?_
    rw [hnobody t ht] at hk
    cases hk
  have hone_j : one[j]? = some ⟨[], .acquire b m₃ :: .acquire a m₄ :: rest'⟩ := by
    rw [getElem?_set_ne hij, hj]
  have htwo : LockOrder.step one j = some two := by
    refine step_acquire hone_j rfl fun t ht k hk hconflict => ?_
    rcases mem_or_eq_of_mem_set ht with ht | rfl
    · rw [hnobody t ht] at hk
      cases hk
    · rw [mem_singleton.1 hk] at hconflict
      exact hab hconflict.1
  have hget_i : two[i]? = some ⟨[(a, m₁)], .acquire b m₂ :: rest⟩ := by
    rw [getElem?_set_ne (Ne.symm hij), getElem?_set_self hlt]
  have hget_j : two[j]? = some ⟨[(b, m₃)], .acquire a m₄ :: rest'⟩ := getElem?_set_self hlt'
  refine ⟨two, .step j (.step i h hone) htwo, ⟨_, mem_of_getElem? hget_i, by simp⟩, fun k t hk htodo => ?_⟩
  by_cases hki : k = i
  · subst hki
    obtain rfl := some.inj (hget_i.symm.trans hk)
    exact ⟨_, b, m₂, rest, hk, rfl, j, _, Ne.symm hij, hget_j, _, mem_cons_self, hb⟩
  by_cases hkj : k = j
  · subst hkj
    obtain rfl := some.inj (hget_j.symm.trans hk)
    exact ⟨_, a, m₄, rest', hk, rfl, i, _, hij, hget_i, _, mem_cons_self, ha⟩
  have hold : threads[k]? = some t := by
    rwa [getElem?_set_ne (Ne.symm hkj), getElem?_set_ne (Ne.symm hki)] at hk
  obtain hnil | ⟨l, mode, rest₁, hacquire, hl | hl⟩ := hothers k t hki hkj hold
  · exact absurd hnil htodo
  · exact ⟨t, l, mode, rest₁, hk, hacquire, i, _, Ne.symm hki, hget_i, _, mem_cons_self, hl⟩
  · exact ⟨t, l, mode, rest₁, hk, hacquire, j, _, Ne.symm hkj, hget_j, _, mem_cons_self, hl⟩

/-- **Two programs that take two locks crosswise reach a deadlock**, each after a part that it can run alone, where all
other programs are empty or start with a lock that one of the two holds then. -/
theorem exists_deadlocked_of_crossed {part part' rest rest' : List (Op L)}
    (hab : a ≠ b) (hij : i ≠ j) (hi : programs[i]? = some (part ++ .acquire a m₁ :: .acquire b m₂ :: rest))
    (hpart : Alone [] part) (hj : programs[j]? = some (part' ++ .acquire b m₃ :: .acquire a m₄ :: rest'))
    (hpart' : Alone [] part') (ha : Conflict a m₄ (a, m₁)) (hb : Conflict b m₂ (b, m₃))
    (hothers : ∀ program ∈ programs, program = [] ∨ ∃ l mode rest, program = .acquire l mode :: rest ∧
      (Conflict l mode (a, m₁) ∨ Conflict l mode (b, m₃))) :
    ∃ threads, Reached programs threads ∧ Deadlocked threads := by
  have hnobody : ∀ {t}, t ∈ start programs → t.held = [] := by
    intro t ht
    obtain ⟨program, -, rfl⟩ := List.mem_map.1 ht
    rfl
  let one : List (Thread L) := (start programs).set i ⟨[], .acquire a m₁ :: .acquire b m₂ :: rest⟩
  let two : List (Thread L) := one.set j ⟨[], .acquire b m₃ :: .acquire a m₄ :: rest'⟩
  have hnobody' : ∀ {t}, t ∈ one → t.held = [] := by
    intro t ht
    rcases mem_or_eq_of_mem_set ht with ht | rfl
    · exact hnobody ht
    · rfl
  have hone : Reached programs one :=
    Reached.alone .start (getElem?_start hi) (fun _ _ _ hk => hnobody (mem_of_getElem? hk)) hpart
  have hget_j : one[j]? = some ⟨[], part' ++ .acquire b m₃ :: .acquire a m₄ :: rest'⟩ := by
    rw [getElem?_set_ne hij, getElem?_start hj]
  have htwo : Reached programs two := hone.alone hget_j (fun _ _ _ hk => hnobody' (mem_of_getElem? hk)) hpart'
  have hget_i : two[i]? = some ⟨[], .acquire a m₁ :: .acquire b m₂ :: rest⟩ := by
    rw [getElem?_set_ne hij.symm, getElem?_set_self (List.getElem?_eq_some_iff.1 (getElem?_start hi)).1]
  have hready_j : two[j]? = some ⟨[], .acquire b m₃ :: .acquire a m₄ :: rest'⟩ :=
    getElem?_set_self (List.getElem?_eq_some_iff.1 hget_j).1
  refine htwo.exists_deadlocked hab hij hget_i hready_j ha hb (fun t ht => ?_) fun k t hki hkj hk => ?_
  · rcases mem_or_eq_of_mem_set ht with ht | rfl
    · exact hnobody' ht
    · rfl
  · rw [getElem?_set_ne (Ne.symm hkj), getElem?_set_ne (Ne.symm hki)] at hk
    obtain ⟨program, hmem, rfl⟩ := List.mem_map.1 (mem_of_getElem? hk)
    exact hothers program hmem

end LockOrder
