import Mathlib.Tactic

/-!
# Fallible computations

Inversion of a bind in `Except`: a sequence that returns has returned at each of its steps; and of what
else leaves a result as it is.
-/

theorem Except.bind_eq_ok_iff {ε α β : Type*} {x : Except ε α} {f : α → Except ε β} {b : β} :
    x.bind f = .ok b ↔ ∃ a, x = .ok a ∧ f a = .ok b := by
  cases x with
  | error e => simp [Except.bind]
  | ok a => simp [Except.bind]

/-- The second part of what a computation returns. -/
theorem Except.snd_map_eq_ok_iff {ε α β : Type} {x : Except ε (α × β)} {b : β} :
    (·.2) <$> x = .ok b ↔ ∃ a, x = .ok (a, b) := by
  cases x with
  | error e => simp
  | ok p =>
    simp only [Functor.map, Except.map, Except.ok.injEq]
    constructor
    · rintro rfl
      exact ⟨p.1, rfl⟩
    · rintro ⟨a, rfl⟩
      rfl

theorem Except.mapError_eq_ok_iff {ε ε' α : Type*} {x : Except ε α} {f : ε → ε'} {a : α} :
    x.mapError f = .ok a ↔ x = .ok a := by
  cases x with
  | error e => exact ⟨fun h => (nomatch h), fun h => (nomatch h)⟩
  | ok b => exact ⟨fun h => congrArg _ (Except.ok.inj h), fun h => congrArg _ (Except.ok.inj h)⟩

/-! ### What a traversal returns -/

theorem Except.exists_of_mem_mapM {ε α β : Type*} {f : α → Except ε β} {l : List α} :
    ∀ {bs : List β}, l.mapM f = .ok bs → ∀ b ∈ bs, ∃ a ∈ l, f a = .ok b := by
  induction l with
  | nil =>
    intro bs h b hb
    cases h
    exact absurd hb List.not_mem_nil
  | cons a l ih =>
    intro bs h b hb
    rw [List.mapM_cons] at h
    obtain ⟨first, hfirst, h⟩ := Except.bind_eq_ok_iff.1 h
    obtain ⟨rest, hrest, h⟩ := Except.bind_eq_ok_iff.1 h
    cases h
    rcases List.mem_cons.1 hb with rfl | hb
    · exact ⟨a, List.mem_cons_self, hfirst⟩
    · obtain ⟨a', ha', hb'⟩ := ih hrest b hb
      exact ⟨a', List.mem_cons_of_mem a ha', hb'⟩

theorem Option.exists_of_mem_mapM {α β : Type*} {f : α → Option β} {l : List α} :
    ∀ {bs : List β}, l.mapM f = some bs → ∀ b ∈ bs, ∃ a ∈ l, f a = some b := by
  induction l with
  | nil =>
    intro bs h b hb
    cases h
    exact absurd hb List.not_mem_nil
  | cons a l ih =>
    intro bs h b hb
    rw [List.mapM_cons] at h
    obtain ⟨first, hfirst, h⟩ := Option.bind_eq_some_iff.1 h
    obtain ⟨rest, hrest, h⟩ := Option.bind_eq_some_iff.1 h
    cases h
    rcases List.mem_cons.1 hb with rfl | hb
    · exact ⟨a, List.mem_cons_self, hfirst⟩
    · obtain ⟨a', ha', hb'⟩ := ih hrest b hb
      exact ⟨a', List.mem_cons_of_mem a ha', hb'⟩
