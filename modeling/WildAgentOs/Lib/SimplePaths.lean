import Mathlib.Data.Finset.Card
import Mathlib.Data.List.Chain
import Mathlib.Tactic

/-!
# Simple paths

The paths without repetitions along a successor function, collected by backtracking: a path is taken where
nothing comes next.

* `collect`, with fuel;
* `exists_collect`, `exists_maximal`, `mem_collect`.
-/

namespace SimplePaths

open List Option

variable {α : Type*}

/-- The search from the end of a path on. -/
def collect [DecidableEq α] (next : α → List α) : ℕ → List α → α → Option (List (List α))
  | 0, _, _ => none
  | fuel + 1, path, node =>
    if next node = [] then some [path]
    else (((next node).filter fun b => b ∉ path).mapM fun b => collect next fuel (path ++ [b]) b).map List.flatten

/-- A path along a relation that passes nothing twice. -/
structure IsSimple (step : α → α → Prop) (path : List α) : Prop where
  chain : path.IsChain step
  nodup : path.Nodup

variable {path : List α} {step : α → α → Prop}

theorem IsSimple.concat {node b : α} (h : IsSimple step path)
    (hlast : path.getLast? = some node) (hstep : step node b) (hnew : b ∉ path) :
    IsSimple step (path ++ [b]) where
  chain := by
    refine h.chain.append (isChain_singleton b) ?_
    intro x hx y hy
    obtain rfl := some.inj (hlast.symm.trans hx)
    cases hy
    exact hstep
  nodup := by
    rw [nodup_append]
    refine ⟨h.nodup, nodup_singleton b, ?_⟩
    rintro x hx y hy rfl
    exact hnew (mem_singleton.1 hy ▸ hx)

variable {U : Finset α}

/-- **A simple path goes on to one that cannot go on**, where all places are among finitely many. -/
theorem exists_maximal (hU : ∀ a b, step a b → b ∈ U)
    (hne : path ≠ []) (hpath : ∀ a ∈ path, a ∈ U) (h : IsSimple step path) :
    ∃ p, path <+: p ∧ IsSimple step p ∧ ∀ last, p.getLast? = some last → ∀ b, step last b → b ∈ p := by
  classical
  -- Each step uses up one more of the places.
  induction hn : U.card - path.length using Nat.strong_induction_on generalizing path with
  | _ n ih =>
    by_cases hends : ∀ last, path.getLast? = some last → ∀ b, step last b → b ∈ path
    · exact ⟨path, prefix_rfl, h, hends⟩
    · push Not at hends
      obtain ⟨last, hlast, b, hstep, hnew⟩ := hends
      have hin : ∀ a ∈ path ++ [b], a ∈ U := by
        intro a ha
        rcases mem_append.1 ha with ha | ha
        · exact hpath a ha
        · exact mem_singleton.1 ha ▸ hU last b hstep
      have hlonger := h.concat hlast hstep hnew
      have hle : (path ++ [b]).length ≤ U.card := by
        rw [← toFinset_card_of_nodup hlonger.nodup]
        exact Finset.card_le_card fun a ha => hin a (List.mem_toFinset.1 ha)
      have hlength : (path ++ [b]).length = path.length + 1 := length_append
      obtain ⟨p, hpre, hsimple, hend⟩ := ih (U.card - (path ++ [b]).length) (by omega)
        (append_ne_nil_of_left_ne_nil hne [b]) hin hlonger rfl
      exact ⟨p, (prefix_append path [b]).trans hpre, hsimple, hend⟩

variable {β γ : Type*} {l : List β} {f : β → Option γ}

theorem forall₂_of_mapM {cs : List γ} (h : l.mapM f = some cs) : List.Forall₂ (fun b c => f b = some c) l cs := by
  induction l generalizing cs with
  | nil =>
    cases h
    exact .nil
  | cons b l ih =>
    rw [mapM_cons] at h
    obtain ⟨c, hc, h⟩ := bind_eq_some_iff.1 h
    obtain ⟨rest, hrest, h⟩ := bind_eq_some_iff.1 h
    cases h
    exact .cons hc (ih hrest)

theorem mem_flatten_of_mapM {f : β → Option (List γ)} {all : List (List γ)}
    (h : List.Forall₂ (fun b cs => f b = some cs) l all) {c : γ} :
    c ∈ all.flatten ↔ ∃ b ∈ l, ∃ cs, f b = some cs ∧ c ∈ cs := by
  induction h with
  | nil => simp
  | cons hcs _ ih =>
    rw [flatten_cons, mem_append, ih]
    simp only [exists_mem_cons_iff, hcs, some.injEq, exists_eq_left']

theorem exists_mapM (h : ∀ b ∈ l, ∃ c, f b = some c) : ∃ cs, l.mapM f = some cs := by
  induction l with
  | nil => exact ⟨[], rfl⟩
  | cons b l ih =>
    obtain ⟨c, hc⟩ := h b mem_cons_self
    obtain ⟨cs, hcs⟩ := ih fun b' hb' => h b' (mem_cons_of_mem b hb')
    refine ⟨c :: cs, ?_⟩
    rw [mapM_cons, hc, hcs]
    rfl

variable [DecidableEq α] {next : α → List α} {fuel : ℕ} {node : α}

/-- **The search ends**, where all places are among finitely many. -/
theorem exists_collect (hU : ∀ a, ∀ b ∈ next a, b ∈ U)
    (hpath : ∀ a ∈ path, a ∈ U) (hnodup : path.Nodup) (hfuel : U.card < fuel + path.length) :
    ∃ paths, collect next fuel path node = some paths := by
  induction fuel generalizing path node with
  | zero =>
    have hle : path.length ≤ U.card := by
      rw [← toFinset_card_of_nodup hnodup]
      refine Finset.card_le_card fun a ha => hpath a (List.mem_toFinset.1 ha)
    omega
  | succ fuel ih =>
    rw [collect]
    split_ifs with hnone
    · exact ⟨[path], rfl⟩
    · have hall : ∀ b ∈ (next node).filter fun b => b ∉ path,
          ∃ paths, collect next fuel (path ++ [b]) b = some paths := by
        intro b hb
        obtain ⟨hb, hnew⟩ := mem_filter.1 hb
        rw [decide_eq_true_eq] at hnew
        refine ih ?_ ?_ ?_
        · intro a ha
          rcases mem_append.1 ha with ha | ha
          · exact hpath a ha
          · exact mem_singleton.1 ha ▸ hU node b hb
        · rw [nodup_append]
          refine ⟨hnodup, nodup_singleton b, ?_⟩
          rintro x hx y hy rfl
          exact hnew (mem_singleton.1 hy ▸ hx)
        · rw [length_append, length_singleton]
          omega
      obtain ⟨all, hall⟩ := exists_mapM hall
      exact ⟨all.flatten, by rw [hall]; rfl⟩

/-- **What the search finds**: the simple paths that go on from the given one to where nothing comes next. -/
theorem mem_collect {paths : List (List α)} (h : collect next fuel path node = some paths)
    (hlast : path.getLast? = some node) (hpath : IsSimple (fun a b => b ∈ next a) path) {p : List α} :
    p ∈ paths ↔ path <+: p ∧ IsSimple (fun a b => b ∈ next a) p ∧ ∀ last, p.getLast? = some last → next last = [] := by
  induction fuel generalizing path node paths with
  | zero => cases h
  | succ fuel ih =>
    -- A longer path goes on with a successor.
    have hgoes : ∀ b rest, IsSimple (fun a b => b ∈ next a) (path ++ b :: rest) → b ∈ next node ∧ b ∉ path := by
      intro b rest hsimple
      have hstep := (isChain_append.1 hsimple.chain).2.2
      refine ⟨hstep node hlast b rfl, fun hin => ?_⟩
      exact (nodup_append.1 hsimple.nodup).2.2 b hin b mem_cons_self rfl
    rw [collect] at h
    split_ifs at h with hnone
    · cases h
      rw [mem_singleton]
      constructor
      · rintro rfl
        refine ⟨prefix_rfl, hpath, fun last hend => ?_⟩
        obtain rfl := some.inj (hlast.symm.trans hend)
        exact hnone
      · rintro ⟨⟨rest, rfl⟩, hsimple, -⟩
        cases rest with
        | nil => rw [append_nil]
        | cons b rest =>
          have hb := (hgoes b rest hsimple).1
          rw [hnone] at hb
          exact absurd hb not_mem_nil
    · obtain ⟨all, hall, rfl⟩ := map_eq_some_iff.1 h
      have hfound := forall₂_of_mapM hall
      rw [mem_flatten_of_mapM hfound]
      constructor
      · rintro ⟨b, hb, found, hfound, hp⟩
        obtain ⟨hb, hnew⟩ := mem_filter.1 hb
        rw [decide_eq_true_eq] at hnew
        obtain ⟨hpre, hsimple, hend⟩ := (ih hfound getLast?_concat (hpath.concat hlast hb hnew)).1 hp
        exact ⟨(prefix_append path [b]).trans hpre, hsimple, hend⟩
      · rintro ⟨⟨rest, rfl⟩, hsimple, hend⟩
        cases rest with
        | nil =>
          rw [append_nil] at hend
          exact absurd (hend node hlast) hnone
        | cons b rest =>
          obtain ⟨hb, hnew⟩ := hgoes b rest hsimple
          have hb' : b ∈ (next node).filter fun b => b ∉ path := mem_filter.2 ⟨hb, decide_eq_true hnew⟩
          obtain ⟨i, hi, rfl⟩ := mem_iff_getElem.1 hb'
          have hone := hfound.get hi (hfound.length_eq ▸ hi)
          refine ⟨_, hb', _, hone, ?_⟩
          rw [ih hone getLast?_concat (hpath.concat hlast hb hnew)]
          refine ⟨⟨rest, by simp⟩, hsimple, hend⟩

end SimplePaths
