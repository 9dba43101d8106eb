import WildAgentOs.Lib.Worklist
import Mathlib.Data.List.Chain

/-!
# The search for a cycle

The depth-first walk along a successor function that keeps its way and what it has seen, and stops where it comes back
to its way.

* `walk`, with fuel for the depth: the cycle that is found, or what was seen;
* `IsCycle`, `not_behindCycle_of_walk`, `isCycle_of_walk`, `exists_walk`, `walk_spec`.
-/

namespace CycleSearch

open Worklist List

variable {α : Type*} {next : α → List α} {fuel : ℕ} {a : α} {path seen : List α}

/-- One walk after another, until one finds a cycle. -/
def walkAll (walk : α → List α → Option (Except (List α) (List α))) :
    List α → List α → Option (Except (List α) (List α))
  | [], seen => some (.ok seen)
  | b :: places, seen =>
    match walk b seen with
    | some (.ok seen) => walkAll walk places seen
    | found => found

/-- The walk from a place at the end of a path. -/
def walk [DecidableEq α] (next : α → List α) : ℕ → List α → α → List α → Option (Except (List α) (List α))
  | 0, _, _, _ => none
  | fuel + 1, path, a, seen =>
    if a ∈ path then some (.error (path.dropWhile (· ≠ a) ++ [a]))
    else if a ∈ seen then some (.ok seen)
    else walkAll (walk next fuel (path ++ [a])) (next a) (a :: seen)

/-- A way along successors back to its start, with no place twice on it. -/
def IsCycle (next : α → List α) (cycle : List α) : Prop :=
  ∃ a between, cycle = a :: between ++ [a] ∧ cycle.IsChain (fun b c => c ∈ next b) ∧ (a :: between).Nodup

/-! ### What is left behind -/

/-- Nothing that was left leads to a cycle. -/
def Left (next : α → List α) (path seen : List α) : Prop := ∀ b ∈ seen, b ∉ path → ¬BehindCycle next b

variable {places : List α}

theorem left_of_walkAll {walk : α → List α → Option (Except (List α) (List α))}
    (hwalk : ∀ b seen seen', walk b seen = some (.ok seen') → Left next path seen →
      ¬BehindCycle next b ∧ Left next path seen') :
    ∀ {seen seen'}, walkAll walk places seen = some (.ok seen') → Left next path seen →
      (∀ b ∈ places, ¬BehindCycle next b) ∧ Left next path seen' := by
  induction places with
  | nil =>
    intro seen seen' h hleft
    cases h
    exact ⟨fun b hb => absurd hb not_mem_nil, hleft⟩
  | cons b places ih =>
    intro seen seen' h hleft
    unfold walkAll at h
    split at h
    · rename_i seen'' hb
      obtain ⟨hnot, hleft⟩ := hwalk b seen seen'' hb hleft
      obtain ⟨hall, hleft⟩ := ih h hleft
      exact ⟨forall_mem_cons.2 ⟨hnot, hall⟩, hleft⟩
    · rename_i hne
      exact absurd h (hne seen')

/-- **A place that is left has no cycle ahead.** -/
theorem not_behindCycle_of_walk [DecidableEq α] {seen' : List α} (h : walk next fuel path a seen = some (.ok seen'))
    (hleft : Left next path seen) : ¬BehindCycle next a ∧ Left next path seen' := by
  induction fuel generalizing path a seen seen' with
  | zero => cases h
  | succ fuel ih =>
    unfold walk at h
    split_ifs at h with hpath hseen
    · cases h
    · cases h
      exact ⟨hleft a hseen hpath, hleft⟩
    · have hentered : Left next (path ++ [a]) (a :: seen) := by
        intro b hb hnew
        rcases mem_cons.1 hb with rfl | hb
        · exact absurd (mem_append_right path mem_cons_self) hnew
        · exact hleft b hb fun hin => hnew (mem_append_left _ hin)
      obtain ⟨hall, hleft'⟩ := left_of_walkAll (fun b seen seen' hb hin => ih hb hin) h hentered
      have ha : ¬BehindCycle next a := fun hcycle => by
        obtain ⟨b, hb, hahead⟩ := hcycle.exists_next
        exact hall b hb hahead
      refine ⟨ha, fun b hb hout => ?_⟩
      by_cases hba : b = a
      · exact hba ▸ ha
      · exact hleft' b hb fun hin => (mem_append.1 hin).elim hout fun hin => hba (mem_singleton.1 hin)

/-! ### What is found -/

theorem error_of_walkAll {walk : α → List α → Option (Except (List α) (List α))} {places cycle : List α} :
    ∀ {seen}, walkAll walk places seen = some (.error cycle) →
      ∃ b ∈ places, ∃ seen', walk b seen' = some (.error cycle) := by
  induction places with
  | nil =>
    intro seen h
    cases h
  | cons b places ih =>
    intro seen h
    unfold walkAll at h
    split at h
    · obtain ⟨c, hc, hfound⟩ := ih h
      exact ⟨c, mem_cons_of_mem b hc, hfound⟩
    · exact ⟨b, mem_cons_self, seen, h⟩

variable [DecidableEq α] {cycle : List α}

/-- **What is found is a cycle that is reached from the start of the path.** -/
theorem isCycle_of_walk {start : α} (h : walk next fuel path a seen = some (.error cycle))
    (hchain : (path ++ [a]).IsChain fun b c => c ∈ next b) (hnodup : path.Nodup)
    (hstart : (path ++ [a]).head? = some start) : IsCycle next cycle ∧ ∃ c ∈ cycle.head?, Reaches next start c := by
  induction fuel generalizing path a seen with
  | zero => cases h
  | succ fuel ih =>
    unfold walk at h
    split_ifs at h with hpath hseen
    · cases h
      obtain ⟨before, between, rfl, hfirst⟩ := eq_append_cons_of_mem hpath
      have hdrop : (before ++ a :: between).dropWhile (· ≠ a) = a :: between := by
        have hbefore : ∀ b ∈ before, decide (b ≠ a) = true := fun b hb =>
          decide_eq_true (ne_of_mem_of_not_mem hb hfirst)
        rw [dropWhile_append_of_pos hbefore, dropWhile_cons_of_neg (by simp)]
      rw [append_assoc] at hchain
      refine ⟨⟨a, between, by rw [hdrop], ?_, hnodup.of_append_right⟩, a, by rw [hdrop]; rfl, ?_⟩
      · rw [hdrop]
        exact hchain.right_of_append
      · have hway : (before ++ [a]).IsChain fun b c => c ∈ next b := by
          rw [cons_append, append_cons] at hchain
          exact hchain.left_of_append
        have hreach := relationReflTransGen_of_exists_isChain _ hway (by simp)
        have hhead : (before ++ [a]).head (by simp) = start := by
          cases before <;> simpa using hstart
        rwa [hhead, getLast_concat] at hreach
    · cases h
    · obtain ⟨b, hb, seen', hfound⟩ := error_of_walkAll h
      refine ih hfound (hchain.append (isChain_singleton b) ?_) ?_ ?_
      · intro x hx y hy
        rw [getLast?_concat] at hx
        cases hx
        cases hy
        exact hb
      · exact hnodup.append (nodup_singleton a) (by simpa using hpath)
      · rw [head?_append, hstart]
        rfl

omit [DecidableEq α] in
theorem behindCycle_of_isCycle (h : IsCycle next cycle) {c : α} (hc : c ∈ cycle.head?)
    (hreach : Reaches next a c) : BehindCycle next a := by
  obtain ⟨b, between, rfl, hchain, -⟩ := h
  obtain rfl : b = c := Option.some.inj hc
  refine ⟨b, hreach, ?_⟩
  cases between with
  | nil => exact .single (isChain_cons_cons.1 hchain).1
  | cons c between =>
    obtain ⟨hfirst, hrest⟩ := isChain_cons_cons.1 hchain
    have hback := relationReflTransGen_of_exists_isChain_cons _ hrest (getLast_append_singleton (c :: between))
    exact .head' hfirst hback

/-! ### The end of the walk -/

omit [DecidableEq α] in
theorem exists_walkAll {walk : α → List α → Option (Except (List α) (List α))}
    (h : ∀ b ∈ places, ∀ seen, ∃ found, walk b seen = some found) :
    ∀ seen, ∃ found, walkAll walk places seen = some found := by
  induction places with
  | nil => exact fun seen => ⟨_, rfl⟩
  | cons b places ih =>
    intro seen
    obtain ⟨hb, hplaces⟩ := forall_mem_cons.1 h
    obtain ⟨found, hfound⟩ := hb seen
    unfold walkAll
    rw [hfound]
    cases found with
    | error cycle => exact ⟨_, rfl⟩
    | ok seen => exact ih hplaces seen

variable {U : Finset α}

/-- **A path is no longer than there are places, so the walk ends.** -/
theorem exists_walk (hU : ∀ a, ∀ b ∈ next a, b ∈ U) (hpath : ∀ b ∈ path, b ∈ U) (ha : a ∈ U)
    (hnodup : path.Nodup) (hfuel : U.card < fuel + path.length) : ∃ found, walk next fuel path a seen = some found := by
  induction fuel generalizing path a seen with
  | zero =>
    have hle : path.length ≤ U.card := by
      rw [← toFinset_card_of_nodup hnodup]
      exact Finset.card_le_card fun b hb => hpath b (List.mem_toFinset.1 hb)
    omega
  | succ fuel ih =>
    unfold walk
    split_ifs with hin hseen
    · exact ⟨_, rfl⟩
    · exact ⟨_, rfl⟩
    · refine exists_walkAll (fun b hb seen => ih ?_ (hU a b hb) ?_ ?_) _
      · exact forall_mem_append.2 ⟨hpath, forall_mem_singleton.2 ha⟩
      · exact hnodup.append (nodup_singleton a) (by simpa using hin)
      · rw [length_append, length_singleton]
        omega

/-- **A walk from a place finds a cycle that it leads to, if there is one.** -/
theorem walk_spec (hU : ∀ a, ∀ b ∈ next a, b ∈ U) (ha : a ∈ U) (hfuel : U.card < fuel) :
    (∃ seen, walk next fuel [] a [] = some (.ok seen) ∧ ¬BehindCycle next a) ∨
      ∃ cycle, walk next fuel [] a [] = some (.error cycle) ∧ IsCycle next cycle ∧
        ∃ c ∈ cycle.head?, Reaches next a c := by
  obtain ⟨found, hfound⟩ := exists_walk hU (fun b hb => absurd hb not_mem_nil) ha .nil hfuel
  cases found with
  | ok seen =>
    exact .inl ⟨seen, hfound, (not_behindCycle_of_walk hfound fun b hb => absurd hb not_mem_nil).1⟩
  | error cycle => exact .inr ⟨cycle, hfound, isCycle_of_walk hfound (isChain_singleton a) .nil rfl⟩

end CycleSearch
