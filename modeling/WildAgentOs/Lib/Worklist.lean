import Mathlib.Algebra.BigOperators.Group.Finset.Basic
import Mathlib.Data.List.Dedup
import Mathlib.Logic.Relation
import Mathlib.Tactic

/-!
# Worklists

Three walks along a successor function from the front of a queue, with fuel: `visit` puts in the queue what
it has not seen, `expand` all successors, so that it ends only where no walk is endless, and `search` all
successors, but it skips what it has seen.

* `mem_visit`: with enough fuel, `visit` sees what is reached;
* `mem_expand`, `BehindCycle`, `exists_expand_iff`, `exists_search`, `mem_search`.
-/

namespace Worklist

open List

variable {α : Type*} (next : α → List α)

/-- A walk from the one to the other. -/
def Reaches : α → α → Prop := Relation.ReflTransGen fun a b => b ∈ next a

/-- All successors are put in the queue. -/
def expand : ℕ → List α → Option (List α)
  | _, [] => some []
  | 0, _ :: _ => none
  | fuel + 1, a :: queue => (expand fuel (queue ++ next a)).map (a :: ·)

/-- What was not seen is put in the queue. -/
def visit [DecidableEq α] : ℕ → List α → List α → List α
  | _, seen, [] => seen
  | 0, seen, _ :: _ => seen
  | fuel + 1, seen, a :: queue =>
    let fresh := ((next a).filter fun b => b ∉ seen).dedup
    visit fuel (seen ++ fresh) (queue ++ fresh)

/-- All successors are put in the queue, and what was seen is skipped. -/
def search [DecidableEq α] : ℕ → List α → List α → Option (List α)
  | _, seen, [] => some seen
  | 0, _, _ :: _ => none
  | fuel + 1, seen, a :: queue =>
    if a ∈ seen then search fuel seen queue else search fuel (seen ++ [a]) (queue ++ next a)

variable {next} {a b : α}

theorem reaches_iff : Reaches next a b ↔ a = b ∨ ∃ c ∈ next a, Reaches next c b :=
  Relation.ReflTransGen.cases_head_iff

/-- What is reached along fewer successors. -/
theorem Reaches.of_subset {next' : α → List α} (hsub : ∀ b, Reaches next a b → ∀ c ∈ next' b, c ∈ next b)
    (h : Reaches next' a b) : Reaches next a b := by
  induction h with
  | refl => exact .refl
  | tail _ hstep ih => exact .tail ih (hsub _ ih _ hstep)

variable {queue : List α} {fuel : ℕ} {l : List α} {b : α}

/-- **What `expand` passes.** -/
theorem mem_expand (h : expand next fuel queue = some l) : b ∈ l ↔ ∃ a ∈ queue, Reaches next a b := by
  induction fuel generalizing queue l with
  | zero =>
    cases queue with
    | nil =>
      cases h
      simp
    | cons a queue => cases h
  | succ fuel ih =>
    cases queue with
    | nil =>
      cases h
      simp
    | cons a queue =>
      obtain ⟨rest, hrest, rfl⟩ := Option.map_eq_some_iff.1 h
      rw [mem_cons, ih hrest]
      constructor
      · rintro (rfl | ⟨c, hc, hreach⟩)
        · exact ⟨b, mem_cons_self, .refl⟩
        · rcases mem_append.1 hc with hin | hin
          · exact ⟨c, mem_cons_of_mem a hin, hreach⟩
          · exact ⟨a, mem_cons_self, .head hin hreach⟩
      · rintro ⟨c, hc, hreach⟩
        rcases mem_cons.1 hc with rfl | hin
        · rcases reaches_iff.1 hreach with rfl | ⟨d, hd, hreach⟩
          · exact .inl rfl
          · exact .inr ⟨d, mem_append_right _ hd, hreach⟩
        · exact .inr ⟨c, mem_append_left _ hin, hreach⟩

/-! ### Cycles -/

/-- A walk leads to a cycle. -/
def BehindCycle (next : α → List α) (a : α) : Prop :=
  ∃ c, Reaches next a c ∧ Relation.TransGen (fun a b => b ∈ next a) c c

/-- One step on, the cycle is still ahead. -/
theorem BehindCycle.exists_next {a : α} (h : BehindCycle next a) : ∃ b ∈ next a, BehindCycle next b := by
  obtain ⟨c, hreach, hcycle⟩ := h
  rcases Relation.ReflTransGen.cases_head hreach with rfl | ⟨b, hb, hrest⟩
  · obtain ⟨b, hb, hrest⟩ := Relation.TransGen.head'_iff.1 hcycle
    exact ⟨b, hb, a, hrest, hcycle⟩
  · exact ⟨b, hb, c, hrest, hcycle⟩

/-- **Where each of finitely many places has a successor among them, there is a cycle.** -/
theorem behindCycle_of_forall_exists_next {left : List α} (h : ∀ a ∈ left, ∃ b ∈ next a, b ∈ left) {a : α}
    (ha : a ∈ left) : BehindCycle next a := by
  by_contra hcycle
  -- Without a cycle, what is reached from the place is well founded.
  let Ahead := {b // b ∈ left ∧ Reaches next a b}
  let after (b c : Ahead) : Prop := Relation.TransGen (fun a b => b ∈ next a) c.1 b.1
  have : Finite Ahead := (left.finite_toSet.subset fun b (hb : b ∈ left ∧ _) => hb.1).to_subtype
  have : IsTrans Ahead after := ⟨fun b c d hbc hcd => hcd.trans hbc⟩
  have : Std.Irrefl after := ⟨fun b hb => hcycle ⟨b.1, b.2.2, hb⟩⟩
  obtain ⟨b, -, hmin⟩ := (Finite.wellFounded_of_trans_of_irrefl after).has_min Set.univ ⟨⟨a, ha, .refl⟩, trivial⟩
  obtain ⟨c, hc, hleft⟩ := h b.1 b.2.1
  exact hmin ⟨c, hleft, b.2.2.tail hc⟩ trivial (.single hc)

/-- A walk that ends has no cycle ahead. -/
theorem not_behindCycle_of_expand (h : expand next fuel queue = some l) : ∀ a ∈ queue, ¬BehindCycle next a := by
  induction fuel generalizing queue l with
  | zero =>
    cases queue with
    | nil => exact fun a ha => absurd ha not_mem_nil
    | cons a queue => cases h
  | succ fuel ih =>
    cases queue with
    | nil => exact fun a ha => absurd ha not_mem_nil
    | cons a queue =>
      obtain ⟨rest, hrest, -⟩ := Option.map_eq_some_iff.1 h
      intro b hb hcycle
      rcases mem_cons.1 hb with rfl | hin
      · obtain ⟨c, hc, hahead⟩ := hcycle.exists_next
        exact ih hrest c (mem_append_right _ hc) hahead
      · exact ih hrest b (mem_append_left _ hin) hcycle

/-- The number of places that all walks from a place pass, each walk for itself. -/
inductive Walks (next : α → List α) : α → ℕ → Prop
  | node {a : α} {counts : List ℕ} (h : List.Forall₂ (Walks next) (next a) counts) : Walks next a (1 + counts.sum)

theorem exists_forall₂_walks {places : List α} (h : ∀ a ∈ places, ∃ n, Walks next a n) :
    ∃ counts, List.Forall₂ (Walks next) places counts := by
  induction places with
  | nil => exact ⟨[], .nil⟩
  | cons a places ih =>
    obtain ⟨n, hn⟩ := h a mem_cons_self
    obtain ⟨counts, hcounts⟩ := ih fun b hb => h b (mem_cons_of_mem a hb)
    exact ⟨n :: counts, .cons hn hcounts⟩

variable {U : Finset α}

/-- Without a cycle ahead, there are finitely many walks. -/
theorem exists_walks (hU : ∀ a, ∀ b ∈ next a, b ∈ U) {a : α} (h : ¬BehindCycle next a) : ∃ n, Walks next a n := by
  classical
  by_contra hnone
  refine h (@behindCycle_of_forall_exists_next _ _ ((insert a U).toList.filter fun b => ¬∃ n, Walks next b n) ?_ a ?_)
  · intro b hb
    rw [mem_filter, decide_eq_true_eq] at hb
    by_contra hall
    obtain ⟨counts, hcounts⟩ : ∃ counts, List.Forall₂ (Walks next) (next b) counts := by
      refine exists_forall₂_walks fun c hc => ?_
      by_contra hwalks
      refine hall ⟨c, hc, mem_filter.2 ⟨?_, decide_eq_true hwalks⟩⟩
      exact Finset.mem_toList.2 (Finset.mem_insert_of_mem (hU b c hc))
    exact hb.2 ⟨_, .node hcounts⟩
  · exact mem_filter.2 ⟨Finset.mem_toList.2 (Finset.mem_insert_self a U), decide_eq_true hnone⟩

/-- With fuel for all walks, `expand` ends. -/
theorem exists_expand {counts : List ℕ} (hcounts : List.Forall₂ (Walks next) queue counts) (hfuel : counts.sum ≤ fuel) :
    ∃ l, expand next fuel queue = some l := by
  induction fuel generalizing queue counts with
  | zero =>
    cases hcounts with
    | nil => exact ⟨[], rfl⟩
    | cons ha _ =>
      cases ha
      rw [sum_cons] at hfuel
      omega
  | succ fuel ih =>
    cases hcounts with
    | nil => exact ⟨[], by rw [expand]⟩
    | cons ha hrest =>
      cases ha with
      | node hnext =>
        rw [sum_cons] at hfuel
        obtain ⟨l, hl⟩ := ih (rel_append hrest hnext) (by rw [sum_append]; omega)
        exact ⟨_, by rw [expand, hl]; rfl⟩

/-- **`expand` ends** exactly if no walk leads to a cycle. -/
theorem exists_expand_iff (hU : ∀ a, ∀ b ∈ next a, b ∈ U) {a : α} :
    (∃ fuel l, expand next fuel [a] = some l) ↔ ¬BehindCycle next a := by
  constructor
  · rintro ⟨fuel, l, h⟩
    exact not_behindCycle_of_expand h a (mem_singleton_self a)
  · intro h
    obtain ⟨n, hn⟩ := exists_walks hU h
    obtain ⟨l, hl⟩ := exists_expand (.cons hn .nil) (Nat.le_of_eq (sum_singleton))
    exact ⟨n, l, hl⟩

variable [DecidableEq α]

/-! ### The walk that sees -/

variable {seen : List α}

theorem reaches_of_mem_visit (h : b ∈ visit next fuel seen queue) : b ∈ seen ∨ ∃ a ∈ queue, Reaches next a b := by
  induction fuel generalizing seen queue with
  | zero =>
    cases queue with
    | nil => exact .inl h
    | cons a queue => exact .inl h
  | succ fuel ih =>
    cases queue with
    | nil => exact .inl h
    | cons a queue =>
      rw [visit] at h
      have hfresh : ∀ c ∈ ((next a).filter fun b => b ∉ seen).dedup, c ∈ next a := fun c hc =>
        (mem_filter.1 (mem_dedup.1 hc)).1
      rcases ih h with hin | ⟨c, hc, hreach⟩
      · rcases mem_append.1 hin with hin | hin
        · exact .inl hin
        · exact .inr ⟨a, mem_cons_self, .single (hfresh b hin)⟩
      · rcases mem_append.1 hc with hin | hin
        · exact .inr ⟨c, mem_cons_of_mem a hin, hreach⟩
        · exact .inr ⟨a, mem_cons_self, .head (hfresh c hin) hreach⟩

/-- With fuel for the queue and for what can still be seen, the successors of what is seen are seen. -/
theorem next_mem_visit (hU : ∀ a, ∀ b ∈ next a, b ∈ U) (hfuel : queue.length + (U \ seen.toFinset).card ≤ fuel)
    (hclosed : ∀ a ∈ seen, a ∈ queue ∨ ∀ b ∈ next a, b ∈ seen) :
    (∀ a ∈ seen, a ∈ visit next fuel seen queue) ∧
      ∀ a ∈ visit next fuel seen queue, ∀ b ∈ next a, b ∈ visit next fuel seen queue := by
  induction fuel generalizing seen queue with
  | zero =>
    have hempty : queue = [] := length_eq_zero_iff.1 (by omega)
    subst hempty
    exact ⟨fun a ha => ha, fun a ha => (hclosed a ha).resolve_left (not_mem_nil)⟩
  | succ fuel ih =>
    cases queue with
    | nil => exact ⟨fun a ha => ha, fun a ha => (hclosed a ha).resolve_left (not_mem_nil)⟩
    | cons a queue =>
      rw [visit]
      have hfresh : ∀ b, b ∈ ((next a).filter fun b => b ∉ seen).dedup ↔ b ∈ next a ∧ b ∉ seen := by
        intro b
        rw [mem_dedup, mem_filter, decide_eq_true_eq]
      generalize hdef : ((next a).filter fun b => b ∉ seen).dedup = fresh at hfresh
      have hnodup : fresh.Nodup := hdef ▸ nodup_dedup _
      -- What is fresh is no longer to be seen.
      have hcard : (U \ (seen ++ fresh).toFinset).card + fresh.length = (U \ seen.toFinset).card := by
        have hsub : fresh.toFinset ⊆ U \ seen.toFinset := by
          intro b hb
          rw [mem_toFinset, hfresh] at hb
          rw [Finset.mem_sdiff, mem_toFinset]
          exact ⟨hU a b hb.1, hb.2⟩
        rw [toFinset_append, ← Finset.sup_eq_union, ← sdiff_sdiff_left, ← toFinset_card_of_nodup hnodup]
        exact Finset.card_sdiff_add_card_eq_card hsub
      have hlen : (queue ++ fresh).length + (U \ (seen ++ fresh).toFinset).card ≤ fuel := by
        rw [length_append]
        rw [length_cons] at hfuel
        omega
      obtain ⟨hseen, hnext⟩ := ih hlen fun b hb => by
        rcases mem_append.1 hb with hin | hin
        · rcases hclosed b hin with hq | hq
          · rcases mem_cons.1 hq with rfl | hq
            · refine .inr fun c hc => ?_
              by_cases hold : c ∈ seen
              · exact mem_append_left _ hold
              · exact mem_append_right _ ((hfresh c).2 ⟨hc, hold⟩)
            · exact .inl (mem_append_left _ hq)
          · exact .inr fun c hc => mem_append_left _ (hq c hc)
        · exact .inl (mem_append_right _ hin)
      exact ⟨fun b hb => hseen b (mem_append_left _ hb), hnext⟩

/-- **What `visit` sees.** -/
theorem mem_visit (hU : ∀ a, ∀ b ∈ next a, b ∈ U) {a : α} (hfuel : 1 + U.card ≤ fuel) :
    b ∈ visit next fuel [a] [a] ↔ Reaches next a b := by
  have hlen : [a].length + (U \ [a].toFinset).card ≤ fuel :=
    le_trans (Nat.add_le_add_left (Finset.card_le_card Finset.sdiff_subset) 1) hfuel
  obtain ⟨hseen, hnext⟩ := next_mem_visit hU hlen fun c hc => .inl hc
  constructor
  · intro hin
    rcases reaches_of_mem_visit hin with hin | ⟨c, hc, hreach⟩
    · obtain rfl := mem_singleton.1 hin
      exact .refl
    · obtain rfl := mem_singleton.1 hc
      exact hreach
  · intro hreach
    induction hreach with
    | refl => exact hseen a mem_cons_self
    | tail _ hstep ih => exact hnext _ ih _ hstep

/-! ### The search that skips -/

/-- **The search ends**, where what it can see is among finitely many. -/
theorem exists_search (hU : ∀ a, ∀ b ∈ next a, b ∈ U) (hqueue : ∀ a ∈ queue, a ∈ U)
    (hfuel : queue.length + ∑ a ∈ U \ seen.toFinset, (next a).length ≤ fuel) :
    ∃ l, search next fuel seen queue = some l := by
  induction fuel generalizing seen queue with
  | zero =>
    have hempty : queue = [] := length_eq_zero_iff.1 (by omega)
    exact ⟨seen, by rw [hempty, search]⟩
  | succ fuel ih =>
    cases queue with
    | nil => exact ⟨seen, by rw [search]⟩
    | cons a queue =>
      rw [length_cons] at hfuel
      have hrest : ∀ b ∈ queue, b ∈ U := fun b hb => hqueue b (mem_cons_of_mem a hb)
      rw [search]
      split_ifs with hseen
      · exact ih hrest (by omega)
      · refine ih (fun b hb => (mem_append.1 hb).elim (hrest b) (hU a b)) ?_
        -- The successors are paid for by the place that is new.
        have ha : a ∈ U \ seen.toFinset := by
          rw [Finset.mem_sdiff, mem_toFinset]
          exact ⟨hqueue a mem_cons_self, hseen⟩
        have hsum := Finset.add_sum_erase _ (fun b => (next b).length) ha
        have herase : U \ (seen ++ [a]).toFinset = (U \ seen.toFinset).erase a := by
          ext b
          simp only [Finset.mem_sdiff, mem_toFinset, mem_append, mem_singleton, Finset.mem_erase]
          tauto
        rw [herase, length_append]
        omega

/-- What is seen is kept, each once, with its successors, and it is reached. -/
theorem search_spec {seen l : List α} (h : search next fuel seen queue = some l) (hnodup : seen.Nodup)
    (hclosed : ∀ a ∈ seen, ∀ b ∈ next a, b ∈ seen ∨ b ∈ queue) :
    l.Nodup ∧ (∀ a ∈ seen ++ queue, a ∈ l) ∧ (∀ a ∈ l, ∀ b ∈ next a, b ∈ l) ∧
      ∀ b ∈ l, b ∈ seen ∨ ∃ a ∈ queue, Reaches next a b := by
  induction fuel generalizing seen queue with
  | zero =>
    cases queue with
    | nil =>
      cases h
      refine ⟨hnodup, fun a ha => by simpa using ha, fun a ha b hb => ?_, fun b hb => .inl hb⟩
      exact (hclosed a ha b hb).resolve_right not_mem_nil
    | cons a queue => cases h
  | succ fuel ih =>
    cases queue with
    | nil =>
      cases h
      refine ⟨hnodup, fun a ha => by simpa using ha, fun a ha b hb => ?_, fun b hb => .inl hb⟩
      exact (hclosed a ha b hb).resolve_right not_mem_nil
    | cons a queue =>
      rw [search] at h
      split_ifs at h with hseen
      · obtain ⟨hl, hkept, hnext, hreach⟩ := ih h hnodup fun b hb c hc => by
          rcases hclosed b hb c hc with hin | hin
          · exact .inl hin
          · rcases mem_cons.1 hin with rfl | hin
            · exact .inl hseen
            · exact .inr hin
        refine ⟨hl, fun b hb => ?_, hnext, fun b hb => ?_⟩
        · rcases mem_append.1 hb with hin | hin
          · exact hkept b (mem_append_left _ hin)
          · rcases mem_cons.1 hin with rfl | hin
            · exact hkept b (mem_append_left _ hseen)
            · exact hkept b (mem_append_right _ hin)
        · exact (hreach b hb).imp_right fun ⟨c, hc, hstep⟩ => ⟨c, mem_cons_of_mem a hc, hstep⟩
      · have hnodup' : (seen ++ [a]).Nodup := by
          rw [nodup_append]
          refine ⟨hnodup, nodup_singleton a, ?_⟩
          rintro b hb c hc rfl
          exact hseen (mem_singleton.1 hc ▸ hb)
        obtain ⟨hl, hkept, hnext, hreach⟩ := ih h hnodup' fun b hb c hc => by
          rcases mem_append.1 hb with hin | hin
          · rcases hclosed b hin c hc with hin | hin
            · exact .inl (mem_append_left _ hin)
            · rcases mem_cons.1 hin with rfl | hin
              · exact .inl (mem_append_right _ (mem_singleton_self c))
              · exact .inr (mem_append_left _ hin)
          · exact .inr (mem_append_right _ (mem_singleton.1 hin ▸ hc))
        refine ⟨hl, fun b hb => hkept b ?_, hnext, fun b hb => ?_⟩
        · simp only [mem_append, mem_cons] at hb ⊢
          tauto
        · rcases hreach b hb with hin | ⟨c, hc, hstep⟩
          · rcases mem_append.1 hin with hin | hin
            · exact .inl hin
            · exact .inr ⟨a, mem_cons_self, mem_singleton.1 hin ▸ .refl⟩
          · rcases mem_append.1 hc with hin | hin
            · exact .inr ⟨c, mem_cons_of_mem a hin, hstep⟩
            · exact .inr ⟨a, mem_cons_self, .head hin hstep⟩

/-- **What the search sees**: what is reached, each once. -/
theorem mem_search {a : α} (h : search next fuel [] [a] = some l) : l.Nodup ∧ ∀ b, b ∈ l ↔ Reaches next a b := by
  obtain ⟨hl, hkept, hnext, hreach⟩ := search_spec h nodup_nil fun b hb => absurd hb not_mem_nil
  refine ⟨hl, fun b => ⟨fun hb => ?_, fun hb => ?_⟩⟩
  · obtain ⟨c, hc, hstep⟩ := (hreach b hb).resolve_left not_mem_nil
    exact mem_singleton.1 hc ▸ hstep
  · induction hb with
    | refl => exact hkept a (mem_singleton_self a)
    | tail _ hstep ih => exact hnext _ ih _ hstep

end Worklist
