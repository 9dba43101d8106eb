import Mathlib.Tactic

/-!
# Intersections that start over

Lists are intersected one after the other, where an empty list of candidates is taken as none seen
yet: the next list is then taken whole.  So what comes out is not the intersection of all lists, but
that of the lists behind the last place where the candidates ran out.

* `meet`;
* `Block`, `Blocks`: lists after which the candidates have run out;
* `exists_blocks`.
-/

namespace RunningMeet

open List

variable {α : Type*}

/-- An element of all the lists. -/
def InAll (lists : List (List α)) (x : α) : Prop := ∀ l ∈ lists, x ∈ l

/-- Lists with no common element, whose shorter starts all have one. -/
structure Block (b : List (List α)) : Prop where
  ne_nil : b ≠ []
  disjoint : ∀ x, ¬ InAll b x
  start : ∀ l front, b = front ++ [l] → front ≠ [] → ∃ x, InAll front x

/-- Lists that fall into blocks. -/
def Blocks (lists : List (List α)) : Prop :=
  ∃ blocks : List (List (List α)), lists = blocks.flatten ∧ ∀ b ∈ blocks, Block b

theorem Blocks.nil : Blocks ([] : List (List α)) := ⟨[], rfl, by simp⟩

theorem Blocks.append {lists b : List (List α)} (h : Blocks lists) (hb : Block b) : Blocks (lists ++ b) := by
  obtain ⟨blocks, rfl, hblocks⟩ := h
  refine ⟨blocks ++ [b], by simp, ?_⟩
  intro b' hb'
  rcases mem_append.1 hb' with hb' | hb'
  · exact hblocks b' hb'
  · rw [mem_singleton.1 hb']
    exact hb

variable {lists : List (List α)}

/-- Blocks are not empty unless there are none, and then some of the lists have no common
element. -/
theorem Blocks.disjoint (h : Blocks lists) (hne : lists ≠ []) (x : α) : ¬ InAll lists x := by
  obtain ⟨blocks, rfl, hblocks⟩ := h
  intro hx
  cases blocks with
  | nil => exact hne rfl
  | cons b blocks =>
    refine (hblocks b mem_cons_self).disjoint x fun l hl => hx l ?_
    exact mem_flatten.2 ⟨b, mem_cons_self, hl⟩

variable [DecidableEq α]

/-- One list more; an empty list of candidates counts as none seen yet. -/
def step (candidates l : List α) : List α := if candidates = [] then l else candidates.filter (· ∈ l)

/-- The running intersection. -/
def meet (lists : List (List α)) : List α := lists.foldl step []

theorem meet_append_singleton (lists : List (List α)) (l : List α) : meet (lists ++ [l]) = step (meet lists) l := by
  unfold meet
  rw [foldl_append]
  rfl

/-- Lists whose start has a common element are intersected in earnest. -/
theorem mem_meet (hne : lists ≠ [])
    (hstart : ∀ l front, lists = front ++ [l] → front ≠ [] → ∃ x, InAll front x) (x : α) :
    x ∈ meet lists ↔ InAll lists x := by
  induction lists using reverseRecOn generalizing x with
  | nil => exact absurd rfl hne
  | append_singleton lists l ih =>
    rw [meet_append_singleton]
    unfold step
    by_cases hlists : lists = []
    · subst hlists
      simp [meet, InAll]
    · obtain ⟨y, hy⟩ := hstart l lists rfl hlists
      have hmem : ∀ z, z ∈ meet lists ↔ InAll lists z := by
        refine ih hlists fun l' front hfront _ => ⟨y, fun l'' hl'' => hy l'' ?_⟩
        rw [hfront]
        exact mem_append_left _ hl''
      have hsome : meet lists ≠ [] := ne_nil_of_mem ((hmem y).2 hy)
      rw [if_neg hsome, mem_filter, hmem]
      simp only [decide_eq_true_eq, InAll, mem_append, mem_singleton]
      constructor
      · rintro ⟨hall, hl⟩ l' (hl' | rfl)
        · exact hall l' hl'
        · exact hl
      · intro hall
        exact ⟨fun l' hl' => hall l' (.inl hl'), hall l (.inr rfl)⟩

theorem nodup_meet (h : ∀ l ∈ lists, l.Nodup) : (meet lists).Nodup := by
  induction lists using reverseRecOn with
  | nil => exact nodup_nil
  | append_singleton lists l ih =>
    rw [meet_append_singleton]
    unfold step
    split_ifs
    · exact h l (by simp)
    · exact (ih fun l' hl' => h l' (mem_append_left _ hl')).filter _

theorem foldl_step_nil_append {lists lists' : List (List α)} (h : meet lists = []) :
    meet (lists ++ lists') = meet lists' := by
  unfold meet at h ⊢
  rw [foldl_append, h]

/-- Behind a block no candidate is left. -/
theorem Block.meet_eq {b : List (List α)} (h : Block b) : meet b = [] := by
  rw [eq_nil_iff_forall_not_mem]
  intro x hx
  exact h.disjoint x ((mem_meet h.ne_nil h.start x).1 hx)

theorem Blocks.meet_eq (h : Blocks lists) : meet lists = [] := by
  obtain ⟨blocks, rfl, hblocks⟩ := h
  induction blocks with
  | nil => rfl
  | cons b blocks ih =>
    rw [flatten_cons, foldl_step_nil_append (hblocks b mem_cons_self).meet_eq]
    exact ih fun b' hb' => hblocks b' (mem_cons_of_mem b hb')

/-- An element of all lists behind some blocks is in the running intersection. -/
theorem mem_meet_of_blocks {front back : List (List α)} (h : Blocks front) (hne : back ≠ [])
    {x : α} (hx : InAll back x) : x ∈ meet (front ++ back) := by
  rw [foldl_step_nil_append h.meet_eq, mem_meet hne ?_]
  · exact hx
  · rintro l start rfl -
    exact ⟨x, fun l' hl' => hx l' (mem_append_left _ hl')⟩

/-- **The running intersection** is that of the lists behind some blocks. -/
theorem exists_blocks (lists : List (List α)) : ∃ front back, lists = front ++ back ∧ Blocks front ∧
      (back = [] → meet lists = []) ∧ (back ≠ [] → meet lists ≠ [] ∧ ∀ x, x ∈ meet lists ↔ InAll back x) := by
  induction lists using reverseRecOn with
  | nil => exact ⟨[], [], rfl, .nil, fun _ => rfl, fun h => absurd rfl h⟩
  | append_singleton lists l ih =>
    obtain ⟨front, back, rfl, hfront, hnil, hne⟩ := ih
    rw [meet_append_singleton]
    unfold step
    by_cases hback : back = []
    · -- The candidates have run out: the list is taken whole.
      subst hback
      rw [if_pos (hnil rfl), append_nil]
      by_cases hl : l = []
      · refine ⟨front ++ [l], [], by simp, hfront.append ?_, fun _ => hl, fun h => absurd rfl h⟩
        refine ⟨cons_ne_nil _ _, fun x hx => ?_, fun l' start hstart hne' => ?_⟩
        · have := hx l mem_cons_self
          rw [hl] at this
          cases this
        · have hlen := congrArg List.length hstart
          simp only [length_append, length_cons, length_nil] at hlen
          exact absurd (length_eq_zero_iff.1 (by omega)) hne'
      · exact ⟨front, [l], rfl, hfront, fun h => absurd h (cons_ne_nil _ _), fun _ => ⟨hl, fun x => by simp [InAll]⟩⟩
    · obtain ⟨hsome, hmem⟩ := hne hback
      have hmem' : ∀ x, x ∈ (meet (front ++ back)).filter (· ∈ l) ↔ InAll (back ++ [l]) x := by
        intro x
        rw [mem_filter, hmem]
        simp only [decide_eq_true_eq, InAll, mem_append, mem_singleton]
        constructor
        · rintro ⟨hall, hl⟩ l' (hl' | rfl)
          · exact hall l' hl'
          · exact hl
        · intro hall
          exact ⟨fun l' hl' => hall l' (.inl hl'), hall l (.inr rfl)⟩
      rw [if_neg hsome]
      by_cases hout : (meet (front ++ back)).filter (· ∈ l) = []
      · -- They run out here: the lists since the last block are a block.
        refine ⟨front ++ (back ++ [l]), [], by simp, hfront.append ?_, fun _ => hout,
          fun h => absurd rfl h⟩
        refine ⟨by simp, fun x hx => ?_, fun l' start hstart _ => ?_⟩
        · have := (hmem' x).2 hx
          rw [hout] at this
          cases this
        · obtain ⟨rfl, -⟩ := append_inj' hstart rfl
          obtain ⟨y, hy⟩ := exists_mem_of_ne_nil _ hsome
          exact ⟨y, (hmem y).1 hy⟩
      · exact ⟨front, back ++ [l], by simp, hfront, fun h => absurd h (by simp),
          fun _ => ⟨hout, hmem'⟩⟩

end RunningMeet
