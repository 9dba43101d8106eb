import Mathlib.Data.List.Basic
import Mathlib.Logic.Relation

/-!
# Passes over a list

A list after a pass: each element is dropped or changed, and the order is kept.

* `Passes drop change l l'`, `of_filterMap`;
* `source`, `fate`: where an element comes from, and what becomes of it;
* `pairwise`: a relation between two elements that survives their changes;
* `filterMap_both`, `append`, `find?_both`, `countP_eq`, `replaceFirst`.
-/

namespace WildAgentOs.ListPass

open List

/-- The first element that a test selects is replaced. -/
def replaceFirst {α : Type*} (p : α → Bool) (updated : α) : List α → List α
  | [] => []
  | a :: l => if p a then updated :: l else a :: replaceFirst p updated l

variable {α : Type*}

theorem mem_replaceFirst_of_find? {p : α → Bool} {current updated : α} {l : List α}
    (h : l.find? p = some current) : updated ∈ replaceFirst p updated l := by
  induction l with
  | nil => cases h
  | cons a l ih =>
    unfold replaceFirst
    cases ha : p a with
    | true => exact mem_cons_self
    | false =>
      rw [find?_cons_of_neg (by simp [ha])] at h
      exact mem_cons_of_mem _ (ih h)

/-- Where keys are distinct, the key of the replaced element is left to the new one alone. -/
theorem mem_replaceFirst {α κ : Type*} {key : α → κ} {p : α → Bool} {current updated : α}
    {l : List α} (hfind : l.find? p = some current) (hnodup : (l.map key).Nodup) {a : α}
    (ha : a ∈ replaceFirst p updated l) : a = updated ∨ (a ∈ l ∧ key a ≠ key current) := by
  induction l with
  | nil => cases hfind
  | cons b l ih =>
    obtain ⟨hhead, hnodup⟩ := nodup_cons.1 hnodup
    unfold replaceFirst at ha
    cases hb : p b with
    | true =>
      rw [find?_cons_of_pos hb] at hfind
      cases hfind
      rw [if_pos hb] at ha
      refine (mem_cons.1 ha).imp_right fun hmem => ⟨mem_cons_of_mem _ hmem, ?_⟩
      exact fun heq => hhead (heq ▸ mem_map_of_mem hmem)
    | false =>
      rw [find?_cons_of_neg (by simp [hb])] at hfind
      rw [if_neg (by simp [hb])] at ha
      rcases mem_cons.1 ha with rfl | hmem
      · refine .inr ⟨mem_cons_self, fun heq => hhead ?_⟩
        rw [heq]
        exact mem_map_of_mem (mem_of_find?_eq_some hfind)
      · refine (ih hfind hnodup hmem).imp_right fun h => ⟨mem_cons_of_mem _ h.1, h.2⟩

/-- What is done to the elements of a part of the list. -/
theorem filter_filterMap_comm {f : α → Option α} {q : α → Bool} (hf : ∀ a b, f a = some b → q b = q a)
    (l : List α) : (l.filterMap f).filter q = (l.filter q).filterMap f := by
  induction l with
  | nil => rfl
  | cons a l ih =>
    cases hfa : f a with
    | none =>
      rw [filterMap_cons_none hfa, ih, filter_cons]
      split_ifs
      · rw [filterMap_cons_none hfa]
      · rfl
    | some b =>
      rw [filterMap_cons_some hfa, filter_cons, filter_cons, hf a b hfa, ih]
      split_ifs
      · rw [filterMap_cons_some hfa]
      · rfl

/-- A test that selects within a part of the list alone. -/
theorem find?_filter_of_imp {p q : α → Bool} (h : ∀ a, p a = true → q a = true)
    (l : List α) : (l.filter q).find? p = l.find? p := by
  rw [find?_filter]
  congr 1
  funext a
  cases hp : p a with
  | false => simp
  | true => simp [h a hp]

variable {updated : α}

/-- A part of the list that neither has the element nor gets it. -/
theorem filter_replaceFirst_of_neg {p q : α → Bool} (hp : ∀ a, p a = true → q a = false)
    (hu : q updated = false) (l : List α) : (replaceFirst p updated l).filter q = l.filter q := by
  induction l with
  | nil => rfl
  | cons a l ih =>
    unfold replaceFirst
    cases ha : p a with
    | true => simp [hu, hp a ha]
    | false => simp only [Bool.false_eq_true, if_false, filter_cons, ih]

/-- A part of the list that has the element. -/
theorem filter_replaceFirst_of_pos {p q : α → Bool} (hp : ∀ a, p a = true → q a = true) (hu : q updated = true)
    (l : List α) : (replaceFirst p updated l).filter q = replaceFirst p updated (l.filter q) := by
  induction l with
  | nil => rfl
  | cons a l ih =>
    cases ha : p a with
    | true => simp [replaceFirst, ha, hu, hp a ha]
    | false => cases hq : q a <;> simp [replaceFirst, ha, hq, ih]

variable {α : Type*} {drop drop' : α → Prop} {change change' : α → α → Prop}

inductive Passes (drop : α → Prop) (change : α → α → Prop) : List α → List α → Prop
  | nil : Passes drop change [] []
  | lose {a : α} {l l' : List α} : drop a → Passes drop change l l' → Passes drop change (a :: l) l'
  | keep {a a' : α} {l l' : List α} : change a a' → Passes drop change l l' → Passes drop change (a :: l) (a' :: l')

namespace Passes

theorem refl (h : ∀ a, change a a) (l : List α) : Passes drop change l l := by
  induction l with
  | nil => exact nil
  | cons a l ih => exact keep (h a) ih

variable {l l' : List α}

theorem mono (hpass : Passes drop change l l') (hd : ∀ a, drop a → drop' a)
    (hc : ∀ a a', change a a' → change' a a') : Passes drop' change' l l' := by
  induction hpass with
  | nil => exact nil
  | lose ha _ ih => exact lose (hd _ ha) ih
  | keep ha _ ih => exact keep (hc _ _ ha) ih

/-- A pass that drops where `f` gives nothing. -/
theorem of_filterMap (f : α → Option α) (hd : ∀ a ∈ l, f a = none → drop a)
    (hc : ∀ a ∈ l, ∀ a', f a = some a' → change a a') : Passes drop change l (l.filterMap f) := by
  induction l with
  | nil => exact nil
  | cons a l ih =>
    have htail := ih (fun b hb => hd b (mem_cons_of_mem _ hb))
      fun b hb => hc b (mem_cons_of_mem _ hb)
    cases hfa : f a with
    | none =>
      rw [filterMap_cons_none hfa]
      exact lose (hd a mem_cons_self hfa) htail
    | some a' =>
      rw [filterMap_cons_some hfa]
      exact keep (hc a mem_cons_self a' hfa) htail

/-- Every element after the pass has a source. -/
theorem source (hpass : Passes drop change l l') {a' : α} (h : a' ∈ l') : ∃ a ∈ l, change a a' := by
  induction hpass with
  | nil => cases h
  | lose _ _ ih =>
    obtain ⟨a, ha, hchange⟩ := ih h
    exact ⟨a, mem_cons_of_mem _ ha, hchange⟩
  | keep hb _ ih =>
    rcases mem_cons.1 h with rfl | h
    · exact ⟨_, mem_cons_self, hb⟩
    · obtain ⟨a, ha, hchange⟩ := ih h
      exact ⟨a, mem_cons_of_mem _ ha, hchange⟩

/-- Every element before the pass is dropped or changed. -/
theorem fate (hpass : Passes drop change l l') {a : α} (h : a ∈ l) : drop a ∨ ∃ a' ∈ l', change a a' := by
  induction hpass with
  | nil => cases h
  | lose hb _ ih =>
    rcases mem_cons.1 h with rfl | h
    · exact .inl hb
    · exact ih h
  | keep hb _ ih =>
    rcases mem_cons.1 h with rfl | h
    · exact .inr ⟨_, mem_cons_self, hb⟩
    · refine (ih h).imp_right ?_
      rintro ⟨a', ha', hchange⟩
      exact ⟨a', mem_cons_of_mem _ ha', hchange⟩

theorem pairwise (hpass : Passes drop change l l') {R : α → α → Prop} (h : l.Pairwise R)
    (hR : ∀ a ∈ l, ∀ b ∈ l, ∀ a' b', change a a' → change b b' → R a b → R a' b') : l'.Pairwise R := by
  induction hpass with
  | nil => exact .nil
  | lose _ _ ih =>
    refine ih (pairwise_cons.1 h).2 fun a ha b hb => ?_
    exact hR a (mem_cons_of_mem _ ha) b (mem_cons_of_mem _ hb)
  | @keep a a' l l' ha htail ih =>
    obtain ⟨hhead, hrest⟩ := pairwise_cons.1 h
    refine pairwise_cons.2 ⟨fun b' hb' => ?_, ih hrest fun b hb c hc => ?_⟩
    · obtain ⟨b, hb, hchange⟩ := source htail hb'
      exact hR a mem_cons_self b (mem_cons_of_mem _ hb) a' b' ha hchange (hhead b hb)
    · exact hR b (mem_cons_of_mem _ hb) c (mem_cons_of_mem _ hc)

variable {C : α → α → Prop} {D : α → Prop}

theorem trans {l'' : List α} (h : Passes drop change l l')
    (h' : Passes drop' change' l' l'') (hd : ∀ a, drop a → D a) (hd' : ∀ a a', change a a' → drop' a' → D a)
    (hc : ∀ a a' a'', change a a' → change' a' a'' → C a a'') : Passes D C l l'' := by
  induction h generalizing l'' with
  | nil =>
    cases h'
    exact nil
  | lose ha _ ih => exact lose (hd _ ha) (ih h')
  | keep ha _ ih =>
    cases h' with
    | lose ha' htail => exact lose (hd' _ _ ha ha') (ih htail)
    | keep ha' htail => exact keep (hc _ _ _ ha ha') (ih htail)

theorem append {l₁ l₁' l₂ l₂' : List α} (h₁ : Passes drop change l₁ l₁')
    (h₂ : Passes drop change l₂ l₂') : Passes drop change (l₁ ++ l₂) (l₁' ++ l₂') := by
  induction h₁ with
  | nil => exact h₂
  | lose ha _ ih => exact lose ha ih
  | keep ha _ ih => exact keep ha ih

/-- The same is done to the elements of both lists. -/
theorem filterMap_both {f g : α → Option α} (h : Passes drop change l l') (hd : ∀ a, drop a → ∀ b, f a = some b → D b)
    (hc : ∀ a a', change a a' → (f a = none ∧ g a' = none) ∨ ∃ b b', f a = some b ∧ g a' = some b' ∧ C b b') :
    Passes D C (l.filterMap f) (l'.filterMap g) := by
  induction h with
  | nil => exact nil
  | @lose a _ _ ha _ ih =>
    cases hfa : f a with
    | none => rwa [filterMap_cons_none hfa]
    | some b =>
      rw [filterMap_cons_some hfa]
      exact lose (hd a ha b hfa) ih
  | keep ha _ ih =>
    obtain ⟨hfa, hga⟩ | ⟨b, b', hfa, hga, hb⟩ := hc _ _ ha
    · rwa [filterMap_cons_none hfa, filterMap_cons_none hga]
    · rw [filterMap_cons_some hfa, filterMap_cons_some hga]
      exact keep hb ih

theorem filter_both {p q : α → Bool} (h : Passes drop change l l') (hc : ∀ a a', change a a' → q a' = p a) :
    Passes drop change (l.filter p) (l'.filter q) := by
  induction h with
  | nil => exact nil
  | @lose a _ _ ha _ ih =>
    rw [filter_cons]
    split_ifs
    · exact lose ha ih
    · exact ih
  | keep ha _ ih =>
    rw [filter_cons, filter_cons, hc _ _ ha]
    split_ifs
    · exact keep ha ih
    · exact ih

theorem countP_eq {p q : α → Bool} (h : Passes drop change l l') (hd : ∀ a, drop a → p a = false)
    (hc : ∀ a a', change a a' → q a' = p a) : l'.countP q = l.countP p := by
  induction h with
  | nil => rfl
  | lose ha _ ih => rw [countP_cons_of_neg (by simp [hd _ ha]), ih]
  | keep ha _ ih => rw [countP_cons, countP_cons, ih, hc _ _ ha]

theorem length_eq (h : Passes drop change l l') (hd : ∀ a, ¬drop a) : l'.length = l.length := by
  induction h with
  | nil => rfl
  | lose ha => exact absurd ha (hd _)
  | keep _ _ ih => rw [length_cons, length_cons, ih]

/-- Looking for an element in both lists, of which the first has one at most: it is in neither, or
it was dropped, or it is in both, where it can be replaced. -/
theorem find?_both {p q : α → Bool} (h : Passes drop change l l')
    (hone : l.Pairwise fun a b => p a = true → p b = false)
    (hc : ∀ a a', change a a' → q a' = p a) :
    (l.find? p = none ∧ l'.find? q = none) ∨
    (∃ a, l.find? p = some a ∧ drop a ∧ l'.find? q = none) ∨
    ∃ a a', l.find? p = some a ∧ l'.find? q = some a' ∧ change a a' ∧
      ∀ u u', change u u' → Passes drop change (replaceFirst p u l) (replaceFirst q u' l') := by
  induction h with
  | nil => exact .inl ⟨rfl, rfl⟩
  | @lose a l l' ha htail ih =>
    obtain ⟨hhead, hrest⟩ := pairwise_cons.1 hone
    cases hpa : p a with
    | true =>
      -- No other element is selected, so none of those that are kept.
      have hnone : l'.find? q = none := by
        refine find?_eq_none.2 fun b' hb' hq => ?_
        obtain ⟨b, hb, hchange⟩ := htail.source hb'
        rw [hc b b' hchange, hhead b hb hpa] at hq
        cases hq
      exact .inr (.inl ⟨a, find?_cons_of_pos hpa, ha, hnone⟩)
    | false =>
      have hfind : (a :: l).find? p = l.find? p := find?_cons_of_neg (by simp [hpa])
      have hreplace : ∀ u, replaceFirst p u (a :: l) = a :: replaceFirst p u l := by
        intro u
        simp [replaceFirst, hpa]
      rw [hfind]
      obtain hnone | hdropped | ⟨b, b', hb, hb', hchange, hpass⟩ := ih hrest
      · exact .inl hnone
      · exact .inr (.inl hdropped)
      · refine .inr (.inr ⟨b, b', hb, hb', hchange, fun u u' hu => ?_⟩)
        rw [hreplace]
        exact lose ha (hpass u u' hu)
  | @keep a a' l l' ha htail ih =>
    have hqa := hc a a' ha
    cases hpa : p a with
    | true =>
      rw [hpa] at hqa
      refine .inr (.inr ⟨a, a', find?_cons_of_pos hpa, find?_cons_of_pos hqa, ha, ?_⟩)
      intro u u' hu
      simp only [replaceFirst, hpa, hqa, if_true]
      exact keep hu htail
    | false =>
      rw [hpa] at hqa
      rw [find?_cons_of_neg (by simp [hpa]), find?_cons_of_neg (by simp [hqa])]
      obtain hnone | hdropped | ⟨b, b', hb, hb', hchange, hpass⟩ := ih (pairwise_cons.1 hone).2
      · exact .inl hnone
      · exact .inr (.inl hdropped)
      · refine .inr (.inr ⟨b, b', hb, hb', hchange, fun u u' hu => ?_⟩)
        simp only [replaceFirst, hpa, hqa, Bool.false_eq_true, if_false]
        exact keep ha (hpass u u' hu)

end Passes

end WildAgentOs.ListPass
