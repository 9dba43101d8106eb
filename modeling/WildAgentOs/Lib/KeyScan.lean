import Mathlib.Data.List.Lex
import Mathlib.Data.List.Sort
import Mathlib.Data.String.Basic

/-!
# Scans in the order of keys

Rows in strict order of their keys: the range that starts at a bound, as long as the keys satisfy a test,
and the first rows of a list.  Strings that start with a prefix are such a range of the strings.

* `takeWhile_dropWhile`, `mem_take_iff`, `head?_mergeSort`, `getLast?_mergeSort`, `le_of_mem_take_mergeSort`;
* `prefix_of_between`, `stringScan`.
-/

namespace KeyScan

open List

variable {α β κ : Type*} [LinearOrder κ] {n : ℕ}

section Range

variable {key : β → κ} {rows : List β}

/-- **The range**: the keys that satisfy the test are at least the bound, and go on without a gap. -/
theorem takeWhile_dropWhile {test : κ → Bool} {bound : κ}
    (hrows : rows.Pairwise fun a b => key a < key b) (hbound : ∀ k, test k = true → bound ≤ k)
    (hgap : ∀ k k', bound ≤ k → k ≤ k' → test k' = true → test k = true) :
    (rows.dropWhile fun row => decide (key row < bound)).takeWhile (fun row => test (key row)) =
      rows.filter fun row => test (key row) := by
  induction rows with
  | nil => rfl
  | cons row rows ih =>
    obtain ⟨hfirst, hrows⟩ := pairwise_cons.1 hrows
    by_cases hbefore : key row < bound
    · have htest : ¬test (key row) = true := fun h => not_lt.2 (hbound _ h) hbefore
      rw [dropWhile_cons_of_pos (by simpa using hbefore), filter_cons, if_neg htest, ih hrows]
    · rw [dropWhile_cons_of_neg (by simpa using hbefore)]
      rw [not_lt] at hbefore
      by_cases htest : test (key row) = true
      · rw [takeWhile_cons, if_pos htest, filter_cons, if_pos htest, ← ih hrows]
        -- The rows that follow are all within the range.
        have hall : rows.dropWhile (fun row => decide (key row < bound)) = rows := by
          cases rows with
          | nil => rfl
          | cons next rows =>
            refine dropWhile_cons_of_neg ?_
            have := hfirst next mem_cons_self
            simpa using hbefore.trans this.le
        rw [hall]
      · rw [takeWhile_cons, if_neg htest, filter_cons, if_neg htest]
        refine (filter_eq_nil_iff.2 fun later hlater hlaterTest => htest ?_).symm
        exact hgap _ _ hbefore (hfirst later hlater).le hlaterTest

/-- **The first rows** are those that few rows come before. -/
theorem mem_take_iff (hrows : rows.Pairwise fun a b => key a < key b) {row : β} :
    row ∈ rows.take n ↔ row ∈ rows ∧ (rows.filter fun other => decide (key other < key row)).length < n := by
  induction rows generalizing n with
  | nil => simp
  | cons first rows ih =>
    obtain ⟨hfirst, hrows⟩ := pairwise_cons.1 hrows
    cases n with
    | zero => simp
    | succ n =>
      rw [take_succ_cons, mem_cons, mem_cons, ih hrows]
      constructor
      · rintro (rfl | ⟨hmem, hcount⟩)
        · refine ⟨.inl rfl, ?_⟩
          rw [filter_cons_of_neg (by simp), filter_eq_nil_iff.2]
          · exact Nat.succ_pos n
          · intro other hother
            simpa using (hfirst other hother).le
        · refine ⟨.inr hmem, ?_⟩
          rw [filter_cons_of_pos (by simpa using hfirst row hmem), length_cons]
          exact Nat.succ_lt_succ hcount
      · rintro ⟨rfl | hmem, hcount⟩
        · exact .inl rfl
        · rw [filter_cons_of_pos (by simpa using hfirst row hmem), length_cons] at hcount
          exact .inr ⟨hmem, Nat.lt_of_succ_lt_succ hcount⟩

end Range

/-! ### The largest element -/

variable {f : β → κ} {l : List β} {x : β}

/-- **The first of a list in falling order** is its largest element. -/
theorem head?_eq_some_iff (hsorted : l.Pairwise fun a b => f b ≤ f a)
    (hdistinct : ∀ y ∈ l, f y = f x → y = x) : l.head? = some x ↔ x ∈ l ∧ ∀ y ∈ l, y ≠ x → f y < f x := by
  cases l with
  | nil => simp
  | cons first rest =>
    obtain ⟨hfirst, -⟩ := pairwise_cons.1 hsorted
    rw [head?_cons, Option.some_inj]
    constructor
    · rintro rfl
      refine ⟨mem_cons_self, fun y hy hne => ?_⟩
      rcases mem_cons.1 hy with heq | hrest
      · exact absurd heq hne
      · exact lt_of_le_of_ne (hfirst y hrest) fun heq => hne (hdistinct y hy heq)
    · rintro ⟨hin, hlargest⟩
      by_contra hne
      have hlt := hlargest first mem_cons_self hne
      rcases mem_cons.1 hin with heq | hrest
      · exact hne heq.symm
      · exact absurd (hfirst x hrest) (not_le.2 hlt)

theorem falling_mergeSort (f : β → κ) (l : List β) :
    (l.mergeSort fun a b => decide (f b ≤ f a)).Pairwise fun a b => f b ≤ f a := by
  have hsorted : (l.mergeSort fun a b => decide (f b ≤ f a)).Pairwise
      fun a b => decide (f b ≤ f a) = true := by
    refine pairwise_mergeSort (fun a b c hab hbc => ?_) (fun a b => ?_) _
    · simp only [decide_eq_true_eq] at *
      exact hbc.trans hab
    · simp only [Bool.or_eq_true, decide_eq_true_eq]
      exact le_total _ _
  exact hsorted.imp fun h => of_decide_eq_true h

/-- The first after a sort in falling order. -/
theorem head?_mergeSort (hdistinct : ∀ y ∈ l, f y = f x → y = x) :
    (l.mergeSort fun a b => decide (f b ≤ f a)).head? = some x ↔ x ∈ l ∧ ∀ y ∈ l, y ≠ x → f y < f x := by
  rw [head?_eq_some_iff (f := f) (falling_mergeSort f l)]
  · simp only [mem_mergeSort]
  · simpa only [mem_mergeSort] using hdistinct

/-- **The largest elements**: what a sort in falling order leaves after the first ones is not larger. -/
theorem le_of_mem_take_mergeSort {x y : β} (hx : x ∈ (l.mergeSort fun a b => decide (f b ≤ f a)).take n)
    (hy : y ∈ l) (hout : y ∉ (l.mergeSort fun a b => decide (f b ≤ f a)).take n) : f y ≤ f x := by
  have hfalling := falling_mergeSort f l
  replace hy : y ∈ l.mergeSort fun a b => decide (f b ≤ f a) := mem_mergeSort.2 hy
  rw [← take_append_drop n (l.mergeSort fun a b => decide (f b ≤ f a))] at hy hfalling
  have hlater := (mem_append.1 hy).resolve_left hout
  exact (pairwise_append.1 hfalling).2.2 x hx y hlater

/-- The last after a sort in rising order. -/
theorem getLast?_mergeSort (hdistinct : ∀ y ∈ l, f y = f x → y = x) :
    (l.mergeSort fun a b => decide (f a ≤ f b)).getLast? = some x ↔ x ∈ l ∧ ∀ y ∈ l, y ≠ x → f y < f x := by
  have hsorted : (l.mergeSort fun a b => decide (f a ≤ f b)).Pairwise
      fun a b => decide (f a ≤ f b) = true := by
    refine pairwise_mergeSort (fun a b c hab hbc => ?_) (fun a b => ?_) _
    · simp only [decide_eq_true_eq] at *
      exact hab.trans hbc
    · simp only [Bool.or_eq_true, decide_eq_true_eq]
      exact le_total _ _
  have hrising := hsorted.imp fun h => of_decide_eq_true h
  rw [← head?_reverse, head?_eq_some_iff (f := f)]
  · simp only [mem_reverse, mem_mergeSort]
  · exact pairwise_reverse.2 hrising
  · simpa only [mem_reverse, mem_mergeSort] using hdistinct

/-! ### Strings -/

theorem cons_le_cons_iff [LinearOrder α] {a b : α} {l l' : List α} : a :: l ≤ b :: l' ↔ a < b ∨ a = b ∧ l ≤ l' := by
  rw [le_iff_lt_or_eq, le_iff_lt_or_eq]
  constructor
  · rintro (hlt | heq)
    · cases hlt with
      | cons hlt => exact .inr ⟨rfl, .inl hlt⟩
      | rel hlt => exact .inl hlt
    · obtain ⟨rfl, rfl⟩ := cons.inj heq
      exact .inr ⟨rfl, .inr rfl⟩
  · rintro (hlt | ⟨rfl, hlt | rfl⟩)
    · exact .inl (.rel hlt)
    · exact .inl (.cons hlt)
    · exact .inr rfl

theorem le_of_isPrefixed [LinearOrder α] {pre l : List α} (h : pre <+: l) : pre ≤ l := by
  obtain ⟨rest, rfl⟩ := h
  induction pre with
  | nil =>
    cases rest with
    | nil => exact le_rfl
    | cons a rest => exact le_of_lt .nil
  | cons a pre ih => exact cons_le_cons a ih

/-- Between a prefix and a list that starts with it, all lists start with it. -/
theorem prefix_of_between [LinearOrder α] {pre l l' : List α} (hpre : pre ≤ l) (hle : l ≤ l')
    (h : pre <+: l') : pre <+: l := by
  induction pre generalizing l l' with
  | nil => exact nil_prefix
  | cons a pre ih =>
    obtain ⟨rest, rfl⟩ := h
    cases l with
    | nil => exact absurd hpre (not_le.2 .nil)
    | cons b l =>
      rw [cons_append, cons_le_cons_iff] at hle
      rw [cons_le_cons_iff] at hpre
      rcases hpre with hlt | ⟨rfl, hpre⟩
      · rcases hle with hlt' | ⟨rfl, -⟩
        · exact absurd (hlt.trans hlt') (lt_irrefl _)
        · exact absurd hlt (lt_irrefl _)
      · rcases hle with hlt' | ⟨-, hle⟩
        · exact absurd hlt' (lt_irrefl _)
        · exact (prefix_cons_inj a).2 (ih hpre hle (prefix_append pre rest))

def startsWith (pre s : String) : Bool := pre.toList.isPrefixOf s.toList

theorem startsWith_iff {pre s : String} : startsWith pre s = true ↔ pre.toList <+: s.toList := by
  unfold startsWith
  rw [ isPrefixOf_iff_prefix]

/-- **The strings that start with a prefix** are the range from the prefix on. -/
theorem stringScan {key : β → String} {rows : List β} (pre : String) (hrows : rows.Pairwise fun a b => key a < key b) :
    (rows.dropWhile fun row => decide (key row < pre)).takeWhile (fun row => startsWith pre (key row)) =
      rows.filter fun row => startsWith pre (key row) := by
  refine takeWhile_dropWhile hrows (fun k h => ?_) (fun k k' hbound hle h => ?_)
  · exact String.le_iff_toList_le.2 (le_of_isPrefixed (startsWith_iff.1 h))
  · exact startsWith_iff.2 (prefix_of_between (String.le_iff_toList_le.1 hbound)
      (String.le_iff_toList_le.1 hle) (startsWith_iff.1 h))

end KeyScan
