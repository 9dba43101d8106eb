import Mathlib.Data.List.Infix
import Mathlib.Tactic

/-!
# Redaction of texts

Words are cut out of a text one after the other; what is left of it are pieces.  A word may be meant that no pass cuts
out, such as one in another spelling: it stays exactly if it meets none of the words that the passes look for.

* `At`, `Meet`, `Cut`, `Bare`, `bare_cut`, `bare_cuts`.
-/

namespace Redaction

open List

variable {α : Type*}

/-- A word stands in a text at a place. -/
def At (w s : List α) (i : ℕ) : Prop := w <+: s.drop i

/-- Two stretches, each by its start and its length, share a place. -/
def Meet (i m j n : ℕ) : Prop := i < j + n ∧ j < i + m

/-- The pieces of a text between occurrences of a word. -/
inductive Cut (p : List α) : List α → List (List α) → Prop
  | last {s : List α} : ¬p <:+: s → Cut p s [s]
  | cons {g s : List α} {pieces : List (List α)} : ¬p <:+: g → Cut p s pieces → Cut p (g ++ (p ++ s)) (g :: pieces)

/-- A pattern is cut out of all pieces. -/
def CutAll (p : List α) (pieces pieces' : List (List α)) : Prop :=
  ∃ parts, List.Forall₂ (Cut p) pieces parts ∧ pieces' = parts.flatten

/-- Patterns are cut out one after the other. -/
def Cuts : List (List α) → List (List α) → List (List α) → Prop
  | [], pieces, pieces' => pieces' = pieces
  | p :: ps, pieces, pieces' => ∃ between, CutAll p pieces between ∧ Cuts ps between pieces'

/-- A text has a word that meets none of the patterns. -/
def Bare (word : List α → Prop) (patterns : List (List α)) (s : List α) : Prop :=
  ∃ w i, word w ∧ At w s i ∧ ∀ p ∈ patterns, ∀ j, At p s j → ¬Meet i w.length j p.length

/-- In no text does a pattern reach from a word to a pattern that the word does not meet. -/
def Cohesive (word : List α → Prop) (patterns : List (List α)) : Prop :=
  ∀ ⦃w p q s : List α⦄ ⦃i j k : ℕ⦄, word w → p ∈ patterns → q ∈ patterns → At w s i → At p s j → At q s k →
    Meet i w.length j p.length → Meet j p.length k q.length → Meet i w.length k q.length

section
variable {w p s t g : List α} {i : ℕ}

theorem At.le (h : At w s i) (hw : w ≠ []) : i + w.length ≤ s.length := by
  have hle := h.length_le
  have hpos := length_pos_of_ne_nil hw
  rw [length_drop] at hle
  omega

theorem At.isInfix (h : At w s i) : w <:+: s := List.IsInfix.trans (List.IsPrefix.isInfix h) (drop_suffix i s).isInfix

theorem At.map {β : Type*} (f : α → β) (h : At w s i) : At (w.map f) (s.map f) i := by
  rw [At, ← map_drop]
  exact List.IsPrefix.map f h

theorem exists_at (h : w <:+: s) : ∃ i, At w s i := by
  obtain ⟨before, after, rfl⟩ := h
  refine ⟨before.length, ?_⟩
  rw [At, append_assoc, drop_left]
  exact prefix_append w after

/-- A word behind a start of the text. -/
theorem at_append_right : At w (s ++ t) (s.length + i) ↔ At w t i := by
  rw [At, At, drop_append, drop_eq_nil_of_le (Nat.le_add_right _ _), nil_append, Nat.add_sub_cancel_left]

/-- A word within the start of a text. -/
theorem at_append_left (h : i + w.length ≤ s.length) : At w (s ++ t) i ↔ At w s i := by
  rw [At, At, drop_append_of_le_length (by omega)]
  refine ⟨fun hpre => ?_, fun hpre => hpre.trans (prefix_append _ _)⟩
  refine prefix_of_prefix_length_le hpre (prefix_append _ t) ?_
  rw [length_drop]
  omega

end

variable {pieces : List (List α)}

theorem Cut.ne_nil {p s : List α} (h : Cut p s pieces) : pieces ≠ [] := by
  cases h <;> exact cons_ne_nil _ _

variable {p : List α}

theorem Cut.cons_char {c : α} {g s : List α} (h : Cut p s (g :: pieces))
    (hnot : ¬p <+: c :: s) : Cut p (c :: s) ((c :: g) :: pieces) := by
  have hpiece : ∀ t, g ++ t = s → ¬p <:+: g → ¬p <:+: c :: g := by
    rintro t rfl hin
    rw [infix_cons_iff, not_or]
    exact ⟨fun hpre => hnot (hpre.trans (prefix_append (c :: g) t)), hin⟩
  cases h with
  | last hin => exact .last (hpiece [] (append_nil _) hin)
  | cons hin hcut => exact .cons (g := c :: g) (hpiece _ rfl hin) hcut

/-- Where the pattern is in no piece, a pass changes nothing. -/
theorem cutAll_self (h : ∀ g ∈ pieces, ¬p <:+: g) : CutAll p pieces pieces := by
  refine ⟨pieces.map fun g => [g], ?_, by rw [← flatMap_def, flatMap_singleton']⟩
  rw [forall₂_map_right_iff, forall₂_same]
  exact fun g hg => .last (h g hg)

theorem intercalate_append {sep : List α} {l l' : List (List α)} (hl : l ≠ []) (hl' : l' ≠ []) :
    sep.intercalate (l ++ l') = sep.intercalate l ++ (sep ++ sep.intercalate l') := by
  induction l with
  | nil => exact absurd rfl hl
  | cons g l ih =>
    cases l with
    | nil =>
      rw [singleton_append, intercalate_cons_of_ne_nil hl', intercalate_singleton, append_assoc]
    | cons g' l =>
      rw [cons_append, cons_append, intercalate_cons_cons, intercalate_cons_cons,
        append_assoc, ← cons_append, ih (cons_ne_nil g' l)]
      simp only [append_assoc]

/-! ### One pattern -/

section
variable {word : List α → Prop} {p s : List α} {ps pieces pieces' : List (List α)}

theorem Bare.of_cut (h : Bare word (p :: ps) s) (hcut : Cut p s pieces) : ∃ g ∈ pieces, Bare word ps g := by
  induction hcut with
  | last =>
    obtain ⟨w, i, hw, hat, hbare⟩ := h
    exact ⟨_, mem_singleton_self _, w, i, hw, hat, fun q hq => hbare q (mem_cons_of_mem p hq)⟩
  | @cons g s pieces _ _ ih =>
    obtain ⟨w, i, hw, hat, hbare⟩ := h
    have hp : At p (g ++ (p ++ s)) g.length := by
      rw [At, drop_left]
      exact prefix_append p s
    have hapart := hbare p mem_cons_self g.length hp
    rw [Meet, not_and_or, not_lt, not_lt] at hapart
    rcases hapart with hbehind | hbefore
    · obtain ⟨k, rfl⟩ := Nat.exists_eq_add_of_le hbehind
      rw [Nat.add_assoc, at_append_right, at_append_right] at hat
      obtain ⟨piece, hpiece, hrest⟩ := ih ⟨w, k, hw, hat, by
        intro q hq j hj hmeet
        refine hbare q hq (g.length + (p.length + j)) (at_append_right.2 (at_append_right.2 hj)) ?_
        rw [Meet] at hmeet ⊢
        omega⟩
      exact ⟨piece, mem_cons_of_mem g hpiece, hrest⟩
    · rw [at_append_left hbefore] at hat
      refine ⟨g, mem_cons_self, w, i, hw, hat, fun q hq j hj => ?_⟩
      exact hbare q (mem_cons_of_mem p hq) j (hj.trans (by
        by_cases hle : j ≤ g.length
        · rw [drop_append_of_le_length hle]
          exact prefix_append _ _
        · rw [drop_eq_nil_of_le (by omega)]
          exact nil_prefix))

theorem bare_of_cut (hc : Cohesive word (p :: ps)) (hword : ∀ w, word w → w ≠ []) (hcut : Cut p s pieces)
    (h : ∃ g ∈ pieces, Bare word ps g) : Bare word (p :: ps) s := by
  induction hcut with
  | last hnot =>
    obtain ⟨g, hg, w, i, hw, hat, hbare⟩ := h
    obtain rfl := mem_singleton.1 hg
    refine ⟨w, i, hw, hat, fun q hq j hj => ?_⟩
    rcases mem_cons.1 hq with rfl | hq
    · exact absurd hj.isInfix hnot
    · exact hbare q hq j hj
  | @cons g s pieces hnot _ ih =>
    have hp : At p (g ++ (p ++ s)) g.length := by
      rw [At, drop_left]
      exact prefix_append p s
    obtain ⟨piece, hpiece, hbare⟩ := h
    rcases mem_cons.1 hpiece with rfl | hpiece
    · obtain ⟨w, i, hw, hat, hbare⟩ := hbare
      have hle := hat.le (hword w hw)
      have hwhole : At w (piece ++ (p ++ s)) i := (at_append_left hle).2 hat
      refine ⟨w, i, hw, hwhole, fun q hq j hj hmeet => ?_⟩
      by_cases hin : j + q.length ≤ piece.length
      · rw [at_append_left hin] at hj
        rcases mem_cons.1 hq with rfl | hq
        · exact hnot hj.isInfix
        · exact hbare q hq j hj hmeet
      · -- the pattern reaches the one that is cut out
        have hreach := hc hw hq mem_cons_self hwhole hj hp hmeet (by
          rw [Meet] at hmeet ⊢
          omega)
        rw [Meet] at hreach
        omega
    · obtain ⟨w, i, hw, hat, hbare⟩ := ih ⟨piece, hpiece, hbare⟩
      have hwhole : At w (g ++ (p ++ s)) (g.length + (p.length + i)) := at_append_right.2 (at_append_right.2 hat)
      refine ⟨w, g.length + (p.length + i), hw, hwhole, fun q hq j hj hmeet => ?_⟩
      by_cases hin : g.length + p.length ≤ j
      · obtain ⟨k, rfl⟩ := Nat.exists_eq_add_of_le hin
        rw [Nat.add_assoc, at_append_right, at_append_right] at hj
        refine hbare q hq k hj ?_
        rw [Meet] at hmeet ⊢
        omega
      · have hreach := hc hw hq mem_cons_self hwhole hj hp hmeet (by
          rw [Meet] at hmeet ⊢
          omega)
        rw [Meet] at hreach
        omega

/-- **Cutting out a pattern leaves a bare word exactly if there was one.** -/
theorem bare_cut (hc : Cohesive word (p :: ps)) (hword : ∀ w, word w → w ≠ []) (hcut : Cut p s pieces) :
    Bare word (p :: ps) s ↔ ∃ g ∈ pieces, Bare word ps g :=
  ⟨fun h => h.of_cut hcut, bare_of_cut hc hword hcut⟩

/-! ### Passes -/

theorem bare_cutAll (hc : Cohesive word (p :: ps)) (hword : ∀ w, word w → w ≠ []) (h : CutAll p pieces pieces') :
    (∃ g ∈ pieces, Bare word (p :: ps) g) ↔ ∃ g ∈ pieces', Bare word ps g := by
  obtain ⟨parts, hparts, rfl⟩ := h
  induction hparts with
  | nil => simp
  | @cons g part pieces parts hcut _ ih =>
    simp only [flatten_cons, exists_mem_cons_iff, ih, bare_cut hc hword hcut, mem_append, or_and_right, exists_or]

theorem Cuts.append {ps qs : List (List α)} : ∀ {a b c : List (List α)}, Cuts ps a b → Cuts qs b c →
    Cuts (ps ++ qs) a c := by
  induction ps with
  | nil =>
    rintro a b c rfl h
    exact h
  | cons p ps ih =>
    rintro a b c ⟨between, hcut, hcuts⟩ h
    exact ⟨between, hcut, ih hcuts h⟩

theorem Cohesive.tail (h : Cohesive word (p :: ps)) : Cohesive word ps :=
  fun _ _ _ _ _ _ _ hw hp hq => h hw (mem_cons_of_mem _ hp) (mem_cons_of_mem _ hq)

/-- **What the passes leave has a word exactly if the text had one that meets no pattern.** -/
theorem bare_cuts (hc : Cohesive word ps) (hword : ∀ w, word w → w ≠ []) (h : Cuts ps pieces pieces') :
    (∃ g ∈ pieces, Bare word ps g) ↔ ∃ g ∈ pieces', ∃ w, word w ∧ w <:+: g := by
  induction ps generalizing pieces with
  | nil =>
    obtain rfl := h
    refine exists_congr fun g => and_congr_right fun _ => ⟨?_, ?_⟩
    · rintro ⟨w, i, hw, hat, -⟩
      exact ⟨w, hw, hat.isInfix⟩
    · rintro ⟨w, hw, hin⟩
      obtain ⟨i, hat⟩ := exists_at hin
      exact ⟨w, i, hw, hat, fun q hq => absurd hq not_mem_nil⟩
  | cons p ps ih =>
    obtain ⟨between, hcut, hcuts⟩ := h
    rw [bare_cutAll hc hword hcut, ih hc.tail hcuts]

end

end Redaction
