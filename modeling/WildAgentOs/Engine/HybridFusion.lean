import Mathlib.Data.List.AList
import Mathlib.Data.Rat.Defs
import Mathlib.Algebra.Order.Field.Basic
import Mathlib.Algebra.Order.Ring.Rat
import Mathlib.Tactic.Linarith
import Mathlib.Tactic.Ring
import Mathlib.Tactic.FieldSimp
import Mathlib.Tactic.NormNum

/-!
# Fusion of text and structural results

What `hybrid_search` makes of its two lists of results, in `hybrid.rs` and in `engine.rs`, with exact distances.

* `fuse`, `fusedResults`;
* `Dominates`: a document is found by both searches, and where the other is found it is no nearer;
* `LeadCovers`, `respects_iff`.
-/

namespace WildAgentOs.Engine

open List

/-- Results of a search: ids and distances, the nearest first. -/
abbrev Ranked := List (UInt32 × ℚ)

/-- The distance a list is normalised by, `max_text_dist` and `max_struct_dist`: that of its first result, and no less
than 0.001. -/
def normDist (results : Ranked) : ℚ := max ((results.head?.map Prod.snd).getD 1) (1 / 1000)

/-- The scores of the fusion: a hash map. -/
abbrev Scores := AList fun _ : UInt32 => ℚ

/-- `*fused.entry(id).or_insert(0.0) += score`. -/
def Scores.add (fused : Scores) (id : UInt32) (score : ℚ) : Scores := fused.insert id ((fused.lookup id).getD 0 + score)

/-- What one result of a list adds. -/
def distScore (weight norm dist : ℚ) : ℚ := weight * (1 - dist / norm)

def addScores (weight norm : ℚ) (fused : Scores) (results : Ranked) : Scores :=
  results.foldl (fun fused r => fused.add r.1 (distScore weight norm r.2)) fused

/-- The fused scores of two lists. -/
def fuse (alpha : ℚ) (text struct : Ranked) : Scores :=
  addScores (1 - alpha) (normDist struct) (addScores alpha (normDist text) ∅ text) struct

/-- The fused results: by score, the highest first, where `order` is the order in which the hash map is iterated. -/
def fusedResults (order : Ranked → Ranked) (topK : ℕ) (alpha : ℚ) (text struct : Ranked) : Ranked :=
  ((order ((fuse alpha text struct).entries.map fun e => (e.1, e.2))).mergeSort fun a b => decide (b.2 ≤ a.2)).take topK

/-- `hybrid_search` of `engine.rs`, from the results of its searches. -/
def engineSearch (order : Ranked → Ranked) (topK : ℕ) (alpha : ℚ) (text struct : Ranked) : Ranked :=
  if text.isEmpty && struct.isEmpty then [] else fusedResults order topK alpha text struct

/-- `hybrid_search` of `hybrid.rs`, from the results of its searches: with one list only, its distances are the
scores. -/
def hybridSearch (order : Ranked → Ranked) (topK : ℕ) (alpha : ℚ) (text struct : Ranked) : Ranked :=
  if text.isEmpty && struct.isEmpty then []
  else if text.isEmpty then struct.take topK
  else if struct.isEmpty then text.take topK
  else fusedResults order topK alpha text struct

/-! ### Scores -/

theorem normDist_pos (results : Ranked) : 0 < normDist results := lt_max_of_lt_right (by norm_num)

/-- The score a list gives a document: nothing if it is not there. -/
def listScore (weight norm : ℚ) (results : Ranked) (id : UInt32) : ℚ :=
  ((results.lookup id).map (distScore weight norm)).getD 0

variable {id : UInt32} {results : Ranked}

theorem listScore_of_lookup {weight norm dist : ℚ}
    (h : results.lookup id = some dist) : listScore weight norm results id = distScore weight norm dist := by
  simp [listScore, h]

variable {weight norm : ℚ}

theorem listScore_of_none (h : results.lookup id = none) : listScore weight norm results id = 0 := by
  simp [listScore, h]

theorem lookup_add (fused : Scores) (id id' : UInt32) (score : ℚ) : (fused.add id score).lookup id' =
      if id' = id then some ((fused.lookup id).getD 0 + score) else fused.lookup id' := by
  unfold Scores.add
  split_ifs with h
  · rw [h, AList.lookup_insert]
  · exact AList.lookup_insert_ne h

/-- **A list adds its score to that of each document it has**, once. -/
theorem lookup_addScores (hnodup : (results.map Prod.fst).Nodup) (fused : Scores) (id : UInt32) :
    (addScores weight norm fused results).lookup id = match results.lookup id with
      | some dist => some ((fused.lookup id).getD 0 + distScore weight norm dist)
      | none => fused.lookup id := by
  induction results generalizing fused with
  | nil => rfl
  | cons r results ih =>
    obtain ⟨hr, hnodup⟩ := nodup_cons.1 hnodup
    have hstep : addScores weight norm fused (r :: results) =
        addScores weight norm (fused.add r.1 (distScore weight norm r.2)) results := rfl
    rw [hstep, ih hnodup, lookup_add, lookup_cons]
    by_cases hid : id = r.1
    · have hnone : results.lookup id = none := by
        refine lookup_eq_none_iff.2 fun q hq => bne_iff_ne.2 fun hq1 => hr ?_
        exact mem_map.2 ⟨q, hq, hq1.symm.trans hid⟩
      simp only [hnone, beq_iff_eq.2 hid, if_pos hid]
      rw [hid]
    · simp only [beq_eq_false_iff_ne.2 hid, if_neg hid]

variable {text struct : Ranked} {alpha : ℚ}

/-- **The fused score of a document** is the sum of what the two lists give it; one that neither has gets none. -/
theorem lookup_fuse (htext : (text.map Prod.fst).Nodup) (hstruct : (struct.map Prod.fst).Nodup) (id : UInt32) :
    (fuse alpha text struct).lookup id = if text.lookup id = none ∧ struct.lookup id = none then none
      else some (listScore alpha (normDist text) text id + listScore (1 - alpha) (normDist struct) struct id) := by
  unfold fuse
  rw [lookup_addScores hstruct, lookup_addScores htext, AList.lookup_empty]
  cases ht : text.lookup id <;> cases hs : struct.lookup id <;> simp [listScore, ht, hs]

/-! ### Dominance -/

/-- Document `a` is in both lists, and document `b` is in neither of them nearer than `a`. -/
structure Dominates (text struct : Ranked) (a b : UInt32) where
  text_mem : (text.lookup a).isSome
  struct_mem : (struct.lookup a).isSome
  text_le : ∀ da ∈ text.lookup a, ∀ db ∈ text.lookup b, da ≤ db
  struct_le : ∀ da ∈ struct.lookup a, ∀ db ∈ struct.lookup b, da ≤ db

/-- **The ranking respects dominance**: no document scores more than one that dominates it, and it is not returned
without that one, except at the same score. -/
structure Respects (alpha : ℚ) (text struct : Ranked) : Prop where
  score_le : ∀ {a b}, Dominates text struct a b →
    ∀ x ∈ (fuse alpha text struct).lookup a, ∀ y ∈ (fuse alpha text struct).lookup b, y ≤ x
  kept : ∀ {a b}, Dominates text struct a b → ∀ search ∈ [engineSearch, hybridSearch],
    ∀ order : Ranked → Ranked, (∀ l, (order l).Perm l) → ∀ topK y,
      (b, y) ∈ search order topK alpha text struct →
        (fuse alpha text struct).lookup a = some y ∨ ∃ x, (a, x) ∈ search order topK alpha text struct

/-- What a document loses by being in the list `results` at distance `d`, and not out of it. -/
def penalty (weight : ℚ) (results : Ranked) (d : ℚ) : ℚ := weight * (d / normDist results - 1)

/-- What a document is ahead of another in the list `results`, at distances `da` and `db`. -/
def lead (weight : ℚ) (results : Ranked) (da db : ℚ) : ℚ := weight * ((db - da) / normDist results)

/-- For a document in both lists and one in the list `inn` only, no nearer there: what the first loses by being in
the list `out` is no more than it is ahead in the list `inn`. -/
def LeadCovers (weight : ℚ) (inn out : Ranked) : Prop :=
  ∀ a b din dout db, inn.lookup a = some din → out.lookup a = some dout → out.lookup b = none →
    inn.lookup b = some db → din ≤ db → penalty (1 - weight) out dout ≤ lead weight inn din db

variable {weight : ℚ}

theorem distScore_le_iff {inn out : Ranked} {din dout db : ℚ} : distScore weight (normDist inn) db ≤
        distScore weight (normDist inn) din + distScore (1 - weight) (normDist out) dout ↔
      penalty (1 - weight) out dout ≤ lead weight inn din db := by
  have hlead : lead weight inn din db = distScore weight (normDist inn) din - distScore weight (normDist inn) db := by
    unfold lead distScore
    ring
  have hpenalty : penalty (1 - weight) out dout = -distScore (1 - weight) (normDist out) dout := by
    unfold penalty distScore
    ring
  rw [hlead, hpenalty]
  constructor <;> intro h <;> linarith

/-- In one list, the nearer document gets no less. -/
theorem distScore_anti (hw : 0 ≤ weight) (results : Ranked) {da db : ℚ} (h : da ≤ db) :
    distScore weight (normDist results) db ≤ distScore weight (normDist results) da := by
  have hdiv : da / normDist results ≤ db / normDist results := div_le_div_of_nonneg_right h (normDist_pos results).le
  exact mul_le_mul_of_nonneg_left (by linarith) hw

variable {a b : UInt32}

section Fused

variable {alpha : ℚ} {text struct : Ranked} (htext : (text.map Prod.fst).Nodup)
  (hstruct : (struct.map Prod.fst).Nodup)

include htext hstruct

theorem fuse_of_both {dt ds : ℚ} (ht : text.lookup id = some dt) (hs : struct.lookup id = some ds) :
    (fuse alpha text struct).lookup id =
      some (distScore alpha (normDist text) dt + distScore (1 - alpha) (normDist struct) ds) := by
  rw [lookup_fuse htext hstruct, listScore_of_lookup ht, listScore_of_lookup hs, if_neg (by simp [ht])]

theorem fuse_of_text {dt : ℚ} (ht : text.lookup id = some dt) (hs : struct.lookup id = none) :
    (fuse alpha text struct).lookup id = some (distScore alpha (normDist text) dt) := by
  rw [lookup_fuse htext hstruct, listScore_of_lookup ht, listScore_of_none hs, add_zero, if_neg (by simp [ht])]

theorem fuse_of_struct {ds : ℚ} (ht : text.lookup id = none) (hs : struct.lookup id = some ds) :
    (fuse alpha text struct).lookup id = some (distScore (1 - alpha) (normDist struct) ds) := by
  rw [lookup_fuse htext hstruct, listScore_of_lookup hs, listScore_of_none ht, zero_add, if_neg (by simp [hs])]

/-- Where leads cover what is lost, a dominated document scores no more. -/
theorem score_le_of_covers (h0 : 0 ≤ alpha) (h1 : alpha ≤ 1) (ht : LeadCovers alpha text struct)
    (hs : LeadCovers (1 - alpha) struct text) (hdom : Dominates text struct a b) :
    ∀ x ∈ (fuse alpha text struct).lookup a, ∀ y ∈ (fuse alpha text struct).lookup b, y ≤ x := by
  intro x hx y hy
  obtain ⟨dt, hdt⟩ := Option.isSome_iff_exists.1 hdom.text_mem
  obtain ⟨ds, hds⟩ := Option.isSome_iff_exists.1 hdom.struct_mem
  rw [fuse_of_both htext hstruct hdt hds] at hx
  cases hx
  cases hbt : text.lookup b with
  | none =>
    cases hbs : struct.lookup b with
    | none => simp [lookup_fuse htext hstruct, hbt, hbs] at hy
    | some db =>
      rw [fuse_of_struct htext hstruct hbt hbs] at hy
      cases hy
      have hle := distScore_le_iff.2 (hs a b ds dt db hds hdt hbt hbs (hdom.struct_le ds hds db hbs))
      rwa [sub_sub_cancel, add_comm] at hle
  | some db =>
    have hlet := distScore_anti h0 text (hdom.text_le dt hdt db hbt)
    cases hbs : struct.lookup b with
    | none =>
      rw [fuse_of_text htext hstruct hbt hbs] at hy
      cases hy
      exact distScore_le_iff.2 (ht a b dt ds db hdt hds hbs hbt (hdom.text_le dt hdt db hbt))
    | some db' =>
      rw [fuse_of_both htext hstruct hbt hbs] at hy
      cases hy
      have hles := distScore_anti (sub_nonneg.2 h1) struct (hdom.struct_le ds hds db' hbs)
      exact add_le_add hlet hles

end Fused

/-! ### What is returned -/

/-- Of a list sorted by score, what is cut off scores no more than what stays. -/
theorem snd_le_of_mem_take {l : Ranked} (hl : l.Pairwise fun a b => b.2 ≤ a.2) {n : ℕ} {q r : UInt32 × ℚ}
    (hq : q ∈ l.take n) (hr : r ∈ l) (hout : r ∉ l.take n) : r.2 ≤ q.2 := by
  rw [← take_append_drop n l] at hl hr
  have hdrop : r ∈ l.drop n := (mem_append.1 hr).resolve_left hout
  exact (pairwise_append.1 hl).2.2 q hq r hdrop

theorem mem_entries_fuse {x : ℚ} : (id, x) ∈ (fuse alpha text struct).entries.map (fun e => (e.1, e.2)) ↔
      (fuse alpha text struct).lookup id = some x := by
  rw [← Option.mem_def, AList.mem_lookup_iff, mem_map]
  constructor
  · rintro ⟨e, he, h⟩
    obtain ⟨h1, h2⟩ := Prod.mk.inj h
    subst h1 h2
    exact he
  · intro h
    exact ⟨_, h, rfl⟩

/-- **What the fusion returns**: scored documents, and none of those left out scores more. -/
theorem mem_fusedResults {order : Ranked → Ranked} (horder : ∀ l, (order l).Perm l) {topK : ℕ} {b : UInt32} {y : ℚ}
    (hb : (b, y) ∈ fusedResults order topK alpha text struct) :
    (fuse alpha text struct).lookup b = some y ∧
      ∀ a x, (fuse alpha text struct).lookup a = some x →
        (a, x) ∈ fusedResults order topK alpha text struct ∨ x ≤ y := by
  have hmem : ∀ id x, (id, x) ∈ ((order ((fuse alpha text struct).entries.map fun e => (e.1, e.2))).mergeSort
      fun a b => decide (b.2 ≤ a.2)) ↔ (fuse alpha text struct).lookup id = some x := fun id x => by
    rw [mem_mergeSort, (horder _).mem_iff, mem_entries_fuse]
  have hsorted := @pairwise_mergeSort _ (fun a b : UInt32 × ℚ => decide (b.2 ≤ a.2))
    (fun a b c hab hbc => decide_eq_true ((of_decide_eq_true hbc).trans (of_decide_eq_true hab)))
    (fun a b => by simpa using le_total b.2 a.2)
    (order ((fuse alpha text struct).entries.map fun e => (e.1, e.2)))
  refine ⟨(hmem b y).1 (mem_of_mem_take hb), fun a x ha => or_iff_not_imp_left.2 fun hout => ?_⟩
  exact snd_le_of_mem_take (hsorted.imp fun h => of_decide_eq_true h) hb ((hmem a x).2 ha) hout

/-- With results in both lists, both searches return the fused results. -/
theorem eq_fusedResults {search : (Ranked → Ranked) → ℕ → ℚ → Ranked → Ranked → Ranked}
    (hsearch : search ∈ [engineSearch, hybridSearch]) (h : Dominates text struct a b) (order : Ranked → Ranked)
    (topK : ℕ) (alpha : ℚ) : search order topK alpha text struct = fusedResults order topK alpha text struct := by
  have htext : text.isEmpty = false := by
    cases text with
    | nil => simpa using h.text_mem
    | cons => rfl
  have hstruct : struct.isEmpty = false := by
    cases struct with
    | nil => simpa using h.struct_mem
    | cons => rfl
  simp only [mem_cons, not_mem_nil, or_false] at hsearch
  rcases hsearch with rfl | rfl
  · simp [engineSearch, htext]
  · simp [hybridSearch, htext, hstruct]

/-- **Dominance is respected exactly when leads cover what is lost**: a document in both lists may lose, in the list
that only it is in, no more than it is ahead in the other one. -/
theorem respects_iff {alpha : ℚ} (h0 : 0 ≤ alpha) (h1 : alpha ≤ 1) {text struct : Ranked}
    (htext : (text.map Prod.fst).Nodup) (hstruct : (struct.map Prod.fst).Nodup) :
    Respects alpha text struct ↔ LeadCovers alpha text struct ∧ LeadCovers (1 - alpha) struct text := by
  constructor
  · intro h
    constructor
    · intro a b dt ds db hdt hds hbs hbt hle
      have hdom : Dominates text struct a b := ⟨by simp [hdt], by simp [hds], by simp [hdt, hbt, hle], by simp [hbs]⟩
      exact distScore_le_iff.1 (h.score_le hdom _ (fuse_of_both htext hstruct hdt hds) _
        (fuse_of_text htext hstruct hbt hbs))
    · intro a b ds dt db hds hdt hbt hbs hle
      have hdom : Dominates text struct a b := ⟨by simp [hdt], by simp [hds], by simp [hbt], by simp [hds, hbs, hle]⟩
      have hscore := h.score_le hdom _ (fuse_of_both htext hstruct hdt hds) _ (fuse_of_struct htext hstruct hbt hbs)
      refine distScore_le_iff.1 ?_
      rwa [sub_sub_cancel, add_comm]
  · rintro ⟨ht, hs⟩
    refine ⟨fun hdom => score_le_of_covers htext hstruct h0 h1 ht hs hdom, ?_⟩
    intro a b hdom search hsearch order horder topK y hb
    rw [eq_fusedResults hsearch hdom] at hb ⊢
    obtain ⟨hy, hrest⟩ := mem_fusedResults horder hb
    obtain ⟨dt, hdt⟩ := Option.isSome_iff_exists.1 hdom.text_mem
    obtain ⟨ds, hds⟩ := Option.isSome_iff_exists.1 hdom.struct_mem
    have ha : (fuse alpha text struct).lookup a = some _ := fuse_of_both htext hstruct hdt hds
    have hyx := score_le_of_covers htext hstruct h0 h1 ht hs hdom _ ha y hy
    rcases hrest a _ ha with hkept | hxy
    · exact Or.inr ⟨_, hkept⟩
    · rw [ha, le_antisymm hxy hyx]
      exact Or.inl rfl

/-- Three results of each search: document 2 is in both lists and document 3 in the second only, at the same
distance. -/
def sampleText : Ranked := [(1, 1 / 10), (2, 1 / 2), (4, 3 / 5)]

def sampleStruct : Ranked := [(2, 1 / 10), (3, 1 / 10), (5, 1 / 5)]

/-- The same list twice: no document is in one list only. -/
theorem respects_sampleText : Respects (1 / 2) sampleText sampleText :=
  (respects_iff (by norm_num) (by norm_num) (by decide) (by decide)).2
    ⟨fun _ _ _ _ _ _ _ hout hin _ => absurd (hout.symm.trans hin) (by simp),
      fun _ _ _ _ _ _ _ hout hin _ => absurd (hout.symm.trans hin) (by simp)⟩

/-- Document 2 gets less than nothing from the first list, and document 3 nothing. -/
theorem not_respects_sample : ¬Respects (1 / 2) sampleText sampleStruct := by
  intro h
  have htext : sampleText.lookup 3 = none := rfl
  have htext' : sampleText.lookup 2 = some (1 / 2) := rfl
  have hstruct : sampleStruct.lookup 2 = some (1 / 10) := rfl
  have hstruct' : sampleStruct.lookup 3 = some (1 / 10) := rfl
  have hdom : Dominates sampleText sampleStruct 2 3 := ⟨rfl, rfl, by simp [htext], by simp [hstruct, hstruct']⟩
  have ha : (fuse (1 / 2) sampleText sampleStruct).lookup 2 = some _ :=
    fuse_of_both (by decide) (by decide) htext' hstruct
  have hb : (fuse (1 / 2) sampleText sampleStruct).lookup 3 = some _ :=
    fuse_of_struct (by decide) (by decide) htext hstruct'
  have hle := h.score_le hdom _ ha _ hb
  norm_num [distScore, normDist, sampleText, sampleStruct] at hle

end WildAgentOs.Engine
