import Mathlib.Data.List.Nodup
import Mathlib.Data.List.SplitBy
import Mathlib.Tactic.SplitIfs

/-!
# Waves of a topological order

An order of the nodes of a graph in which no edge leads back, the length of the longest path to a node,
and the order cut where this depth changes.

* `IsTopological`, `depths`, `depth_lt_of_edge`, `waves`, `flatten_waves`;
* `isPartition_waves`: each node is in one wave;
* `mem_before_of_pred`, `waveOf`.
-/

namespace Waves

open List Function Prod

variable {α : Type*} [DecidableEq α] {preds : α → List α} {order : List α}

/-- An order of all nodes in which no edge leads back. -/
structure IsTopological (preds : α → List α) (order : List α) : Prop where
  nodup : order.Nodup
  mem : ∀ n, n ∈ order
  forward : order.Pairwise fun a b => b ∉ preds a
  irrefl : ∀ n, n ∉ preds n

/-- Each node comes before its successors. -/
theorem isTopological_of_idxOf (hnodup : order.Nodup) (hmem : ∀ n, n ∈ order)
    (hlt : ∀ p n, p ∈ preds n → order.idxOf p < order.idxOf n) : IsTopological preds order := by
  refine ⟨hnodup, hmem, ?_, fun n hn => absurd (hlt n n hn) (lt_irrefl _)⟩
  rw [pairwise_iff_getElem]
  intro i j hi hj hij hback
  have hidx := hlt _ _ hback
  rw [hnodup.idxOf_getElem, hnodup.idxOf_getElem] at hidx
  exact absurd hij (Nat.not_lt.2 hidx.le)

/-- The depth of the next node, by those of its predecessors. -/
def nextDepth (preds : α → List α) (depth : α → Option ℕ) (n : α) : ℕ := ((preds n).filterMap depth).max?.elim 0 (· + 1)

/-- The depths of the nodes of an order. -/
def depths (preds : α → List α) (order : List α) : α → Option ℕ :=
  order.foldl (fun depth n => update depth n (some (nextDepth preds depth n))) fun _ => none

theorem depths_concat (order : List α) (n : α) :
    depths preds (order ++ [n]) = update (depths preds order) n (some (nextDepth preds (depths preds order) n)) := by
  unfold depths
  rw [foldl_append]
  rfl

variable {n : α}

theorem depths_ne_none : depths preds order n ≠ none ↔ n ∈ order := by
  induction order using reverseRecOn with
  | nil => simp [depths]
  | append_singleton order m ih =>
    rw [depths_concat, mem_append, mem_singleton, ← ih, update_apply]
    split_ifs with heq
    · simp [heq]
    · simp [heq]

/-- What comes later does not change the depths. -/
theorem depths_append_of_mem {before after : List α} (hnodup : (before ++ after).Nodup)
    (hn : n ∈ before) : depths preds (before ++ after) n = depths preds before n := by
  induction after using reverseRecOn with
  | nil => rw [append_nil]
  | append_singleton after m ih =>
    rw [← append_assoc] at hnodup ⊢
    rw [nodup_append] at hnodup
    have hne : n ≠ m := hnodup.2.2 n (mem_append_left _ hn) m (mem_singleton_self m)
    rw [depths_concat, update_of_ne hne, ih hnodup.1]

theorem le_max?_of_mem {l : List ℕ} {d : ℕ} (hd : d ∈ l) : ∃ m, l.max? = some m ∧ d ≤ m := by
  cases hmax : l.max? with
  | none => exact absurd (max?_eq_none_iff.1 hmax) (ne_nil_of_mem hd)
  | some m => exact ⟨m, rfl, (max?_eq_some_iff.1 hmax).2 d hd⟩

variable {p n : α}

/-- **An edge leads to a greater depth.** -/
theorem depth_lt_of_edge (h : IsTopological preds order) (hedge : p ∈ preds n) :
    ∃ d e, depths preds order p = some d ∧ depths preds order n = some e ∧ d < e := by
  obtain ⟨before, after, hsplit⟩ := append_of_mem (h.mem n)
  have hnodup := h.nodup
  have hforward := h.forward
  rw [hsplit] at hnodup hforward
  -- The predecessor is not `n`, and does not come later.
  have hbefore : p ∈ before := by
    have hin := h.mem p
    rw [hsplit] at hin
    rcases mem_append.1 hin with hin | hin
    · exact hin
    · rcases mem_cons.1 hin with rfl | hlater
      · exact absurd hedge (h.irrefl p)
      · rw [pairwise_append, pairwise_cons] at hforward
        exact absurd hedge (hforward.2.1.1 p hlater)
  have hn : depths preds order n = some (nextDepth preds (depths preds before) n) := by
    rw [hsplit, show before ++ n :: after = (before ++ [n]) ++ after by simp] at *
    rw [depths_append_of_mem hnodup (by simp), depths_concat, update_self]
  obtain ⟨d, hd⟩ := Option.ne_none_iff_exists'.1 (depths_ne_none.2 hbefore)
  have hp : depths preds order p = some d := by
    rw [hsplit, depths_append_of_mem hnodup hbefore, hd]
  refine ⟨d, _, hp, hn, ?_⟩
  obtain ⟨m, hmax, hle⟩ := le_max?_of_mem (mem_filterMap.2 ⟨p, hedge, hd⟩)
  unfold nextDepth
  rw [hmax]
  exact Nat.lt_succ_of_le hle

/-! ### Waves -/

/-- The order with positions, cut where the depth changes. -/
def waves (preds : α → List α) (order : List α) : List (List (α × ℕ)) :=
  order.zipIdx.splitBy fun a b => depths preds order a.1 == depths preds order b.1

theorem flatten_waves : (waves preds order).flatten = order.zipIdx := flatten_splitBy _ _

variable {before after : List (List (α × ℕ))} {wave : List (α × ℕ)}

/-- The order from the waves before one, that one, and those after it. -/
theorem zipIdx_eq_of_split (hwaves : waves preds order = before ++ wave :: after) :
    order.zipIdx = before.flatten ++ (wave ++ after.flatten) := by
  have hflatten : (waves preds order).flatten = order.zipIdx := flatten_waves
  rw [← hflatten, hwaves, flatten_append, flatten_cons]

theorem order_eq_of_split (hwaves : waves preds order = before ++ wave :: after) :
    order = (before.flatten ++ (wave ++ after.flatten)).map fst := by
  rw [← zipIdx_eq_of_split hwaves, zipIdx_map_fst]

/-- Blocks that are not empty, with each element in one place. -/
structure IsPartition (blocks : List (List α)) : Prop where
  nonempty : ∀ block ∈ blocks, block ≠ []
  nodup : blocks.flatten.Nodup
  mem : ∀ n, n ∈ blocks.flatten

theorem isPartition_waves (h : IsTopological preds order) :
    IsPartition ((waves preds order).map (List.map fst)) := by
  have hflat : ((waves preds order).map (List.map fst)).flatten = order := by
    have hflatten : (waves preds order).flatten = order.zipIdx := flatten_waves
    rw [← map_flatten, hflatten, zipIdx_map_fst]
  constructor
  · intro block hblock
    obtain ⟨wave, hwave, rfl⟩ := mem_map.1 hblock
    rw [Ne, map_eq_nil_iff]
    exact ne_nil_of_mem_splitBy hwave
  · rw [hflat]
    exact h.nodup
  · rw [hflat]
    exact h.mem

/-- The nodes of a wave have one depth. -/
theorem depths_eq_of_mem_wave (hwave : wave ∈ waves preds order) {a b : α × ℕ}
    (ha : a ∈ wave) (hb : b ∈ wave) : depths preds order a.1 = depths preds order b.1 := by
  have hchain := isChain_of_mem_splitBy hwave
  have hsame : (wave.map fun a => depths preds order a.1).Pairwise (· = ·) := by
    rw [pairwise_map]
    exact isChain_iff_pairwise.1 (hchain.imp fun a b h => beq_iff_eq.1 h)
  exact hsame.forall_of_forall (fun _ _ => rfl) (mem_map_of_mem ha) (mem_map_of_mem hb)

/-- **The predecessors of a node are in earlier waves.** -/
theorem mem_before_of_pred (h : IsTopological preds order) (hwaves : waves preds order = before ++ wave :: after)
    {n p : α} {i : ℕ}
    (hn : (n, i) ∈ wave) (hedge : p ∈ preds n) : ∃ j, (p, j) ∈ before.flatten := by
  have hflat := (zipIdx_eq_of_split hwaves).symm
  obtain ⟨j, hj, hpj⟩ := getElem_of_mem (h.mem p)
  have hmem : (p, j) ∈ order.zipIdx := by
    rw [mem_zipIdx_iff_getElem?, getElem?_eq_getElem hj, hpj]
  refine ⟨j, ?_⟩
  rw [← hflat, mem_append, mem_append] at hmem
  rcases hmem with hbefore | hwave | hafter
  · exact hbefore
  · -- In one wave, the depths are equal.
    obtain ⟨d, e, hd, he, hlt⟩ := depth_lt_of_edge h hedge
    have hin : wave ∈ waves preds order := by
      rw [hwaves]
      exact mem_append_right _ mem_cons_self
    have hsame := depths_eq_of_mem_wave hin hwave hn
    rw [show depths preds order (p, j).1 = some d from hd, show depths preds order (n, i).1 = some e from he] at hsame
    exact absurd (Option.some.inj hsame) hlt.ne
  · have hforward : order.zipIdx.Pairwise fun a b => b.1 ∉ preds a.1 := by
      have hmap := h.forward
      rw [← zipIdx_map_fst 0 order, pairwise_map] at hmap
      exact hmap
    rw [← hflat, ← append_assoc, pairwise_append] at hforward
    exact absurd hedge (hforward.2.2 (n, i) (mem_append_right _ hn) (p, j) hafter)

/-! ### Positions -/

variable {slot : α × ℕ}

theorem idxOf_eq_of_mem_zipIdx (hnodup : order.Nodup) (h : slot ∈ order.zipIdx) : order.idxOf slot.1 = slot.2 := by
  obtain ⟨hlt, hget⟩ := List.getElem?_eq_some_iff.1 (mem_zipIdx_iff_getElem?.1 h)
  rw [← hget]
  exact hnodup.idxOf_getElem _ hlt

/-- What comes before a slot. -/
theorem idxOf_lt_iff_of_split (hnodup : order.Nodup) {before after : List (α × ℕ)}
    (hsplit : order.zipIdx = before ++ slot :: after) {u : α} :
    order.idxOf u < order.idxOf slot.1 ↔ u ∈ before.map fst := by
  have horder : order = before.map fst ++ slot.1 :: after.map fst := by
    have hfst := congrArg (List.map fst) hsplit
    rwa [zipIdx_map_fst, map_append, map_cons] at hfst
  rw [horder, nodup_append] at hnodup
  have hslot : slot.1 ∉ before.map fst := fun hin =>
    hnodup.2.2 slot.1 hin slot.1 mem_cons_self rfl
  rw [horder, idxOf_append_of_notMem hslot, idxOf_cons_self, Nat.add_zero]
  by_cases hu : u ∈ before.map fst
  · rw [idxOf_append_of_mem hu]
    exact iff_of_true (idxOf_lt_length_of_mem hu) hu
  · rw [idxOf_append_of_notMem hu]
    exact iff_of_false (by omega) hu

/-- The number of the wave of a node. -/
def waveOf (preds : α → List α) (order : List α) (n : α) : ℕ :=
  (waves preds order).findIdx fun wave => decide (n ∈ wave.map Prod.fst)

section Split

variable {before after : List (List (α × ℕ))} {wave : List (α × ℕ)}

theorem exists_wave_iff {waves : List (List (α × ℕ))} :
    (∃ wave ∈ waves, decide (n ∈ wave.map fst) = true) ↔ n ∈ waves.flatten.map fst := by
  simp only [decide_eq_true_eq, mem_map, mem_flatten]
  constructor
  · rintro ⟨wave, hwave, slot, hslot, rfl⟩
    exact ⟨slot, ⟨wave, hwave, hslot⟩, rfl⟩
  · rintro ⟨slot, ⟨wave, hwave, hslot⟩, rfl⟩
    exact ⟨wave, hwave, slot, hslot, rfl⟩

/-- The number of a node, by whether it is in an earlier wave. -/
theorem waveOf_split (hwaves : waves preds order = before ++ wave :: after) (n : α) :
    (n ∈ before.flatten.map fst → waveOf preds order n < before.length) ∧
      (n ∉ before.flatten.map fst → waveOf preds order n =
        (wave :: after).findIdx (fun wave => decide (n ∈ wave.map fst)) + before.length) := by
  have hlt : before.findIdx (fun wave => decide (n ∈ wave.map fst)) < before.length ↔
      n ∈ before.flatten.map fst := findIdx_lt_length.trans exists_wave_iff
  unfold waveOf
  rw [hwaves, findIdx_append]
  constructor
  · intro hin
    rw [if_pos (hlt.2 hin)]
    exact hlt.2 hin
  · intro hout
    rw [if_neg (mt hlt.1 hout)]

variable (hnodup : order.Nodup) (hwaves : waves preds order = before ++ wave :: after) {u v : α}
  (hv : v ∈ wave.map Prod.fst)
include hnodup hwaves hv

theorem waveOf_eq_length : waveOf preds order v = before.length := by
  have hout : v ∉ before.flatten.map fst := by
    rw [order_eq_of_split hwaves, map_append, nodup_append] at hnodup
    intro hin
    refine hnodup.2.2 v hin v ?_ rfl
    rw [map_append]
    exact mem_append_left _ hv
  rw [(waveOf_split hwaves v).2 hout, findIdx_cons, decide_eq_true hv]
  exact Nat.zero_add _

/-- The nodes of earlier waves are those with a smaller number. -/
theorem waveOf_lt_iff : waveOf preds order u < waveOf preds order v ↔ u ∈ before.flatten.map fst := by
  rw [waveOf_eq_length hnodup hwaves hv]
  constructor
  · intro hlt
    by_contra hout
    rw [(waveOf_split hwaves u).2 hout] at hlt
    exact absurd hlt (Nat.not_lt.2 (Nat.le_add_left _ _))
  · exact (waveOf_split hwaves u).1

theorem waveOf_le_iff : waveOf preds order u ≤ waveOf preds order v ↔ u ∈ (before.flatten ++ wave).map fst := by
  rw [map_append, mem_append]
  constructor
  · intro hle
    by_cases hin : u ∈ before.flatten.map fst
    · exact .inl hin
    · rw [waveOf_eq_length hnodup hwaves hv, (waveOf_split hwaves u).2 hin, findIdx_cons] at hle
      refine .inr ?_
      by_contra hout
      rw [decide_eq_false hout, cond_false] at hle
      omega
  · rintro (hin | hin)
    · exact ((waveOf_lt_iff hnodup hwaves hv).2 hin).le
    · rw [waveOf_eq_length hnodup hwaves hv, waveOf_eq_length hnodup hwaves hin]

end Split

/-- A node of an earlier wave comes before. -/
theorem idxOf_lt_of_waveOf_lt (hnodup : order.Nodup) (hmem : ∀ n, n ∈ order) {u v : α}
    (hlt : waveOf preds order u < waveOf preds order v) : order.idxOf u < order.idxOf v := by
  have hin : v ∈ (waves preds order).flatten.map fst := by
    rw [flatten_waves, zipIdx_map_fst]
    exact hmem v
  obtain ⟨wave, hwave, hv⟩ := exists_wave_iff.2 hin
  rw [decide_eq_true_eq] at hv
  obtain ⟨before, after, hsplit⟩ := append_of_mem hwave
  obtain ⟨slot, hslot, rfl⟩ := mem_map.1 hv
  obtain ⟨passed, rest, rfl⟩ := append_of_mem hslot
  have hzip : order.zipIdx = (before.flatten ++ passed) ++ slot :: (rest ++ after.flatten) := by
    rw [zipIdx_eq_of_split hsplit]
    simp
  rw [idxOf_lt_iff_of_split hnodup hzip, map_append]
  exact mem_append_left _ ((waveOf_lt_iff hnodup hsplit hv).1 hlt)

/-- An edge leads to a later wave. -/
theorem waveOf_lt_of_pred (h : IsTopological preds order) (hedge : p ∈ preds n) :
    waveOf preds order p < waveOf preds order n := by
  have hin : n ∈ (waves preds order).flatten.map fst := by
    rw [flatten_waves, zipIdx_map_fst]
    exact h.mem n
  obtain ⟨wave, hwave, hn⟩ := exists_wave_iff.2 hin
  rw [decide_eq_true_eq] at hn
  obtain ⟨before, after, hsplit⟩ := append_of_mem hwave
  obtain ⟨slot, hslot, rfl⟩ := mem_map.1 hn
  obtain ⟨j, hj⟩ := mem_before_of_pred h hsplit hslot hedge
  exact (waveOf_lt_iff h.nodup hsplit hn).2 (mem_map_of_mem hj)

end Waves
