import Mathlib.Algebra.BigOperators.Group.List.Lemmas
import WildAgentOs.Lib.Worklist

/-!
# Kahn's algorithm by layers

The nodes of a graph with multiple edges, cut into layers: the nodes without predecessors, and after each layer
the nodes whose last incoming edge comes from it.

* `layersOf`, with fuel: the in-degrees are counted down along the edges of a layer;
* `Layered`;
* `layered_layersOf`: that is what is computed, with more fuel than there are nodes;
* `IsLayering`, `Layered.isLayering`.
-/

namespace Kahn

open Worklist List Function

variable {α : Type*}

/-! ### The algorithm -/

section Algorithm

variable [DecidableEq α] (preds : α → List α) (nodes : List α)

/-- The edges between the nodes, an edge for each time that a predecessor is named. -/
def edges : List (α × α) := nodes.flatMap fun n => ((preds n).filter fun p => p ∈ nodes).map fun p => (p, n)

/-- The successors along the edges. -/
def adj (p : α) : List α := ((edges preds nodes).filter fun edge => edge.1 = p).map (·.2)

/-- The number of edges that lead to a node. -/
def inDegree (n : α) : ℕ := ((edges preds nodes).map (·.2)).count n

/-- An edge of a layer is taken away: a node without further edges is in the next layer. -/
def takeEdge (state : (α → ℕ) × List α) (next : α) : (α → ℕ) × List α :=
  let deg := state.1 next - 1
  (update state.1 next deg, if deg = 0 then state.2 ++ [next] else state.2)

/-- The layers from the in-degrees and a layer on; each layer is sorted. -/
def layersFrom (sort : List α → List α) : ℕ → (α → ℕ) → List α → Option (List (List α))
  | _, _, [] => some []
  | 0, _, _ :: _ => none
  | fuel + 1, degree, n :: layer =>
    let next := ((n :: layer).flatMap (adj preds nodes)).foldl takeEdge (degree, [])
    (layersFrom sort fuel next.1 (sort next.2)).map ((n :: layer) :: ·)

/-- The layers, from the nodes to which no edge leads. -/
def layersOf (sort : List α → List α) (fuel : ℕ) : Option (List (List α)) :=
  layersFrom preds nodes sort fuel (inDegree preds nodes) (sort (nodes.filter fun n => inDegree preds nodes n = 0))

end Algorithm

/-! ### Layers -/

/-- Each layer holds the nodes, not met before, all of whose predecessors were met before it; the last layer
leaves none. -/
inductive Layered (preds : α → List α) (nodes : List α) : List α → List (List α) → Prop
  | nil {done : List α} (closed : ∀ n ∈ nodes, (∀ p ∈ preds n, p ∈ done) → n ∈ done) : Layered preds nodes done []
  | cons {done layer : List α} {layers : List (List α)} (nodup : layer.Nodup)
      (mem : ∀ n, n ∈ layer ↔ n ∈ nodes ∧ n ∉ done ∧ ∀ p ∈ preds n, p ∈ done)
      (rest : Layered preds nodes (done ++ layer) layers) : Layered preds nodes done (layer :: layers)

/-! ### Counting edges -/

variable {n : α}

section Counts

variable [DecidableEq α] {preds : α → List α} {nodes : List α}

/-- The edges between two nodes are as many as the predecessor is named. -/
theorem count_edges (hnodup : nodes.Nodup) (hclosed : ∀ n ∈ nodes, ∀ p ∈ preds n, p ∈ nodes)
    (hn : n ∈ nodes) (p : α) : (edges preds nodes).count (p, n) = (preds n).count p := by
  have hfilter : ((preds n).filter fun q => q ∈ nodes) = preds n :=
    filter_eq_self.2 fun q hq => decide_eq_true (hclosed n hn q hq)
  unfold edges
  rw [count_flatMap, sum_map_eq_nsmul_single n, count_eq_one_of_mem hnodup hn, one_smul, comp_apply, hfilter]
  · exact count_map_of_injective _ (fun q => (q, n)) (fun q q' h => (Prod.ext_iff.1 h).1) p
  · intro m hne hm
    rw [comp_apply, count_eq_zero]
    intro hin
    obtain ⟨q, -, hq⟩ := mem_map.1 hin
    exact hne (Prod.ext_iff.1 hq).2

theorem snd_mem_of_mem_edges {edge : α × α} (h : edge ∈ edges preds nodes) : edge.2 ∈ nodes := by
  obtain ⟨n, hn, hedge⟩ := mem_flatMap.1 h
  obtain ⟨p, -, rfl⟩ := mem_map.1 hedge
  exact hn

theorem count_adj (hnodup : nodes.Nodup) (hclosed : ∀ n ∈ nodes, ∀ p ∈ preds n, p ∈ nodes)
    (hn : n ∈ nodes) (p : α) : (adj preds nodes p).count n = (preds n).count p := by
  rw [← count_edges hnodup hclosed hn p]
  unfold adj
  rw [count_eq_countP, countP_map, countP_filter, count_eq_countP]
  refine countP_congr fun edge _ => ?_
  simp [Prod.ext_iff, and_comm]

theorem inDegree_eq (hnodup : nodes.Nodup) (hclosed : ∀ n ∈ nodes, ∀ p ∈ preds n, p ∈ nodes)
    (hn : n ∈ nodes) : inDegree preds nodes n = (preds n).length := by
  have hfilter : ((preds n).filter fun q => q ∈ nodes) = preds n :=
    filter_eq_self.2 fun q hq => decide_eq_true (hclosed n hn q hq)
  unfold inDegree edges
  rw [map_flatMap, count_flatMap, sum_map_eq_nsmul_single n, count_eq_one_of_mem hnodup hn, one_smul]
  · rw [comp_apply, hfilter, map_map, count_eq_length.2, length_map]
    intro m hm
    obtain ⟨q, -, rfl⟩ := mem_map.1 hm
    rfl
  · intro m hne hm
    rw [comp_apply, count_eq_zero]
    intro hin
    simp only [map_map, mem_map, comp_apply] at hin
    obtain ⟨q, -, hq⟩ := hin
    exact hne hq

/-- The edges that lead from a layer to a node. -/
theorem count_flatMap_adj (hnodup : nodes.Nodup) (hclosed : ∀ n ∈ nodes, ∀ p ∈ preds n, p ∈ nodes)
    (hn : n ∈ nodes) {layer : List α} (hlayer : layer.Nodup) :
    (layer.flatMap (adj preds nodes)).count n = (preds n).countP (· ∈ layer) := by
  rw [count_flatMap]
  induction layer with
  | nil => simp
  | cons p layer ih =>
    obtain ⟨hp, hlayer⟩ := nodup_cons.1 hlayer
    rw [map_cons, sum_cons, ih hlayer, comp_apply, count_adj hnodup hclosed hn]
    -- What is named in the layer is its first node or in the rest of it, and not both.
    induction preds n with
    | nil => rfl
    | cons q names ihNames =>
      simp only [count_cons, countP_cons, mem_cons, beq_iff_eq, decide_eq_true_eq] at ihNames ⊢
      by_cases hq : q = p
      · subst hq
        simp only [hp, true_or, if_true, if_false]
        omega
      · simp only [hq, false_or, if_false]
        omega

/-- What the edges of a layer leave of the in-degrees, and what is put in the next layer: the nodes whose last
edges are among them, each once. -/
theorem foldl_takeEdge (targets : List α) (degree : α → ℕ) (acc : List α) (n : α) :
    (targets.foldl takeEdge (degree, acc)).1 n = degree n - targets.count n ∧
      (targets.count n ≤ degree n → (targets.foldl takeEdge (degree, acc)).2.count n =
        acc.count n + if n ∈ targets ∧ targets.count n = degree n then 1 else 0) := by
  induction targets generalizing degree acc with
  | nil => simp
  | cons m targets ih =>
    obtain ⟨hdegree, hcount⟩ := ih (update degree m (degree m - 1)) (if degree m - 1 = 0 then acc ++ [m] else acc)
    show (targets.foldl takeEdge (takeEdge (degree, acc) m)).1 n = _ ∧ _
    unfold takeEdge at *
    by_cases hn : n = m
    · subst hn
      simp only [update_self, count_cons_self] at hdegree hcount ⊢
      refine ⟨by rw [hdegree]; omega, fun hle => ?_⟩
      rw [foldl_cons, hcount (by omega)]
      have hmem : n ∈ targets ↔ 0 < targets.count n := count_pos_iff.symm
      simp only [hmem, mem_cons, true_or, true_and]
      have hacc : (if degree n - 1 = 0 then acc ++ [n] else acc).count n =
          acc.count n + if degree n - 1 = 0 then 1 else 0 := by
        split_ifs
        · rw [count_append, count_singleton_self]
        · rfl
      rw [hacc]
      split_ifs <;> omega
    · have hacc : (if degree m - 1 = 0 then acc ++ [m] else acc).count n = acc.count n := by
        split_ifs
        · rw [count_append, count_eq_zero.2 (fun h => hn (mem_singleton.1 h)), add_zero]
        · rfl
      rw [update_of_ne hn] at hdegree hcount
      rw [hacc] at hcount
      have hne : (m :: targets).count n = targets.count n := count_cons_of_ne (Ne.symm hn)
      simp only [hne, mem_cons, hn, false_or]
      exact ⟨hdegree, hcount⟩

end Counts

/-! ### One layer after another -/

section Layers

variable [DecidableEq α] {preds : α → List α} {nodes done layer : List α} {degree : α → ℕ}

/-- The state before a layer: the in-degrees count the edges from what is not done, and the layer is next. -/
structure Counted (preds : α → List α) (nodes done layer : List α) (degree : α → ℕ) : Prop where
  degree_eq : ∀ n ∈ nodes, degree n = (preds n).countP (· ∉ done)
  closed : ∀ n ∈ done, ∀ p ∈ preds n, p ∈ done
  nodup : layer.Nodup
  mem : ∀ n, n ∈ layer ↔ n ∈ nodes ∧ n ∉ done ∧ ∀ p ∈ preds n, p ∈ done

/-- All predecessors are done exactly if no edge from elsewhere is left. -/
theorem countP_eq_zero_iff : (preds n).countP (· ∉ done) = 0 ↔ ∀ p ∈ preds n, p ∈ done := by
  rw [countP_eq_zero]
  simp

/-- The edges that are left are those of the layer and those that are left after it. -/
theorem Counted.countP_add (h : Counted preds nodes done layer degree) (names : List α) :
    names.countP (· ∉ done) = names.countP (· ∈ layer) + names.countP (· ∉ done ++ layer) := by
  induction names with
  | nil => rfl
  | cons p names ih =>
    have hdisjoint : p ∈ layer → p ∉ done := fun hp => ((h.mem p).1 hp).2.1
    simp only [countP_cons, mem_append, decide_eq_true_eq] at ih ⊢
    by_cases hlayer : p ∈ layer
    · simp only [hlayer, hdisjoint hlayer, or_true, not_true, not_false_eq_true, if_true, if_false]
      omega
    · by_cases hdone : p ∈ done
      · simp only [hlayer, hdone, or_false, not_true, if_false]
        omega
      · simp only [hlayer, hdone, or_false, not_false_eq_true, if_true, if_false]
        omega

variable {sort : List α → List α}

/-- **A layer is taken away.** -/
theorem Counted.next (h : Counted preds nodes done layer degree) (hnodup : nodes.Nodup)
    (hclosed : ∀ n ∈ nodes, ∀ p ∈ preds n, p ∈ nodes) (hsort : ∀ l, (sort l).Perm l) :
    Counted preds nodes (done ++ layer)
      (sort ((layer.flatMap (adj preds nodes)).foldl takeEdge (degree, [])).2)
      ((layer.flatMap (adj preds nodes)).foldl takeEdge (degree, [])).1 := by
  have hfold := fun n => foldl_takeEdge (layer.flatMap (adj preds nodes)) degree [] n
  generalize (layer.flatMap (adj preds nodes)).foldl takeEdge (degree, []) = state at hfold
  have htargets : ∀ n, n ∉ nodes → n ∉ layer.flatMap (adj preds nodes) := by
    intro n hn hin
    obtain ⟨p, -, hp⟩ := mem_flatMap.1 hin
    obtain ⟨edge, hedge, rfl⟩ := mem_map.1 hp
    exact hn (snd_mem_of_mem_edges (mem_of_mem_filter hedge))
  have hstep : ∀ n, n ∈ layer.flatMap (adj preds nodes) ↔ 0 < (layer.flatMap (adj preds nodes)).count n :=
    fun n => count_pos_iff.symm
  -- What is put in the next layer, counted.
  have hcount : ∀ n, state.2.count n =
      if n ∈ nodes ∧ n ∉ done ++ layer ∧ ∀ p ∈ preds n, p ∈ done ++ layer then 1 else 0 := by
    intro n
    by_cases hn : n ∈ nodes
    · have hedges := count_flatMap_adj hnodup hclosed hn h.nodup
      have hleft := h.countP_add (preds n)
      have hdegree := h.degree_eq n hn
      rw [(hfold n).2 (by omega), count_nil, zero_add]
      refine if_congr ?_ rfl rfl
      rw [hstep, hdegree, hedges, hleft, ← countP_eq_zero_iff, countP_pos_iff]
      constructor
      · rintro ⟨⟨p, hp, hlayer⟩, heq⟩
        refine ⟨hn, fun hin => ?_, by omega⟩
        -- What was met has its predecessors before this layer.
        refine ((h.mem p).1 (of_decide_eq_true hlayer)).2.1 ?_
        rcases mem_append.1 hin with hin | hin
        · exact h.closed n hin p hp
        · exact ((h.mem n).1 hin).2.2 p hp
      · rintro ⟨-, hnew, hzero⟩
        refine ⟨?_, by omega⟩
        by_contra hnone
        push Not at hnone
        rw [mem_append, not_or] at hnew
        refine hnew.2 ((h.mem n).2 ⟨hn, hnew.1, fun p hp => ?_⟩)
        have hpred := countP_eq_zero_iff.1 hzero p hp
        exact (mem_append.1 hpred).resolve_right fun hin => hnone p hp (decide_eq_true hin)
    · have hnone := htargets n hn
      rw [(hfold n).2 (by rw [count_eq_zero.2 hnone]; exact Nat.zero_le _), if_neg (fun h => hnone h.1),
        if_neg (fun h => hn h.1), count_nil]
  refine ⟨fun n hn => ?_, fun n hin p hp => ?_, ?_, fun n => ?_⟩
  · rw [(hfold n).1, h.degree_eq n hn, count_flatMap_adj hnodup hclosed hn h.nodup, h.countP_add (preds n)]
    omega
  · rcases mem_append.1 hin with hin | hin
    · exact mem_append_left _ (h.closed n hin p hp)
    · exact mem_append_left _ (((h.mem n).1 hin).2.2 p hp)
  · rw [(hsort state.2).nodup_iff, nodup_iff_count_le_one]
    intro n
    rw [hcount n]
    split_ifs <;> omega
  · rw [(hsort state.2).mem_iff, ← count_pos_iff, hcount n]
    split_ifs with hin
    · simpa using hin
    · simpa using hin

/-- Without a next layer there is nothing more to do. -/
theorem Counted.layered_nil (h : Counted preds nodes done [] degree) : Layered preds nodes done [] := by
  refine .nil fun n hn hpreds => ?_
  by_contra hnew
  exact not_mem_nil ((h.mem n).2 ⟨hn, hnew, hpreds⟩)

variable {fuel : ℕ}

theorem Counted.layered (h : Counted preds nodes done layer degree) (hnodup : nodes.Nodup)
    (hclosed : ∀ n ∈ nodes, ∀ p ∈ preds n, p ∈ nodes) (hsort : ∀ l, (sort l).Perm l)
    (hfuel : nodes.countP (· ∉ done) ≤ fuel) :
    ∃ layers, layersFrom preds nodes sort fuel degree layer = some layers ∧ Layered preds nodes done layers := by
  induction fuel generalizing done layer degree with
  | zero =>
    cases layer with
    | nil => exact ⟨[], by rw [layersFrom], h.layered_nil⟩
    | cons n layer =>
      obtain ⟨hn, hnew, -⟩ := (h.mem n).1 mem_cons_self
      have hpos : 0 < nodes.countP (· ∉ done) := countP_pos_iff.2 ⟨n, hn, decide_eq_true hnew⟩
      omega
  | succ fuel ih =>
    cases layer with
    | nil => exact ⟨[], by rw [layersFrom], h.layered_nil⟩
    | cons n layer =>
      obtain ⟨hn, hnew, -⟩ := (h.mem n).1 mem_cons_self
      have hless : nodes.countP (· ∉ done ++ n :: layer) < nodes.countP (· ∉ done) := by
        have hpos : 0 < nodes.countP (· ∈ n :: layer) := countP_pos_iff.2 ⟨n, hn, decide_eq_true mem_cons_self⟩
        have hsplit := h.countP_add nodes
        omega
      obtain ⟨layers, hlayers, hrest⟩ := ih (h.next hnodup hclosed hsort) (by omega)
      refine ⟨(n :: layer) :: layers, ?_, .cons h.nodup h.mem hrest⟩
      rw [layersFrom, hlayers]
      rfl

/-- **The layers that are computed.** -/
theorem layered_layersOf (hnodup : nodes.Nodup) (hclosed : ∀ n ∈ nodes, ∀ p ∈ preds n, p ∈ nodes)
    (hsort : ∀ l, (sort l).Perm l) (hfuel : nodes.length ≤ fuel) :
    ∃ layers, layersOf preds nodes sort fuel = some layers ∧ Layered preds nodes [] layers := by
  refine Counted.layered ⟨fun n hn => ?_, fun n hn => absurd hn not_mem_nil, ?_, fun n => ?_⟩ hnodup hclosed
    hsort (le_trans countP_le_length hfuel)
  · rw [inDegree_eq hnodup hclosed hn]
    simp
  · exact (hsort _).nodup_iff.2 (hnodup.filter _)
  · rw [(hsort _).mem_iff, mem_filter]
    refine and_congr_right fun hn => ?_
    rw [inDegree_eq hnodup hclosed hn]
    simp [eq_nil_iff_forall_not_mem]

end Layers

/-! ### What the layers say -/

/-- The node is in the layer of this number. -/
def InLayer (layers : List (List α)) (i : ℕ) (n : α) : Prop := ∃ layer, layers[i]? = some layer ∧ n ∈ layer

/-- The layers of some nodes: each of them that is not on or behind a cycle is there once, after its
predecessors, and as early as that allows. -/
structure IsLayering (preds : α → List α) (Node : α → Prop) (layers : List (List α)) : Prop where
  once : layers.flatten.Nodup
  mem : ∀ n, n ∈ layers.flatten ↔ Node n ∧ ¬BehindCycle preds n
  later : ∀ i n, InLayer layers i n → ∀ p ∈ preds n, ∃ j < i, InLayer layers j p
  earliest : ∀ i n, InLayer layers i n → ∀ k, (∀ p ∈ preds n, ∃ j < k, InLayer layers j p) → i ≤ k

variable {preds : α → List α} {nodes done : List α} {layers : List (List α)}

theorem mem_flatten_take {k : ℕ} : n ∈ (layers.take k).flatten ↔ ∃ j < k, InLayer layers j n := by
  rw [mem_flatten]
  constructor
  · rintro ⟨layer, hlayer, hn⟩
    obtain ⟨j, hj⟩ := mem_iff_getElem?.1 hlayer
    have hlt : j < k := by
      have hlen := (List.getElem?_eq_some_iff.1 hj).1
      rw [length_take] at hlen
      omega
    exact ⟨j, hlt, layer, by rwa [getElem?_take_of_lt hlt] at hj, hn⟩
  · rintro ⟨j, hlt, layer, hj, hn⟩
    exact ⟨layer, mem_of_getElem? (by rwa [getElem?_take_of_lt hlt]), hn⟩

theorem mem_flatten_iff_inLayer : n ∈ layers.flatten ↔ ∃ i, InLayer layers i n := by
  rw [← take_length (l := layers), mem_flatten_take, take_length]
  refine ⟨fun ⟨i, _, hi⟩ => ⟨i, hi⟩, fun ⟨i, layer, hi, hn⟩ => ⟨i, ?_, layer, hi, hn⟩⟩
  exact (List.getElem?_eq_some_iff.1 hi).1

section

variable (h : Layered preds nodes done layers)
include h

theorem Layered.inLayer_iff {i : ℕ} :
    InLayer layers i n ↔ i < layers.length ∧ n ∈ nodes ∧ n ∉ done ++ (layers.take i).flatten ∧
      ∀ p ∈ preds n, p ∈ done ++ (layers.take i).flatten := by
  induction h generalizing i with
  | nil hclosed => simp [InLayer]
  | @cons done layer layers hnodup hmem hrest ih =>
    cases i with
    | zero => simp [InLayer, hmem]
    | succ i =>
      have hstep : InLayer (layer :: layers) (i + 1) n ↔ InLayer layers i n := by
        simp [InLayer]
      rw [hstep, ih]
      simp [append_assoc]

theorem Layered.nodup (hdone : done.Nodup) : (done ++ layers.flatten).Nodup := by
  induction h with
  | nil hclosed => simpa using hdone
  | @cons done layer layers hnodup hmem hrest ih =>
    rw [flatten_cons, ← append_assoc]
    refine ih ?_
    rw [nodup_append]
    refine ⟨hdone, hnodup, ?_⟩
    rintro n hn m hm rfl
    exact ((hmem n).1 hm).2.1 hn

/-- What has all of its predecessors in layers is in a layer. -/
theorem Layered.closed (hn : n ∈ nodes)
    (hpreds : ∀ p ∈ preds n, p ∈ done ++ layers.flatten) : n ∈ done ++ layers.flatten := by
  induction h with
  | nil hclosed =>
    simp only [flatten_nil, append_nil] at hpreds ⊢
    exact hclosed n hn hpreds
  | @cons done layer layers hnodup hmem hrest ih =>
    rw [flatten_cons, ← append_assoc] at hpreds ⊢
    exact ih hpreds

end

/-- **The layers from nothing on are a layering.** -/
theorem Layered.isLayering (h : Layered preds nodes [] layers)
    (hclosed : ∀ n ∈ nodes, ∀ p ∈ preds n, p ∈ nodes) : IsLayering preds (· ∈ nodes) layers := by
  have hlater : ∀ i n, InLayer layers i n → ∀ p ∈ preds n, ∃ j < i, InLayer layers j p := by
    intro i n hn p hp
    exact mem_flatten_take.1 (by simpa using (h.inLayer_iff.1 hn).2.2.2 p hp)
  have hacyclic : ∀ i n, InLayer layers i n → ¬BehindCycle preds n := by
    intro i
    induction i using Nat.strong_induction_on with
    | _ i ih =>
      intro n hn hcycle
      obtain ⟨p, hp, hcycle⟩ := hcycle.exists_next
      obtain ⟨j, hj, hlayer⟩ := hlater i n hn p hp
      exact ih j hj p hlayer hcycle
  refine ⟨by simpa using h.nodup nodup_nil, fun n => ⟨fun hn => ?_, fun hn => ?_⟩, hlater, ?_⟩
  · obtain ⟨i, hi⟩ := mem_flatten_iff_inLayer.1 hn
    exact ⟨(h.inLayer_iff.1 hi).2.1, hacyclic i n hi⟩
  · by_contra hmissing
    classical
    refine hn.2 (@behindCycle_of_forall_exists_next _ _ (nodes.filter fun m => m ∉ layers.flatten) ?_ n ?_)
    · intro m hm
      rw [mem_filter, decide_eq_true_eq] at hm
      by_contra hnone
      push Not at hnone
      refine hm.2 (h.closed hm.1 fun p hp => ?_)
      by_contra hpred
      exact hnone p hp (mem_filter.2 ⟨hclosed m hm.1 p hp, decide_eq_true hpred⟩)
    · exact mem_filter.2 ⟨hn.1, decide_eq_true hmissing⟩
  · intro i n hn k hk
    by_contra hearlier
    rw [not_le] at hearlier
    obtain ⟨hlen, hnode, hnew, -⟩ := h.inLayer_iff.1 hn
    rw [nil_append] at hnew
    refine hnew (mem_flatten_take.2 ?_)
    by_cases hin : n ∈ (layers.take k).flatten
    · obtain ⟨j, hj, hlayer⟩ := mem_flatten_take.1 hin
      exact ⟨j, hj.trans hearlier, hlayer⟩
    · exact ⟨k, hearlier, h.inLayer_iff.2 ⟨hearlier.trans hlen, hnode, by simpa using hin,
        fun p hp => by simpa using mem_flatten_take.2 (hk p hp)⟩⟩

end Kahn
