import WildAgentOs.Engine.Hnsw

/-!
# Small collections in the HNSW index

As long as at most `m0` ids are live, no neighbour list of layer 0 is ever truncated.

* `Sound`;
* `Complete`: every live node links every other one in layer 0;
-/

namespace WildAgentOs.Engine

open GraphSearch GraphSearch.Space List

namespace IncrementalHNSW

variable {env : HnswEnv} {dim : ℕ} {idx : IncrementalHNSW} {live : Finset UInt32}

/-- The nodes of the index are those of the live ids, with vectors the metric admits, and its
visit tags lie behind its generation. -/
structure Sound (env : HnswEnv) (dim : ℕ) (idx : IncrementalHNSW) (live : Finset UInt32) : Prop where
  contains_iff : ∀ i, idx.contains i = true ↔ i ∈ live
  admits : ∀ i n, idx.node? i = some n → env.metric.Admits dim n.vector
  length_le : idx.nodes.length ≤ 2 ^ 32
  generation_pos : 0 < idx.generation
  visited_length : idx.nodes.length ≤ idx.visitedGen.length
  visited_lt : ∀ g ∈ idx.visitedGen, g < idx.generation

/-! ### Nodes -/

variable {i : UInt32}

theorem contains_iff_node? : idx.contains i = true ↔ ∃ n, idx.node? i = some n := by
  rw [contains, Option.isSome_iff_exists]

theorem lt_length_of_node? {n : Node} (h : idx.node? i = some n) : i.toNat < idx.nodes.length := by
  by_contra hle
  rw [node?, getElem?_eq_none (by omega)] at h
  cases h

theorem Sound.node (h : Sound env dim idx live) (hi : i ∈ live) : ∃ n, idx.node? i = some n :=
  contains_iff_node?.1 ((h.contains_iff i).2 hi)

theorem Sound.lt_length (h : Sound env dim idx live) (hi : i ∈ live) : i.toNat < idx.nodes.length := by
  obtain ⟨n, hn⟩ := h.node hi
  exact lt_length_of_node? hn

theorem Sound.card_le (h : Sound env dim idx live) : live.card ≤ idx.nodes.length := by
  have hinj : Set.InjOn UInt32.toNat live := fun i _ j _ hij => UInt32.toNat_inj.1 hij
  rw [← Finset.card_image_of_injOn hinj]
  calc (live.image UInt32.toNat).card ≤ (Finset.range idx.nodes.length).card := by
        apply Finset.card_le_card
        intro k hk
        obtain ⟨i, hi, rfl⟩ := Finset.mem_image.1 hk
        exact Finset.mem_range.2 (h.lt_length hi)
    _ = idx.nodes.length := Finset.card_range _

/-- The raw neighbour list of an id in a layer. -/
def links (idx : IncrementalHNSW) (layer : ℕ) (i : UInt32) : List UInt32 :=
  ((idx.node? i).map fun n => n.neighbors layer).getD []

variable {layer : ℕ}

/-- A neighbour list as a reader sees it holds live ids. -/
theorem Sound.mem_getNeighbors (h : Sound env dim idx live) {i j : UInt32} :
    j ∈ idx.getNeighbors i layer ↔ j ∈ live ∧ j ∈ idx.links layer i := by
  unfold getNeighbors links
  cases idx.node? i with
  | none => simp
  | some n => simp [mem_filter, h.contains_iff, and_comm]

theorem getNeighbors_sublist (idx : IncrementalHNSW) (i : UInt32) (layer : ℕ) :
    (idx.getNeighbors i layer).Sublist (idx.links layer i) := by
  unfold getNeighbors links
  cases idx.node? i with
  | none => exact .slnil
  | some n => exact filter_sublist

/-- Live ids that a search of the layer does not leave. -/
structure ClosedAt (idx : IncrementalHNSW) (live : Finset UInt32) (layer : ℕ)
    (U : Finset UInt32) : Prop where
  subset : U ⊆ live
  links_mem : ∀ i ∈ U, ∀ j ∈ live, j ∈ idx.links layer i → j ∈ U

theorem closedAt_live (idx : IncrementalHNSW) (live : Finset UInt32) (layer : ℕ) :
    ClosedAt idx live layer live := ⟨Finset.Subset.refl live, fun _ _ _ hj _ => hj⟩

variable {U : Finset UInt32}

theorem ClosedAt.congr (h : ClosedAt idx live layer U) {idx' : IncrementalHNSW}
    (hlinks : ∀ a, idx'.links layer a = idx.links layer a) : ClosedAt idx' live layer U :=
  ⟨h.subset, fun i hi j hj hlink => h.links_mem i hi j hj (hlinks i ▸ hlink)⟩

/-! ### Searches in one layer -/

variable {entry : UInt32}

section
variable {query : EmbeddingVector} {layer gen : ℕ} {U : Finset UInt32}

theorem Sound.space_closed (h : Sound env dim idx live) (hq : env.metric.Admits dim query)
    (hU : ClosedAt idx live layer U) (gen : ℕ) : (idx.space env layer query gen).Closed U where
  neighbors_mem := fun i hi j hj => by
    obtain ⟨hlive, hlink⟩ := h.mem_getNeighbors.1 hj
    exact hU.links_mem i hi j hlive hlink
  dist_some := fun i hi => by
    obtain ⟨n, hn⟩ := h.node (hU.subset hi)
    exact ⟨env.metric.value query n.vector,
      by simp [space, hn, Metric.distance_some hq (h.admits i n hn)]⟩

theorem space_strictLt (idx : IncrementalHNSW) (layer gen : ℕ) :
    (idx.space env layer query gen).StrictLt := ⟨F64.lt_irrefl, F64.lt_trans⟩

theorem space_places (idx : IncrementalHNSW) (layer gen : ℕ) : (idx.space env layer query gen).Places := env.position_le

/-- Tags that reach beyond the nodes and do not lie ahead of `gen`. -/
def Tags (idx : IncrementalHNSW) (gen : ℕ) (v : List ℕ) : Prop := idx.nodes.length ≤ v.length ∧ ∀ g ∈ v, g ≤ gen

theorem Sound.space_marks (h : Sound env dim idx live) (hU : U ⊆ live) (layer gen : ℕ) :
    (idx.space env layer query gen).Marks U (idx.Tags gen) where
  ok_mark := fun v i hv => by
    refine ⟨by simpa [space] using hv.1, fun g hg => ?_⟩
    rcases mem_or_eq_of_mem_set hg with hg | rfl
    · exact hv.2 g hg
    · exact le_rfl
  seen_mark := fun v hv i hi j => by
    have hlt : i.toNat < v.length := (h.lt_length (hU hi)).trans_le hv.1
    simp only [space, beq_iff_eq, getElem?_set, UInt32.toNat_inj]
    rcases eq_or_ne i j with rfl | hne
    · simp [hlt]
    · simp [hne, hne.symm]

/-- A descent in one layer stays in a closed set. -/
theorem Sound.searchLayerSingleExternal (h : Sound env dim idx live) (hq : env.metric.Admits dim query)
    (hU : ClosedAt idx live layer U) (hentry : entry ∈ U) :
    ∃ e ∈ U, idx.searchLayerSingleExternal env layer entry query = some e := by
  have hfuel : U.card < idx.nodes.length + 1 := Nat.lt_succ_of_le ((Finset.card_le_card hU.subset).trans h.card_le)
  obtain ⟨e, he, hrun⟩ := greedy_mem (h.space_closed hq hU 0) (space_strictLt idx layer 0) hentry hfuel
  refine ⟨e, he, ?_⟩
  rw [IncrementalHNSW.searchLayerSingleExternal, if_pos ((h.contains_iff entry).2 (hU.subset hentry)), hrun]

/-- The outcome of a beam search in a closed set: results in the set, and, where the beam is as
wide as the set is large, distinct ones that miss neither the entry nor a neighbour of it. -/
structure Found (idx : IncrementalHNSW) (U : Finset UInt32) (layer ef : ℕ) (entry : UInt32)
    (found : List UInt32) : Prop where
  mem : ∀ i ∈ found, i ∈ U
  ne_nil : found ≠ []
  wide : U.card ≤ ef → found.Nodup ∧ entry ∈ found ∧ ∀ i ∈ idx.getNeighbors entry layer, i ∈ found

/-- A beam search changes the visit tags and the generation only. -/
theorem Sound.searchLayer (h : Sound env dim idx live) (hq : env.metric.Admits dim query)
    (hU : ClosedAt idx live layer U) (hentry : entry ∈ U) (ef : ℕ) :
    ∃ results visited,
      idx.searchLayer env layer entry query ef =
        some (results, { idx with generation := idx.generation + 1, visitedGen := visited }) ∧
      Sound env dim { idx with generation := idx.generation + 1, visitedGen := visited } live ∧
      Found idx U layer ef entry (results.map Prod.fst) := by
  have hv : idx.Tags idx.generation idx.visitedGen := ⟨h.visited_length, fun g hg => (h.visited_lt g hg).le⟩
  have hfuel : U.card + 1 < idx.nodes.length + 2 := by
    have := (Finset.card_le_card hU.subset).trans h.card_le
    omega
  obtain ⟨b, hrun, hinv, hwide⟩ :=
    beam_inv (w := ef) (h.space_closed hq hU idx.generation)
      (space_places idx layer idx.generation) (h.space_marks hU.subset layer idx.generation)
      F64.lt_irrefl hv hentry hfuel
  have hlive : entry ∈ live := hU.subset hentry
  have hfresh : ∀ i ∈ U, (idx.space env layer query idx.generation).seen idx.visitedGen i = false := by
    intro i _
    simp only [space, beq_eq_false_iff_ne, ne_eq]
    intro hseen
    exact absurd (h.visited_lt _ (mem_of_getElem? hseen)) (lt_irrefl _)
  have hlt : entry.toNat < idx.visitedGen.length := (h.lt_length hlive).trans_le h.visited_length
  have hcontains : idx.contains entry = true := (h.contains_iff entry).2 hlive
  refine ⟨b.results, b.visited, ?_, ?_, ?_⟩
  · have hc : IncrementalHNSW.contains { idx with generation := idx.generation + 1 } entry = true :=
      hcontains
    have hb : (IncrementalHNSW.space env { idx with generation := idx.generation + 1 } layer query
        idx.generation).beam ef (idx.nodes.length + 2) entry idx.visitedGen = some b := hrun
    simp [IncrementalHNSW.searchLayer, hc, hlt, hb]
  · refine ⟨h.contains_iff, h.admits, h.length_le, Nat.succ_pos _, hinv.visited_ok.1, fun g hg => ?_⟩
    exact Nat.lt_succ_of_le (hinv.visited_ok.2 g hg)
  · refine ⟨hinv.results_mem, by simpa using hinv.results_ne, fun hw => ?_⟩
    obtain ⟨hfull, hmem, hall⟩ := hwide hw hfresh
    exact ⟨hfull.nodup, hmem, hall⟩

end

/-! ### Writing a neighbour list -/

theorem node?_modifyNode (idx : IncrementalHNSW) (i : UInt32) (f : Node → Node) (j : UInt32) :
    (idx.modifyNode i f).node? j = if j = i then (idx.node? i).map f else idx.node? j := by
  simp only [node?, modifyNode, getElem?_modify, UInt32.toNat_inj]
  rcases eq_or_ne j i with rfl | hne
  · simp only [if_pos]
    cases idx.nodes[j.toNat]? with
    | none => rfl
    | some slot => cases slot <;> rfl
  · simp only [hne.symm, if_false, hne]
    cases idx.nodes[j.toNat]? <;> rfl

theorem setNeighbors_vector (ids : List UInt32) (layer : ℕ) (n : Node) :
    (n.setNeighbors ids layer).vector = n.vector := by
  cases layer <;> rfl

theorem contains_modifyNode (idx : IncrementalHNSW) (i : UInt32) (f : Node → Node) (j : UInt32) :
    (idx.modifyNode i f).contains j = idx.contains j := by
  simp only [contains, node?_modifyNode]
  split_ifs with hj
  · rw [hj, Option.isSome_map]
  · rfl

theorem Sound.modifyNode (h : Sound env dim idx live) (i : UInt32) {f : Node → Node}
    (hf : ∀ n, (f n).vector = n.vector) : Sound env dim (idx.modifyNode i f) live where
  contains_iff := fun j => by rw [contains_modifyNode, h.contains_iff]
  admits := fun j n hn => by
    rw [node?_modifyNode] at hn
    split_ifs at hn with hj
    · obtain ⟨n', hn', rfl⟩ := Option.map_eq_some_iff.1 hn
      rw [hf]
      exact h.admits i n' hn'
    · exact h.admits j n hn
  length_le := by simpa [IncrementalHNSW.modifyNode] using h.length_le
  generation_pos := h.generation_pos
  visited_length := by simpa [IncrementalHNSW.modifyNode] using h.visited_length
  visited_lt := h.visited_lt

variable {layer l : ℕ}

theorem neighbors_setNeighbors_ne (hne : l ≠ layer) (ids : List UInt32) (n : Node) :
    (n.setNeighbors ids layer).neighbors l = n.neighbors l := by
  cases layer <;> cases l <;>
    simp_all [Node.setNeighbors, Node.neighbors, getElem?_set_ne, ne_comm]

theorem links_modifyNode (idx : IncrementalHNSW) (i : UInt32) (f : Node → Node) (l : ℕ) (j : UInt32) :
    (idx.modifyNode i f).links l j =
      if j = i then ((idx.node? i).map fun n => (f n).neighbors l).getD [] else idx.links l j := by
  simp only [links, node?_modifyNode]
  split_ifs
  · rw [Option.map_map]
    rfl
  · rfl

theorem links_setNeighbors_zero (hi : idx.contains i = true) (ids : List UInt32) (j : UInt32) :
    (idx.modifyNode i (Node.setNeighbors ids 0)).links 0 j = if j = i then ids else idx.links 0 j := by
  obtain ⟨n, hn⟩ := contains_iff_node?.1 hi
  rw [links_modifyNode, hn]
  rfl

/-- Writing the list of one layer leaves those of the other layers. -/
theorem links_setNeighbors_ne (hne : l ≠ layer) (i : UInt32) (ids : List UInt32) (j : UInt32) :
    (idx.modifyNode i (Node.setNeighbors ids layer)).links l j = idx.links l j := by
  rw [links_modifyNode]
  split_ifs with hj
  · simp only [neighbors_setNeighbors_ne hne, hj, links]
  · rfl

/-- The parts of the index that linking does not touch. -/
structure SameHead (idx idx' : IncrementalHNSW) : Prop where
  entryPoint : idx'.entryPoint = idx.entryPoint
  maxLayer : idx'.maxLayer = idx.maxLayer
  config : idx'.config = idx.config

theorem SameHead.refl (idx : IncrementalHNSW) : SameHead idx idx := ⟨rfl, rfl, rfl⟩

theorem SameHead.trans {idx idx₁ idx₂ : IncrementalHNSW} (h : SameHead idx idx₁)
    (h' : SameHead idx₁ idx₂) : SameHead idx idx₂ :=
  ⟨h'.entryPoint.trans h.entryPoint, h'.maxLayer.trans h.maxLayer, h'.config.trans h.config⟩

/-! ### Backlinks -/

theorem Sound.sortByDistance (h : Sound env dim idx live) {source : EmbeddingVector}
    (hs : env.metric.Admits dim source) {ids : List UInt32} (hids : ∀ i ∈ ids, i ∈ live) :
    ∃ sorted, idx.sortByDistance env source ids = some sorted ∧ sorted.Perm ids := by
  obtain ⟨keyed, hkeyed, hfst⟩ : ∃ keyed,
      (ids.mapM fun i => do
        let n ← idx.node? i
        let d ← env.metric.distance source n.vector
        some (i, d)) = some keyed ∧ keyed.map Prod.fst = ids := by
    induction ids with
    | nil => exact ⟨[], rfl, rfl⟩
    | cons i ids ih =>
      obtain ⟨keyed, hkeyed, hfst⟩ := ih fun j hj => hids j (mem_cons_of_mem i hj)
      obtain ⟨n, hn⟩ := h.node (hids i mem_cons_self)
      have hd := Metric.distance_some hs (h.admits i n hn)
      refine ⟨(i, env.metric.value source n.vector) :: keyed, ?_, by rw [map_cons, hfst]⟩
      rw [mapM_cons, hkeyed]
      simp [hn, hd]
  refine ⟨_, by rw [IncrementalHNSW.sortByDistance, hkeyed]; rfl, ?_⟩
  rw [← hfst]
  exact (perm_insertionSort _ keyed).map Prod.fst

/-- What a backlink writes: the neighbours a reader sees and the new id, sorted and cut off. -/
theorem Sound.addBacklink (h : Sound env dim idx live) {nid id : UInt32} (hnid : nid ∈ live)
    (hid : id ∈ live) (layer maxNeighbors : ℕ) :
    ∃ sorted : List UInt32,
      idx.addBacklink env nid id layer maxNeighbors =
        some (idx.modifyNode nid (Node.setNeighbors (sorted.take maxNeighbors) layer)) ∧
      sorted.Perm (if id ∈ idx.getNeighbors nid layer then idx.getNeighbors nid layer
        else idx.getNeighbors nid layer ++ [id]) := by
  obtain ⟨source, hsource⟩ := h.node hnid
  have hids : ∀ i ∈ (if id ∈ idx.getNeighbors nid layer then idx.getNeighbors nid layer
      else idx.getNeighbors nid layer ++ [id]), i ∈ live := by
    intro i hi
    split_ifs at hi
    · exact (h.mem_getNeighbors.1 hi).1
    · rcases mem_append.1 hi with hi | hi
      · exact (h.mem_getNeighbors.1 hi).1
      · exact mem_singleton.1 hi ▸ hid
  obtain ⟨sorted, hsorted, hperm⟩ := h.sortByDistance (h.admits nid source hsource) hids
  refine ⟨sorted, ?_, hperm⟩
  simp [IncrementalHNSW.addBacklink, hsource, hsorted]

/-- Every live id is linked from every other one, except that `id` may be missing from the
lists of ids that are not in `done`. -/
def LinkedBut (idx : IncrementalHNSW) (live : Finset UInt32) (id : UInt32) (done : List UInt32) : Prop :=
  ∀ a ∈ live, (idx.links 0 a).Nodup ∧ ∀ b ∈ live, b ≠ a → (b ≠ id ∨ a ∈ done) → b ∈ idx.links 0 a

variable {m0 : ℕ}

/-- A backlink of layer 0 in a small index drops nothing. -/
theorem LinkedBut.addBacklink {id nid : UInt32} {done : List UInt32}
    (hlinked : LinkedBut idx live id done) (h : Sound env dim idx live) (hid : id ∈ live)
    (hnid : nid ∈ live) (hcard : live.card ≤ m0) :
    ∃ idx', idx.addBacklink env nid id 0 m0 = some idx' ∧ Sound env dim idx' live ∧
      LinkedBut idx' live id (nid :: done) ∧ SameHead idx idx' := by
  obtain ⟨sorted, hrun, hperm⟩ := h.addBacklink hnid hid 0 m0
  have hnodup : (idx.getNeighbors nid 0).Nodup := (getNeighbors_sublist idx nid 0).nodup (hlinked nid hnid).1
  have hmem : ∀ b, b ∈ sorted ↔ b = id ∨ b ∈ idx.getNeighbors nid 0 := by
    intro b
    rw [hperm.mem_iff]
    split_ifs with hin
    · exact ⟨.inr, fun hb => hb.elim (fun heq => heq ▸ hin) fun hb => hb⟩
    · rw [mem_append, mem_singleton, or_comm]
  have hsorted : sorted.Nodup := by
    rw [hperm.nodup_iff]
    split_ifs with hin
    · exact hnodup
    · exact nodup_append.2 ⟨hnodup, nodup_singleton id, by
        intro a ha b hb hab
        exact hin (mem_singleton.1 hb ▸ hab ▸ ha)⟩
  -- Distinct live ids: they fit the list.
  have hlen : sorted.length ≤ m0 := by
    rw [← toFinset_card_of_nodup hsorted]
    refine (Finset.card_le_card fun b hb => ?_).trans hcard
    rcases (hmem b).1 (mem_toFinset.1 hb) with rfl | hb
    · exact hid
    · exact (h.mem_getNeighbors.1 hb).1
  rw [take_of_length_le hlen] at hrun
  refine ⟨_, hrun, h.modifyNode nid (setNeighbors_vector sorted 0), ?_, ⟨rfl, rfl, rfl⟩⟩
  intro a ha
  rw [links_setNeighbors_zero ((h.contains_iff nid).2 hnid)]
  split_ifs with hanid
  · refine ⟨hsorted, fun b hb hne _ => ?_⟩
    rw [hmem]
    by_cases hbid : b = id
    · exact .inl hbid
    · refine .inr (h.mem_getNeighbors.2 ⟨hb, ?_⟩)
      exact (hlinked nid hnid).2 b hb (hanid ▸ hne) (.inl hbid)
  · refine ⟨(hlinked a ha).1, fun b hb hne hor => (hlinked a ha).2 b hb hne ?_⟩
    exact hor.imp_right fun hdone => (mem_cons.1 hdone).resolve_left hanid

variable {id : UInt32}

theorem LinkedBut.addBacklinks {done l : List UInt32}
    (hlinked : LinkedBut idx live id done) (h : Sound env dim idx live) (hid : id ∈ live)
    (hl : ∀ nid ∈ l, nid ∈ live) (hcard : live.card ≤ m0) :
    ∃ idx', l.foldlM (fun idx nid => idx.addBacklink env nid id 0 m0) idx = some idx' ∧
      Sound env dim idx' live ∧ LinkedBut idx' live id (l.reverse ++ done) ∧ SameHead idx idx' := by
  induction l generalizing idx done with
  | nil => exact ⟨idx, rfl, h, hlinked, .refl idx⟩
  | cons nid l ih =>
    obtain ⟨idx₁, hrun₁, h₁, hlinked₁, hhead₁⟩ := hlinked.addBacklink h hid (hl nid mem_cons_self) hcard
    obtain ⟨idx₂, hrun₂, h₂, hlinked₂, hhead₂⟩ := ih hlinked₁ h₁ fun j hj => hl j (mem_cons_of_mem nid hj)
    refine ⟨idx₂, by simp [foldlM_cons, hrun₁, hrun₂], h₂, ?_, hhead₁.trans hhead₂⟩
    simpa using hlinked₂

/-- `idx'` has the same lists as `idx` in all layers but one. -/
def SameLinksBut (layer : ℕ) (idx idx' : IncrementalHNSW) : Prop := ∀ l, l ≠ layer → ∀ a, idx'.links l a = idx.links l a

/-- Backlinks of one layer do not touch the others. -/
theorem Sound.addBacklinks (h : Sound env dim idx live) (hid : id ∈ live)
    {l : List UInt32} (hl : ∀ nid ∈ l, nid ∈ live) (layer m : ℕ) :
    ∃ idx', l.foldlM (fun idx nid => idx.addBacklink env nid id layer m) idx = some idx' ∧
      Sound env dim idx' live ∧ SameLinksBut layer idx idx' ∧ SameHead idx idx' := by
  induction l generalizing idx with
  | nil => exact ⟨idx, rfl, h, fun _ _ _ => rfl, .refl idx⟩
  | cons nid l ih =>
    obtain ⟨sorted, hrun₁, -⟩ := h.addBacklink (hl nid mem_cons_self) hid layer m
    have h₁ := h.modifyNode nid (setNeighbors_vector (sorted.take m) layer)
    obtain ⟨idx₂, hrun₂, h₂, hlinks₂, hhead₂⟩ := ih h₁ fun j hj => hl j (mem_cons_of_mem nid hj)
    refine ⟨idx₂, by simp [foldlM_cons, hrun₁, hrun₂], h₂, fun k hk a => ?_,
      ⟨hhead₂.entryPoint, hhead₂.maxLayer, hhead₂.config⟩⟩
    rw [hlinks₂ k hk, links_setNeighbors_ne hk]

/-! ### Connecting a layer -/

theorem Sound.searchLayerTopK (h : Sound env dim idx live)
    (hU : ClosedAt idx live layer U) {id entry : UInt32} (hid : id ∈ live) (hentry : entry ∈ U)
    (ef : ℕ) :
    ∃ found visited,
      idx.searchLayerTopK env layer entry id ef =
        some (found, { idx with generation := idx.generation + 1, visitedGen := visited }) ∧
      Sound env dim { idx with generation := idx.generation + 1, visitedGen := visited } live ∧
      Found idx U layer ef entry found := by
  obtain ⟨n, hn⟩ := h.node hid
  obtain ⟨results, visited, hrun, hsound, hfound⟩ := h.searchLayer (h.admits id n hn) hU hentry ef
  exact ⟨results.map Prod.fst, visited, by simp [IncrementalHNSW.searchLayerTopK, hn, hrun],
    hsound, hfound⟩

theorem Found.headD_mem {layer ef : ℕ} {found : List UInt32}
    (h : Found idx U layer ef entry found) : found.headD entry ∈ U := by
  cases found with
  | nil => exact absurd rfl h.ne_nil
  | cons i _ => exact h.mem i mem_cons_self

variable {id curr : UInt32}

/-- Connecting a layer leaves the links of the others, and the search stays in a closed set. -/
theorem Sound.connect (h : Sound env dim idx live)
    (hU : ClosedAt idx live layer U) (hid : id ∈ live) (hcurr : curr ∈ U) :
    ∃ idx' e, IncrementalHNSW.connect env id (idx, curr) layer = some (idx', e) ∧ e ∈ U ∧
      Sound env dim idx' live ∧ SameLinksBut layer idx idx' ∧ SameHead idx idx' := by
  obtain ⟨found, visited, hrun, hsound, hfound⟩ :=
    h.searchLayerTopK hU hid hcurr (if layer = 0 then idx.config.m0 else idx.config.m)
  generalize hef : (if layer = 0 then idx.config.m0 else idx.config.m) = ef at hrun hfound
  have h₁ := hsound.modifyNode id (setNeighbors_vector (found.take ef) layer)
  have htake : ∀ j ∈ found.take ef, j ∈ live := fun j hj => hU.subset (hfound.mem j (mem_of_mem_take hj))
  obtain ⟨idx₂, hrun₂, h₂, hlinks₂, hhead₂⟩ := h₁.addBacklinks hid htake layer ef
  refine ⟨idx₂, found.headD curr, by simp [IncrementalHNSW.connect, hef, hrun, hrun₂],
    hfound.headD_mem, h₂, fun l hl a => ?_,
    ⟨hhead₂.entryPoint, hhead₂.maxLayer, hhead₂.config⟩⟩
  rw [hlinks₂ l hl, links_setNeighbors_ne hl]
  rfl

/-- Connecting layer 0, from an entry other than the new node: afterwards every live node links
every other one. -/
theorem Sound.connect_zero (h : Sound env dim idx live) (hid : id ∈ live)
    (hcurr : curr ∈ live) (hcard : live.card ≤ idx.config.m0)
    (hothers : ∀ a ∈ live, a ≠ id → (idx.links 0 a).Nodup ∧ ∀ b ∈ live, b ≠ a → b ≠ id → b ∈ idx.links 0 a)
    (hstart : (∃ b ∈ live, b ≠ id) → curr ≠ id) :
    ∃ idx' e, IncrementalHNSW.connect env id (idx, curr) 0 = some (idx', e) ∧ Sound env dim idx' live ∧
      (∀ a ∈ live, (idx'.links 0 a).Nodup ∧ ∀ b ∈ live, b ≠ a → b ∈ idx'.links 0 a) ∧
      SameHead idx idx' := by
  obtain ⟨found, visited, hrun, hsound, hfound⟩ := h.searchLayerTopK (closedAt_live idx live 0) hid hcurr idx.config.m0
  obtain ⟨hnodup, hentry, hneighbors⟩ := hfound.wide hcard
  have hall : ∀ b ∈ live, b ≠ id → b ∈ found := by
    intro b hb hbid
    by_cases hbc : b = curr
    · rwa [hbc]
    · have hlink := (hothers curr hcurr (hstart ⟨b, hb, hbid⟩)).2 b hb hbc hbid
      exact hneighbors b (h.mem_getNeighbors.2 ⟨hb, hlink⟩)
  have hlen : found.length ≤ idx.config.m0 := by
    rw [← toFinset_card_of_nodup hnodup]
    exact (Finset.card_le_card fun b hb => hfound.mem b (mem_toFinset.1 hb)).trans hcard
  have htake : found.take idx.config.m0 = found := take_of_length_le hlen
  have h₁ := hsound.modifyNode id (setNeighbors_vector found 0)
  have hlinks₁ := links_setNeighbors_zero ((hsound.contains_iff id).2 hid) found
  have hlinked₁ : LinkedBut (IncrementalHNSW.modifyNode
      { idx with generation := idx.generation + 1, visitedGen := visited } id
      (Node.setNeighbors found 0)) live id [] := by
    intro a ha
    rw [hlinks₁]
    split_ifs with haid
    · exact ⟨hnodup, fun b hb hne _ => hall b hb (haid ▸ hne)⟩
    · refine ⟨(hothers a ha haid).1, fun b hb hne hor => ?_⟩
      exact (hothers a ha haid).2 b hb hne (hor.resolve_right not_mem_nil)
  obtain ⟨idx₂, hrun₂, h₂, hlinked₂, hhead₂⟩ := hlinked₁.addBacklinks h₁ hid hfound.mem hcard
  refine ⟨idx₂, found.headD curr, ?_, h₂, fun a ha => ⟨(hlinked₂ a ha).1, fun b hb hne => ?_⟩,
    ⟨hhead₂.entryPoint, hhead₂.maxLayer, hhead₂.config⟩⟩
  · simp [IncrementalHNSW.connect, hrun, htake, hrun₂]
  · refine (hlinked₂ a ha).2 b hb hne ?_
    by_cases hbid : b = id
    · right
      have hafound : a ∈ found := hall a ha (hbid ▸ hne.symm)
      simpa using hafound
    · exact .inl hbid

end IncrementalHNSW

end WildAgentOs.Engine
