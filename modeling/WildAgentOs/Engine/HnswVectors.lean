import WildAgentOs.Engine.HnswRecall

/-!
# The vectors of the index

What the engine relies on in its index, whatever its size: the calls on a sound index do not
panic and keep it sound, and each of them changes the vector of its own id only.

* `Rooted`;
* `Entered`: the same without the id that stands for no entry; `Entered.insert`, `Entered.remove`,
  `Entered.importNodes`;
* `Relinked`;
* `vectorAt`: the vector of the node of an id; `vectorAt_insert`, `vectorAt_remove`,
  `vectorAt_importNodes`, for any index.
-/

namespace WildAgentOs.Engine

open Option IncrementalHNSW

/-- A node without its links. -/
def Node.unlinked (n : Node) : EmbeddingVector × ℕ := (n.vector, n.level)

namespace IncrementalHNSW

variable {env : HnswEnv} {dim : ℕ} {idx idx' : IncrementalHNSW} {live : Finset UInt32}

/-! ### Calls that do not panic -/

/-- A sound index that is entered at a live node, unless its entry point is that of an empty index. -/
structure Rooted (env : HnswEnv) (dim : ℕ) (idx : IncrementalHNSW) (live : Finset UInt32) :
    Prop extends Sound env dim idx live where
  entry : idx.entryPoint = noEntry ∨ idx.entryPoint ∈ live

/-- A sound index that is entered at a live node, unless it is empty. -/
structure Entered (env : HnswEnv) (dim : ℕ) (idx : IncrementalHNSW) (live : Finset UInt32) :
    Prop extends Sound env dim idx live where
  noEntry_notMem : noEntry ∉ live
  entry : (live = ∅ ∧ idx.entryPoint = noEntry) ∨ idx.entryPoint ∈ live

theorem entered_new (config : HnswConfig) : Entered env dim (new config) ∅ :=
  ⟨(complete_new config).toSound, Finset.notMem_empty _, .inl ⟨rfl, rfl⟩⟩

theorem Sound.with_head (h : Sound env dim idx live) (entryPoint : UInt32) (maxLayer : ℕ) :
    Sound env dim { idx with entryPoint, maxLayer } live :=
  ⟨h.contains_iff, h.admits, h.length_le, h.generation_pos, h.visited_length, h.visited_lt⟩

theorem Sound.entered_fixEntryPoint (h : Sound env dim idx live) (hmax : noEntry ∉ live) :
    Entered env dim idx.fixEntryPoint live :=
  ⟨h.with_head _ _, hmax, h.fixEntryPoint_entry⟩

variable {vector : EmbeddingVector}

/-- **An insert goes through, of any id and at any level.** -/
theorem Rooted.insert (h : Rooted env dim idx live) (hv : env.metric.Admits dim vector) (id : UInt32) (level : ℕ) :
    ∃ idx', idx.insert env id vector level = some idx' ∧ Sound env dim idx' (Insert.insert id live) ∧
      idx'.entryPoint ∈ Insert.insert id live := by
  have hsound := h.toSound.place hv id level
  have hidlive : id ∈ Insert.insert id live := Finset.mem_insert_self id live
  by_cases hne : idx.entryPoint = noEntry
  · exact ⟨_, if_pos hne, hsound.with_head id level, hidlive⟩
  · have hentry' : (idx.place id vector level).entryPoint ∈ Insert.insert id live :=
      Finset.mem_insert_of_mem (h.entry.resolve_left hne)
    have hne' : (idx.place id vector level).entryPoint ≠ noEntry := hne
    obtain ⟨n, hn⟩ := hsound.node hentry'
    have hslot : (idx.place id vector level).nodes[(idx.place id vector level).entryPoint.toNat]? = some (some n) :=
      join_eq_some_iff.1 hn
    obtain ⟨idx₁, e, hrun₁, he, h₁, -, hhead₁⟩ :=
      hsound.connectUpper hidlive hentry' (fun l _ => closedAt_live _ _ l) level n.level
    obtain ⟨idx₂, e₂, hrun₂, -, h₂, -, hhead₂⟩ := h₁.connect (closedAt_live idx₁ _ 0) hidlive he
    have hentry₂ : idx₂.entryPoint ∈ Insert.insert id live := by
      rw [(hhead₁.trans hhead₂).entryPoint]
      exact hentry'
    refine ⟨if n.level < level then { idx₂ with entryPoint := id, maxLayer := level } else idx₂, ?_, ?_⟩
    · simp [IncrementalHNSW.insert, hne', hslot, hrun₁, hrun₂]
    · split_ifs
      · exact ⟨h₂.with_head id level, hidlive⟩
      · exact ⟨h₂, hentry₂⟩

theorem Sound.rooted_fixEntryPoint (h : Sound env dim idx live) : Rooted env dim idx.fixEntryPoint live :=
  ⟨h.with_head _ _, h.fixEntryPoint_entry.imp_left And.right⟩

theorem Rooted.remove (h : Rooted env dim idx live) (id : UInt32) : Rooted env dim (idx.remove id) (live.erase id) := by
  have hsound := h.toSound.clear id
  unfold IncrementalHNSW.remove
  by_cases heq : idx.entryPoint = id
  · rw [if_pos heq]
    exact hsound.rooted_fixEntryPoint
  · rw [if_neg heq]
    exact ⟨hsound.with_head _ _, h.entry.imp_right fun hentry => Finset.mem_erase.2 ⟨heq, hentry⟩⟩

/-- An export imported into any sound index. -/
theorem Sound.rooted_importNodes (h : Sound env dim idx live) {target : IncrementalHNSW} {old : Finset UInt32}
    (htarget : Sound env dim target old) : Rooted env dim (target.importNodes env idx.exportNodes) live := by
  have hsound : Sound env dim (target.importNodes env idx.exportNodes) live :=
    h.importNodes htarget.generation_pos htarget.visited_lt
  exact ⟨hsound, hsound.fixEntryPoint_entry.imp_left And.right⟩

theorem Entered.rooted (h : Entered env dim idx live) : Rooted env dim idx live :=
  ⟨h.toSound, h.entry.imp_left And.right⟩

variable {id : UInt32}

section

variable (h : Entered env dim idx live)
include h

/-- An insert into an entered index goes through, at any level. -/
theorem Entered.insert
    (hv : env.metric.Admits dim vector) (hid : id ≠ noEntry) (level : ℕ) :
    ∃ idx', idx.insert env id vector level = some idx' ∧ Entered env dim idx' (Insert.insert id live) := by
  obtain ⟨idx', hrun, hsound, hentry⟩ := h.rooted.insert hv id level
  refine ⟨idx', hrun, hsound, ?_, .inr hentry⟩
  rw [Finset.mem_insert, not_or]
  exact ⟨hid.symm, h.noEntry_notMem⟩

theorem Entered.remove (id : UInt32) :
    Entered env dim (idx.remove id) (live.erase id) := by
  have hsound := h.toSound.clear id
  have hmax : noEntry ∉ live.erase id := fun hmem =>
    h.noEntry_notMem (Finset.mem_of_mem_erase hmem)
  unfold IncrementalHNSW.remove
  by_cases heq : idx.entryPoint = id
  · rw [if_pos heq]
    exact hsound.entered_fixEntryPoint hmax
  · rw [if_neg heq]
    refine ⟨hsound.with_head _ _, hmax, ?_⟩
    rcases h.entry with ⟨rfl, hentry⟩ | hentry
    · exact .inl ⟨rfl, hentry⟩
    · exact .inr (Finset.mem_erase.2 ⟨heq, hentry⟩)

/-- An export imported into a fresh index. -/
theorem Entered.importNodes (config : HnswConfig) :
    Entered env dim ((new config).importNodes env idx.exportNodes) live := by
  have hsound : Sound env dim ((new config).importNodes env idx.exportNodes) live :=
    h.toSound.importNodes Nat.one_pos (by simp [new])
  exact ⟨hsound, h.noEntry_notMem, hsound.fixEntryPoint_entry⟩

end

/-! ### The vector of each node -/

/-- The vector of the node of an id. -/
def vectorAt (idx : IncrementalHNSW) (j : UInt32) : Option EmbeddingVector := (idx.node? j).map Node.vector

/-- Two indexes with the same vectors. -/
def SameVectors (idx idx' : IncrementalHNSW) : Prop := ∀ j, idx'.vectorAt j = idx.vectorAt j

theorem SameVectors.refl (idx : IncrementalHNSW) : SameVectors idx idx := fun _ => rfl

variable {idx₁ idx₂ : IncrementalHNSW}

theorem SameVectors.trans (h : SameVectors idx idx₁)
    (h' : SameVectors idx₁ idx₂) : SameVectors idx idx₂ := fun j => (h' j).trans (h j)

theorem sameVectors_of_nodes (h : idx'.nodes = idx.nodes) : SameVectors idx idx' := by
  intro j
  rw [vectorAt, node?, h, vectorAt, node?]

/-! ### What linking leaves as it is -/

/-- Two indexes that differ in the links of their nodes and in their visit tags at most. -/
structure Relinked (idx idx' : IncrementalHNSW) : Prop extends SameHead idx idx' where
  nodes : idx'.nodes.map (Option.map Node.unlinked) = idx.nodes.map (Option.map Node.unlinked)

theorem Relinked.refl (idx : IncrementalHNSW) : Relinked idx idx := ⟨.refl idx, rfl⟩

theorem Relinked.trans (h : Relinked idx idx₁) (h' : Relinked idx₁ idx₂) :
    Relinked idx idx₂ := ⟨h.toSameHead.trans h'.toSameHead, h'.nodes.trans h.nodes⟩

theorem Relinked.node? (h : Relinked idx idx') (j : UInt32) :
    (idx'.node? j).map Node.unlinked = (idx.node? j).map Node.unlinked := by
  have hslot := congrArg (fun slots => (slots[j.toNat]?).join) h.nodes
  simp only [List.getElem?_map, join_map_eq_map_join] at hslot
  exact hslot

theorem Relinked.sameVectors (h : Relinked idx idx') : SameVectors idx idx' := by
  intro j
  have hnode := congrArg (Option.map Prod.fst) (h.node? j)
  rwa [Option.map_map, Option.map_map] at hnode

theorem Relinked.length (h : Relinked idx idx') : idx'.nodes.length = idx.nodes.length := by
  simpa using congrArg List.length h.nodes

theorem relinked_setNeighbors (idx : IncrementalHNSW) (i : UInt32) (ids : List UInt32) (layer : ℕ) :
    Relinked idx (idx.modifyNode i (Node.setNeighbors ids layer)) := by
  refine ⟨⟨rfl, rfl, rfl⟩, List.ext_getElem? fun k => ?_⟩
  have hkeeps : Node.unlinked ∘ Node.setNeighbors ids layer = Node.unlinked := by
    funext n
    cases layer <;> rfl
  simp only [modifyNode, List.getElem?_map, List.getElem?_modify]
  cases idx.nodes[k]? with
  | none => rfl
  | some slot =>
    by_cases hk : i.toNat = k
    · simp [hk, hkeeps]
    · simp [hk]

variable {layer m : ℕ}

theorem relinked_addBacklink {nid id : UInt32}
    (h : idx.addBacklink env nid id layer m = some idx') : Relinked idx idx' := by
  unfold addBacklink at h
  split at h
  · cases h
    exact .refl idx
  · obtain ⟨sorted, -, h⟩ := bind_eq_some_iff.1 h
    cases h
    exact relinked_setNeighbors idx nid _ layer

variable {ids : List UInt32}

theorem relinked_addBacklinks
    (h : ids.foldlM (fun idx nid => idx.addBacklink env nid id layer m) idx = some idx') : Relinked idx idx' := by
  induction ids generalizing idx with
  | nil =>
    cases h
    exact .refl _
  | cons nid ids ih =>
    obtain ⟨idx₁, h₁, h⟩ := bind_eq_some_iff.1 h
    exact (relinked_addBacklink h₁).trans (ih h)

variable {layer ef : ℕ}

theorem relinked_searchLayer {entry : UInt32} {query : EmbeddingVector} {results : List (UInt32 × F64)}
    (h : idx.searchLayer env layer entry query ef = some (results, idx')) : Relinked idx idx' := by
  unfold searchLayer at h
  simp only at h
  split_ifs at h
  · obtain ⟨b, -, h⟩ := bind_eq_some_iff.1 h
    cases h
    exact ⟨⟨rfl, rfl, rfl⟩, rfl⟩
  · cases h
    exact ⟨⟨rfl, rfl, rfl⟩, rfl⟩

theorem relinked_searchLayerTopK {entry queryId : UInt32}
    (h : idx.searchLayerTopK env layer entry queryId ef = some (ids, idx')) : Relinked idx idx' := by
  unfold searchLayerTopK at h
  split at h
  · obtain ⟨⟨results, idx₁⟩, h₁, h⟩ := bind_eq_some_iff.1 h
    cases h
    exact relinked_searchLayer h₁
  · cases h
    exact ⟨⟨rfl, rfl, rfl⟩, rfl⟩

variable {id e e' : UInt32}

theorem relinked_connect {layer : ℕ} (h : connect env id (idx, e) layer = some (idx', e')) : Relinked idx idx' := by
  unfold connect at h
  obtain ⟨⟨nearest, idx₁⟩, h₁, h⟩ := bind_eq_some_iff.1 h
  obtain ⟨idx₂, h₂, h⟩ := bind_eq_some_iff.1 h
  cases h
  exact ((relinked_searchLayerTopK h₁).trans (relinked_setNeighbors idx₁ id _ layer)).trans
    (relinked_addBacklinks h₂)

theorem relinked_connectAll {layers : List ℕ}
    (h : layers.foldlM (connect env id) (idx, e) = some (idx', e')) : Relinked idx idx' := by
  induction layers generalizing idx e with
  | nil =>
    cases h
    exact .refl _
  | cons layer layers ih =>
    obtain ⟨⟨idx₁, e₁⟩, h₁, h⟩ := bind_eq_some_iff.1 h
    exact (relinked_connect h₁).trans (ih h)

theorem relinked_connectUpper {id e : UInt32} {level epLevel : ℕ}
    (h : idx.connectUpper env id level epLevel = some (idx', e)) : Relinked idx idx' := by
  unfold connectUpper at h
  simp only at h
  split_ifs at h
  · obtain ⟨curr, -, h⟩ := bind_eq_some_iff.1 h
    exact relinked_connectAll h
  · exact relinked_connectAll h

variable {level : ℕ}

/-- **What an insert can do**: it places the node, links it, and enters the index there if it is the first node or
lies above the old entry. -/
theorem insert_cases (h : idx.insert env id vector level = some idx') :
    (idx.entryPoint = noEntry ∧ idx' = { idx.place id vector level with entryPoint := id, maxLayer := level }) ∨
      idx.entryPoint ≠ noEntry ∧ ∃ slot idx₁, (idx.place id vector level).nodes[idx.entryPoint.toNat]? = some slot ∧
        Relinked (idx.place id vector level) idx₁ ∧
        idx' = if (slot.map Node.level).getD 0 < level then { idx₁ with entryPoint := id, maxLayer := level }
          else idx₁ := by
  unfold insert at h
  simp only at h
  split_ifs at h with hentry
  · exact .inl ⟨hentry, (some.inj h).symm⟩
  · obtain ⟨slot, hslot, h⟩ := bind_eq_some_iff.1 h
    obtain ⟨⟨idx₁, e₁⟩, h₁, h⟩ := bind_eq_some_iff.1 h
    obtain ⟨⟨idx₂, e₂⟩, h₂, h⟩ := bind_eq_some_iff.1 h
    exact .inr ⟨hentry, slot, idx₂, hslot, (relinked_connectUpper h₁).trans (relinked_connect h₂), (some.inj h).symm⟩

/-- **An insert changes the vector of its own id only.** -/
theorem vectorAt_insert (h : idx.insert env id vector level = some idx') (j : UInt32) :
    idx'.vectorAt j = if j = id then some vector else idx.vectorAt j := by
  have hplace : ∀ j, (idx.place id vector level).vectorAt j = if j = id then some vector else idx.vectorAt j := by
    intro j
    rw [vectorAt, node?_place]
    split_ifs <;> rfl
  rw [← hplace j]
  obtain ⟨-, rfl⟩ | ⟨-, slot, idx₁, -, hlinked, rfl⟩ := insert_cases h
  · rfl
  · rw [← hlinked.sameVectors j]
    split_ifs <;> rfl

theorem vectorAt_remove (idx : IncrementalHNSW) (id j : UInt32) :
    (idx.remove id).vectorAt j = if j = id then none else idx.vectorAt j := by
  have hnodes : (idx.remove id).nodes = idx.nodes.set id.toNat none := by
    unfold remove
    simp only
    split_ifs <;> rfl
  have hnode : (idx.remove id).node? j = node? { idx with nodes := idx.nodes.set id.toNat none } j := by
    rw [node?, hnodes, node?]
  rw [vectorAt, hnode, node?_clear]
  split_ifs <;> rfl

theorem vectorAt_importNodes (target : IncrementalHNSW) (nodes : List (Option SerializableNode)) (j : UInt32) :
    (target.importNodes env nodes).vectorAt j = (nodes[j.toNat]?).join.map fun n => n.toEmbedding env.metric.kind := by
  simp only [vectorAt, node?, importNodes, fixEntryPoint, List.getElem?_map]
  cases nodes[j.toNat]? with
  | none => rfl
  | some slot => cases slot <;> rfl

end IncrementalHNSW

end WildAgentOs.Engine
