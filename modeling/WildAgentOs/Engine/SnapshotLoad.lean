import WildAgentOs.Engine.Ledger

/-!
# A snapshot is what it was taken of

Loading the snapshot of an engine into an empty memory: node by node into the store
(`get_restoreVectors`), payload by payload in whatever order the map was iterated
(`payload_restorePayloads`), and the deleted ids last (`payload_removeAll`).

* `Holds.loadSnapshot`.
-/

namespace WildAgentOs.Engine

open LittleEndian Json IncrementalHNSW HyperspaceEngine List Option EmbeddingVector Prod

namespace EngineMemory

variable {env : EngineEnv} {m : EngineMemory}

/-! ### The vectors -/

/-- The bytes the store gets for a node. -/
def nodeBytes (env : EngineEnv) (node : SerializableNode) : Bytes :=
  (EmbeddingVector.newUnchecked env.ballAlpha node.coords env.hnsw.metric.kind).asBytes

@[simp] theorem coords_newUnchecked (f : List F64 → F64) (coords : List F64) (kind : MetricKind) :
    (newUnchecked f coords kind).coords = coords := by
  cases kind <;> rfl

@[simp] theorem metric_newUnchecked (f : List F64 → F64) (coords : List F64) (kind : MetricKind) :
    (newUnchecked f coords kind).metric = kind := by
  cases kind <;> rfl

variable {store : VectorStore} {k : ℕ}

theorem get_restoreVector {slot : Option SerializableNode}
    (hk : k < 2 ^ 32) (hlen : ∀ node ∈ slot, (nodeBytes env node).length = store.elementSize)
    (j : UInt32) :
    (restoreVector env store (slot, k)).get j =
      if j.toNat = k then (slot.map (nodeBytes env)).or (store.get j) else store.get j := by
  cases slot with
  | none =>
    show store.get j = _
    split_ifs <;> rfl
  | some node =>
    obtain ⟨store', hset⟩ := VectorStore.set_ok (hlen node rfl) (UInt32.ofNat k)
    have hset' : store.set (UInt32.ofNat k)
        (newUnchecked env.ballAlpha node.coords env.hnsw.metric.kind).asBytes = .ok store' := hset
    have hj : j = UInt32.ofNat k ↔ j.toNat = k := by
      rw [← UInt32.toNat_inj, UInt32.toNat_ofNat_of_lt' hk]
    unfold restoreVector
    simp only [hset']
    rw [VectorStore.get_set hset]
    simp only [hj]
    split_ifs <;> rfl

/-- **Every slot holds the bytes of its node, if it has one, and else what it held before.** -/
theorem get_restoreVectors {nodes : List (Option SerializableNode)} (hk : k + nodes.length ≤ 2 ^ 32)
    (hlen : ∀ slot ∈ nodes, ∀ node ∈ slot, (nodeBytes env node).length = store.elementSize)
    (j : UInt32) :
    ((nodes.zipIdx k).foldl (restoreVector env) store).get j =
      (if k ≤ j.toNat then (nodes[j.toNat - k]?).join.map (nodeBytes env) else none).or
        (store.get j) := by
  induction nodes generalizing store k with
  | nil => simp
  | cons slot nodes ih =>
    rw [length_cons] at hk
    have hslot : ∀ node ∈ slot, (nodeBytes env node).length = store.elementSize := hlen slot mem_cons_self
    have hrest : ∀ slot' ∈ nodes, ∀ node ∈ slot', (nodeBytes env node).length =
        (restoreVector env store (slot, k)).elementSize := by
      intro slot' hslot' node hnode
      rw [elementSize_restoreVector]
      exact hlen slot' (mem_cons_of_mem slot hslot') node hnode
    rw [zipIdx_cons, foldl_cons, ih (by omega) hrest, get_restoreVector (by omega) hslot]
    rcases lt_trichotomy j.toNat k with hlt | heq | hgt
    · rw [if_neg (by omega), if_neg (by omega), if_neg (by omega)]
    · subst heq
      simp
    · have hsub : j.toNat - k = (j.toNat - (k + 1)) + 1 := by omega
      rw [if_pos (by omega), if_neg (by omega), if_pos (by omega), hsub, getElem?_cons_succ]

/-! ### The payloads -/

/-- **Payloads go in one by one, in any order.** -/
theorem payload_restorePayloads {ps : List (UInt32 × String)} {target : UInt32 → Option Value}
    (hread : ∀ p ∈ ps, ∃ payload, env.fromJson p.2 = some payload ∧ target p.1 = some payload)
    (m : EngineMemory) :
    (ps.foldl (restorePayload env) m).index = m.index ∧ (ps.foldl (restorePayload env) m).registry = m.registry ∧
      (ps.foldl (restorePayload env) m).metadata.deleted = m.metadata.deleted ∧
      ∀ j, (ps.foldl (restorePayload env) m).metadata.getPayload j =
        if j ∈ ps.map fst then target j else m.metadata.getPayload j := by
  induction ps generalizing m with
  | nil => exact ⟨rfl, rfl, rfl, fun j => by simp⟩
  | cons p ps ih =>
    obtain ⟨payload, hjson, htarget⟩ := hread p mem_cons_self
    have hstep : m.restorePayload env p = { m with metadata := m.metadata.index env.fa p.1 payload } := by
      unfold restorePayload
      rw [hjson]
    obtain ⟨hindex, hregistry, hdeleted, hpayload⟩ :=
      ih (fun q hq => hread q (mem_cons_of_mem p hq)) (m.restorePayload env p)
    rw [foldl_cons]
    refine ⟨hindex.trans (by rw [hstep]), hregistry.trans (by rw [hstep]), ?_, ?_⟩
    · rw [hdeleted, hstep]
      exact JsonLdMetadataIndex.deleted_index _ _ _ _
    · intro j
      rw [hpayload, hstep]
      simp only [JsonLdMetadataIndex.getPayload_index, map_cons, mem_cons]
      by_cases hj : j = p.1
      · subst hj
        simp [htarget]
      · have hmem : (j = p.1 ∨ j ∈ ps.map fst) ↔ j ∈ ps.map fst :=
          or_iff_right hj
        rw [if_neg hj, if_congr hmem rfl rfl]

/-- The deleted ids are removed one by one. -/
theorem payload_removeAll (ids : List UInt32) (m : JsonLdMetadataIndex) :
    (∀ j, (ids.foldl JsonLdMetadataIndex.remove m).getPayload j = if j ∈ ids then none else m.getPayload j) ∧
      ∀ j, j ∈ (ids.foldl JsonLdMetadataIndex.remove m).deleted ↔ j ∈ ids ∨ j ∈ m.deleted := by
  induction ids generalizing m with
  | nil => exact ⟨fun j => by simp, fun j => by simp⟩
  | cons id ids ih =>
    obtain ⟨hpayload, hdeleted⟩ := ih (m.remove id)
    refine ⟨?_, ?_⟩
    · intro j
      rw [foldl_cons, hpayload, JsonLdMetadataIndex.getPayload_remove]
      by_cases hj : j = id <;> simp [hj]
    · intro j
      rw [foldl_cons, hdeleted]
      have hmem : j ∈ (m.remove id).deleted ↔ j = id ∨ j ∈ m.deleted := Finset.mem_insert
      rw [hmem, mem_cons]
      tauto

end EngineMemory

open EngineMemory

/-! ### The whole snapshot -/

variable {env : EngineEnv} {e : HyperspaceEngine} {l : Ledger}

/-- The vectors of an engine are those the snapshot restores. -/
theorem Fitting.restored {vector : EmbeddingVector} (h : Fitting env vector) :
    newUnchecked env.ballAlpha vector.coords env.hnsw.metric.kind = vector ∧
      vector.metric = env.hnsw.metric.kind := by
  refine ⟨h.built.symm, ?_⟩
  rw [h.built]
  exact metric_newUnchecked _ _ _

/-- The node of an id, as the snapshot has it. -/
theorem getElem?_exportNodes (idx : IncrementalHNSW) (j : UInt32) :
    (idx.exportNodes[j.toNat]?).join = (idx.node? j).map SerializableNode.ofNode := by
  unfold exportNodes node?
  rw [getElem?_map]
  cases idx.nodes[j.toNat]? with
  | none => rfl
  | some slot => cases slot <;> rfl

theorem Holds.node_fitting (h : Holds env e.toEngineMemory l) (hsound : l.Sound env) {j : UInt32} {n : Node}
    (hn : e.index.node? j = some n) : Fitting env n.vector ∧ ∃ c, l.content j = some c ∧ c.1 = n.vector := by
  have hvector : (l.content j).map fst = some n.vector := by
    rw [← h.node j, vectorAt, hn]
    rfl
  obtain ⟨c, hc, hcn⟩ := map_eq_some_iff.1 hvector
  exact ⟨hcn ▸ (hsound.fitting j c hc).1, c, hc, hcn⟩

theorem Holds.get_restored (h : Holds env e.toEngineMemory l) (hsound : l.Sound env) (order : HashOrder) (j : UInt32) :
    ((takeSnapshot env e order).nodes.zipIdx.foldl (restoreVector env) (fresh env).store).get j =
      (l.content j).map fun c => c.1.asBytes := by
  obtain ⟨live, hlive⟩ := h.index
  have hcount : 0 + e.index.exportNodes.length ≤ 2 ^ 32 := by
    simpa [exportNodes] using hlive.length_le
  have hlen : ∀ slot ∈ e.index.exportNodes, ∀ node ∈ slot,
      (nodeBytes env node).length = (fresh env).store.elementSize := by
    intro slot hslot node hnode
    obtain ⟨i, hi, hget⟩ := mem_iff_getElem.1 hslot
    have hlt : i < 2 ^ 32 := by omega
    have hi' : (UInt32.ofNat i).toNat = i := UInt32.toNat_ofNat_of_lt' hlt
    have hexport := getElem?_exportNodes e.index (UInt32.ofNat i)
    rw [hi', getElem?_eq_getElem hi, hget, hnode, join_some] at hexport
    obtain ⟨n, hn, rfl⟩ := map_eq_some_iff.1 hexport.symm
    obtain ⟨hfit, -⟩ := h.node_fitting hsound hn
    unfold nodeBytes
    rw [length_asBytes, coords_newUnchecked]
    exact congrArg elementSize hfit.dim
  show (((e.index.exportNodes).zipIdx 0).foldl (restoreVector env) (fresh env).store).get j = _
  rw [get_restoreVectors hcount hlen, if_pos (Nat.zero_le _), Nat.sub_zero, getElem?_exportNodes]
  cases hn : e.index.node? j with
  | none =>
    have hnone : (l.content j).map fst = none := by
      rw [← h.node j, vectorAt, hn]
      rfl
    rw [map_eq_none_iff.1 hnone]
    rfl
  | some n =>
    obtain ⟨hfit, c, hc, hcn⟩ := h.node_fitting hsound hn
    rw [hc]
    show some (nodeBytes env (SerializableNode.ofNode n)) = some c.1.asBytes
    rw [hcn]
    exact congrArg (fun v => some v.asBytes) hfit.restored.1

theorem Holds.vectorAt_restored (h : Holds env e.toEngineMemory l) (hsound : l.Sound env) (order : HashOrder)
    (target : IncrementalHNSW) (j : UInt32) :
    (target.importNodes env.hnsw (takeSnapshot env e order).nodes).vectorAt j = (l.content j).map fst := by
  show (target.importNodes env.hnsw e.index.exportNodes).vectorAt j = _
  rw [vectorAt_importNodes, getElem?_exportNodes, ← h.node j, vectorAt]
  cases hn : e.index.node? j with
  | none => rfl
  | some n =>
    obtain ⟨hfit, -⟩ := h.node_fitting hsound hn
    show some ((SerializableNode.ofNode n).toEmbedding env.hnsw.metric.kind) = some n.vector
    rw [← hfit.restored.2]
    rfl

/-- The payloads of a snapshot read back as those of the ledger. -/
theorem Holds.mem_forwardMeta (h : Holds env e.toEngineMemory l) (hsound : l.Sound env) (order : HashOrder) :
    (∀ p ∈ (takeSnapshot env e order).forwardMeta, ∃ payload, env.fromJson p.2 = some payload ∧
      (l.content p.1).map snd = some payload) ∧
      ∀ j, j ∈ (takeSnapshot env e order).forwardMeta.map fst ↔ (l.content j).isSome := by
  have hperm := order.payloads_perm (e.metadata.forward.entries.map fun p => (p.1, env.toJson p.2))
  have hlookup : ∀ j payload, ⟨j, payload⟩ ∈ e.metadata.forward.entries ↔
      (l.content j).map snd = some payload := by
    intro j payload
    rw [← AList.mem_lookup_iff, ← h.payload j]
    rfl
  constructor
  · rintro ⟨id, text⟩ hp
    obtain ⟨⟨j, payload⟩, hmem, heq⟩ := List.mem_map.1 (hperm.mem_iff.1 hp)
    cases heq
    have hcontent := (hlookup j payload).1 hmem
    obtain ⟨⟨vector, _⟩, hc, rfl⟩ := map_eq_some_iff.1 hcontent
    exact ⟨_, (hsound.fitting j _ hc).2, hcontent⟩
  · intro j
    have hkeys : j ∈ (takeSnapshot env e order).forwardMeta.map fst ↔
        j ∈ (e.metadata.forward.entries.map fun p => (p.1, env.toJson p.2)).map fst :=
      (hperm.map fst).mem_iff
    rw [hkeys, List.map_map, List.mem_map]
    constructor
    · rintro ⟨⟨i, payload⟩, hmem, rfl⟩
      obtain ⟨c, hc, -⟩ := map_eq_some_iff.1 ((hlookup i payload).1 hmem)
      exact isSome_iff_exists.2 ⟨c, hc⟩
    · intro hsome
      obtain ⟨c, hc⟩ := isSome_iff_exists.1 hsome
      exact ⟨⟨j, c.2⟩, (hlookup j c.2).2 (by rw [hc]; rfl), rfl⟩

/-- **Loading the snapshot of an engine stores the ledger the engine stores.** -/
theorem Holds.loadSnapshot (h : Holds env e.toEngineMemory l) (hsound : l.Sound env) (order : HashOrder) :
    Holds env ((fresh env).loadSnapshot env (takeSnapshot env e order)) l := by
  obtain ⟨live, hlive⟩ := h.index
  obtain ⟨hread, hkeys⟩ := h.mem_forwardMeta hsound order
  obtain ⟨hregistry, -, hlookup⟩ := h.registry.import
    (fun p hp => (IriRegistry.mem_export order.iris_perm).1 hp) IriRegistry.valid_new
    (fun _ _ hnone => by cases hnone)
  set snap := takeSnapshot env e order with hsnap
  set base : EngineMemory :=
    { fresh env with
      index := (fresh env).index.importNodes env.hnsw snap.nodes
      clock := snap.clock
      store := snap.nodes.zipIdx.foldl (restoreVector env) (fresh env).store
      registry := (fresh env).registry.import snap.iriRegistry } with hbase
  obtain ⟨hindex, hreg, hdeleted, hpayload⟩ :=
    @payload_restorePayloads env snap.forwardMeta (fun j => (l.content j).map snd) hread base
  obtain ⟨hremoved, hdel⟩ := payload_removeAll snap.deletedIds
    (snap.forwardMeta.foldl (restorePayload env) base).metadata
  have hstore : (snap.forwardMeta.foldl (restorePayload env) base).store = base.store :=
    store_restorePayloads base snap.forwardMeta
  refine ⟨?_, ?_, ?_, ?_, ?_, ?_, ?_, ?_⟩
  · show (snap.forwardMeta.foldl (restorePayload env) base).registry.Valid
    rw [hreg]
    exact hregistry
  · intro id
    show (snap.forwardMeta.foldl (restorePayload env) base).registry.lookup id = _
    rw [hreg, ← h.lookup id]
    ext iri
    refine (hlookup id iri).trans ?_
    rw [IriRegistry.mem_export order.iris_perm, IriRegistry.lookup_new]
    simp
  · intro id
    show (snap.forwardMeta.foldl (restorePayload env) base).store.get id = _
    rw [hstore]
    exact h.get_restored hsound order id
  · intro id
    show (snap.forwardMeta.foldl (restorePayload env) base).index.vectorAt id = _
    rw [hindex]
    exact h.vectorAt_restored hsound order _ id
  · intro id
    refine (hremoved id).trans ?_
    split_ifs with hid
    · rw [h.deleted id ((Finset.mem_sort _).1 hid)]
      rfl
    · rw [hpayload]
      split_ifs with hkey
      · rfl
      · have hnone : l.content id = none :=
          not_isSome_iff_eq_none.1 fun hsome => hkey ((hkeys id).2 hsome)
        rw [hnone]
        rfl
  · exact ⟨live, hindex ▸ hlive.importNodes env.config⟩
  · show (snap.forwardMeta.foldl (restorePayload env) base).store.elementSize = _
    rw [hstore]
    exact elementSize_restoreVectors _ _
  · intro id hid
    rcases (hdel id).1 hid with hmem | hmem
    · exact h.deleted id ((Finset.mem_sort _).1 hmem)
    · rw [hdeleted] at hmem
      exact absurd hmem (Finset.notMem_empty id)

end WildAgentOs.Engine
