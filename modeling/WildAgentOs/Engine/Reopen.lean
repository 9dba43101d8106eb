import WildAgentOs.Engine.HnswVectors
import WildAgentOs.Engine.HyperspaceEngine
import WildAgentOs.Engine.WalFaults

/-!
# Recovery, entry by entry

What `recover` does with one entry of the log, on any state, and when two states are the same.

* `openDir_eq`: `open` is the replay of the log over the snapshot, with its health counted;
* `SameState`: the same registry, vectors, index nodes, payloads and health;
* `replayEntry_record`: the replay of the record of a write;
* `replayEntries_concat`: the replay of one entry more;
* `replayEntries_store`.
-/

namespace WildAgentOs.Engine

open LittleEndian Json List Option

namespace EngineMemory

variable {env : EngineEnv} {e e' : EngineMemory}

/-- Two memories with the same logical content. -/
structure SameState (e e' : EngineMemory) : Prop where
  resolve : ∀ iri, e'.registry.resolve iri = e.registry.resolve iri
  lookup : ∀ id, e'.registry.lookup id = e.registry.lookup id
  vector : ∀ id, e'.store.get id = e.store.get id
  node : ∀ id, e'.index.vectorAt id = e.index.vectorAt id
  payload : ∀ id, e'.metadata.getPayload id = e.metadata.getPayload id
  health : e'.health = e.health

theorem SameState.refl (e : EngineMemory) : SameState e e :=
  ⟨fun _ => rfl, fun _ => rfl, fun _ => rfl, fun _ => rfl, fun _ => rfl, rfl⟩

theorem SameState.isRetrievalReady (h : SameState e e') : e'.isRetrievalReady = e.isRetrievalReady := by
  rw [EngineMemory.isRetrievalReady, h.health, EngineMemory.isRetrievalReady]

/-! ### Health after recovery -/

/-- The counters depend on the slots of the store and on the payloads. -/
theorem health_initializeHealth (hslots : e'.store.slots = e.store.slots)
    (hpayload : ∀ id, e'.metadata.getPayload id = e.metadata.getPayload id)
    (hcorrupt : e'.health.corruptCount = e.health.corruptCount) :
    e'.initializeHealth.health = e.initializeHealth.health := by
  have hids : e'.store.activeIds = e.store.activeIds := by
    rw [VectorStore.activeIds, hslots, VectorStore.activeIds]
  have hcount : e'.store.activeCount = e.store.activeCount := by
    rw [VectorStore.activeCount, hslots, VectorStore.activeCount]
  have hfun : e'.metadata.getPayload = e.metadata.getPayload := funext hpayload
  unfold initializeHealth
  simp only [hids, hcount, hfun, hcorrupt]

variable {id : UInt32} {bytes : Bytes} {s s' : VectorStore}

/-- Writing a slot again with what it holds changes no slot. -/
theorem slots_set_of_get (hget : s.get id = some bytes) (hset : s.set id bytes = .ok s') : s'.slots = s.slots := by
  have hslot : s.slots[id.toNat]? = some (some bytes) := join_eq_some_iff.1 hget
  obtain ⟨hlt, hval⟩ := List.getElem?_eq_some_iff.1 hslot
  have hzero : id.toNat + 1 - s.slots.length = 0 := by omega
  rw [(VectorStore.eq_of_set hset).2, hzero, replicate_zero, append_nil, ← hval]
  exact set_getElem_self hlt

/-! ### The replay of a write -/

/-- **The replay of the record of a write: the store refuses a vector of the wrong length, and
otherwise the vector, the IRI and the payload are restored.** -/
theorem replayWrite_record {record : WalRecord} {vector : EmbeddingVector}
    (hfit : record.encode.length < 2 ^ 32) (hvector : record.vector = vector.asBytes)
    (e : EngineMemory) (level : ℕ) :
    e.replayWrite env id record.encode level = match e.store.set id vector.asBytes with
      | .error _ => some e.recordCorruption
      | .ok store =>
        (e.index.insert env.hnsw id vector level).map fun index =>
          ({ e with store, index, registry := e.registry.registerId id record.iri }).replayPayload
            env id record := by
  have hnonempty : vector.asBytes.isEmpty = false := by
    rw [isEmpty_eq_false_iff_exists_mem, ← length_pos_iff_exists_mem]
    rw [EmbeddingVector.length_asBytes]
    unfold EmbeddingVector.elementSize
    omega
  have hread : EmbeddingVector.fromBytes vector.asBytes ((vector.asBytes.length - 12) / 8) = .ok vector := by
    rw [EmbeddingVector.dim_asBytes]
    exact EmbeddingVector.fromBytes_asBytes vector
  unfold replayWrite
  rw [WalRecord.decode_encode hfit]
  simp only [map_some, getD_some, hvector]
  cases e.store.set id vector.asBytes with
  | error err => rfl
  | ok store =>
    simp only [replayVector, hnonempty, hread, Bool.false_eq_true, if_false]
    cases e.index.insert env.hnsw id vector level <;> rfl

/-! ### Lists of entries -/

@[simp] theorem replayEntries_nil (draw : ℕ → ℕ) (e : EngineMemory) : e.replayEntries env draw [] = some e := rfl

theorem replayEntries_cons (draw : ℕ → ℕ) (e : EngineMemory) (entry : Entry) (entries : List Entry) :
    e.replayEntries env draw (entry :: entries) =
      (e.replayEntry env entry (draw 0)).bind fun e =>
        e.replayEntries env (fun k => draw (k + 1)) entries := by
  unfold replayEntries
  rw [zipIdx_cons', foldlM_cons]
  cases e.replayEntry env entry (draw 0) with
  | none => rfl
  | some e => exact foldlM_map

theorem replayEntries_concat (draw : ℕ → ℕ) (e : EngineMemory) (entries : List Entry) (entry : Entry) :
    e.replayEntries env draw (entries ++ [entry]) =
      (e.replayEntries env draw entries).bind fun e =>
        e.replayEntry env entry (draw entries.length) := by
  unfold replayEntries
  rw [zipIdx_append, foldlM_append]
  simp only [Nat.zero_add, zipIdx_singleton, foldlM_cons, foldlM_nil]
  cases entries.zipIdx.foldlM (fun e p => EngineMemory.replayEntry env e p.1 (draw p.2)) e with
  | none => rfl
  | some e => simp

/-! ### What recovery does to the store -/

section
variable {P : VectorStore → Prop}
  (hset : ∀ {s s' : VectorStore} {id : UInt32} {bytes : Bytes}, P s → s.set id bytes = .ok s' → P s')
  (hremove : ∀ {s : VectorStore} (id : UInt32), P s → P (s.remove id))

include hset in
theorem restoreVector_store {store : VectorStore} (h : P store)
    (p : Option SerializableNode × ℕ) : P (restoreVector env store p) := by
  unfold restoreVector
  cases p.1 with
  | none => exact h
  | some node =>
    simp only
    split
    · next store' hstore => exact hset h hstore
    · exact h

include hset in
theorem restoreVectors_store {store : VectorStore} (h : P store)
    (ps : List (Option SerializableNode × ℕ)) : P (ps.foldl (restoreVector env) store) := by
  induction ps generalizing store with
  | nil => exact h
  | cons p ps ih => exact ih (restoreVector_store hset h p)

theorem store_restorePayload (e : EngineMemory) (p : UInt32 × String) : (e.restorePayload env p).store = e.store := by
  unfold restorePayload
  cases env.fromJson p.2 <;> rfl

theorem store_restorePayloads (e : EngineMemory) (ps : List (UInt32 × String)) :
    (ps.foldl (restorePayload env) e).store = e.store := by
  induction ps generalizing e with
  | nil => rfl
  | cons p ps ih => rw [foldl_cons, ih, store_restorePayload]

include hset in
theorem loadSnapshotFile_store (h : P e.store) (snapshot : SnapshotFile) :
    P (e.loadSnapshotFile env snapshot).store := by
  cases snapshot with
  | absent => exact h
  | unreadable => exact h
  | holds snap =>
    show P ((snap.forwardMeta.foldl (restorePayload env) _).store)
    rw [store_restorePayloads]
    exact restoreVectors_store hset h _

theorem store_replayPayload (e : EngineMemory) (id : UInt32) (record : Option WalRecord) :
    (e.replayPayload env id record).store = e.store := by
  unfold replayPayload
  split
  · rfl
  · split <;> rfl

theorem store_replayIri (e : EngineMemory) (id : UInt32) (record : Option WalRecord) :
    (e.replayIri id record).store = e.store := by
  cases record <;> rfl

variable {level : ℕ}

theorem store_replayVector (h : e.replayVector env id bytes level = some e') : e'.store = e.store := by
  unfold replayVector at h
  split at h
  · cases h
    rfl
  · split at h
    · obtain ⟨index, -, h⟩ := bind_eq_some_iff.1 h
      cases h
      rfl
    · cases h
      rfl

include hset in
theorem replayWrite_store {data : Bytes} (hP : P e.store)
    (h : e.replayWrite env id data level = some e') : P e'.store := by
  unfold replayWrite at h
  split at h
  · cases h
    exact hP
  · next record _ =>
    simp only at h
    split at h
    · cases h
      exact hP
    · next store hstore =>
      obtain ⟨e₁, h₁, h⟩ := bind_eq_some_iff.1 h
      cases h
      rw [store_replayPayload, store_replayIri, store_replayVector h₁]
      exact hset hP hstore

include hset hremove

theorem replayEntry_store {entry : Entry} (hP : P e.store)
    (h : e.replayEntry env entry level = some e') : P e'.store := by
  have hclock : P ({ e with clock := max e.clock entry.clock } : EngineMemory).store := hP
  unfold replayEntry at h
  simp only at h
  split at h
  · exact replayWrite_store hset hclock h
  · exact replayWrite_store hset hclock h
  · cases h
    exact hremove _ hP
  · cases h
    exact hP

/-- **What `set` and `remove` keep of a store, recovery keeps.** -/
theorem replayEntries_store {draw : ℕ → ℕ} {entries : List Entry} (hP : P e.store)
    (h : e.replayEntries env draw entries = some e') : P e'.store := by
  induction entries using reverseRecOn generalizing e' with
  | nil =>
    cases h
    exact hP
  | append_singleton entries entry ih =>
    rw [replayEntries_concat] at h
    obtain ⟨e₁, h₁, h⟩ := bind_eq_some_iff.1 h
    exact replayEntry_store hset hremove (ih h₁) h

end

theorem elementSize_set {size : ℕ}
    (h : s.elementSize = size) (hset : s.set id bytes = .ok s') : s'.elementSize = size :=
  (VectorStore.eq_of_set hset).1.trans h

theorem elementSize_restoreVector (store : VectorStore) (p : Option SerializableNode × ℕ) :
    (restoreVector env store p).elementSize = store.elementSize :=
  restoreVector_store elementSize_set rfl p

theorem elementSize_restoreVectors (store : VectorStore) (ps : List (Option SerializableNode × ℕ)) :
    (ps.foldl (restoreVector env) store).elementSize = store.elementSize :=
  restoreVectors_store elementSize_set rfl ps

theorem elementSize_loadSnapshotFile (e : EngineMemory) (snapshot : SnapshotFile) :
    (e.loadSnapshotFile env snapshot).store.elementSize = e.store.elementSize :=
  @loadSnapshotFile_store env e (fun s => s.elementSize = e.store.elementSize) elementSize_set rfl
    snapshot

theorem elementSize_replayEntries {draw : ℕ → ℕ} {entries : List Entry}
    (h : e.replayEntries env draw entries = some e') :
    e'.store.elementSize = e.store.elementSize :=
  @replayEntries_store env e e' (fun s => s.elementSize = e.store.elementSize) elementSize_set
    (fun _ hs => hs) draw entries rfl h

end EngineMemory

namespace HyperspaceEngine

open EngineMemory

variable {env : EngineEnv} {draw : ℕ → ℕ}

/-- What opening a directory makes of its log, before the health is counted. -/
def replayed (env : EngineEnv) (draw : ℕ → ℕ) (d : Disk) : Option EngineMemory :=
  ((fresh env).loadSnapshotFile env d.snapshot).replayEntries env draw
    ((diskWal env d).recovered env.crc)

theorem openDir_eq (d : Disk) :
    openDir env draw d = (replayed env draw d).map fun m =>
      { m.initializeHealth with
        wal := healed env (diskWal env d)
        snapshot := d.snapshot
        snapshotTmp := d.snapshotTmp } := by
  simp only [openDir, restored, replayed, bind_eq_bind]
  generalize EngineMemory.replayEntries env draw _ _ = m
  cases m <;> rfl

end HyperspaceEngine

end WildAgentOs.Engine
