import WildAgentOs.Engine.Reopen

/-!
# Rejected writes

A write that returns an error, and what is left of it: in memory, and after the directory has
been closed and opened again.

* `NoTrace`, `noTrace_iff`;
* `not_noTrace_wrongLength`: a vector of the wrong length makes a reopened engine refuse
  retrieval.
-/

namespace WildAgentOs.Engine

open LittleEndian Json Option EmbeddingVector HyperspaceEngine IriRegistry

namespace EngineMemory

variable {env : EngineEnv} {e : EngineMemory}

/-- The state already holds the vector and the payload under the IRI, and the index takes the
vector once more. -/
structure Redundant (env : EngineEnv) (level : ℕ) (e : EngineMemory) (id : UInt32) (iri : String)
    (vector : EmbeddingVector) (jsonld : Value) : Prop where
  dim : vector.coords.length = env.dim
  resolve : e.registry.resolve iri = some id
  lookup : e.registry.lookup id = some iri
  stored : e.store.get id = some vector.asBytes
  node : e.index.vectorAt id = some vector
  payload : ∃ payload, env.fromJson (env.toJson jsonld) = some payload ∧ e.metadata.getPayload id = some payload
  insert : ∃ index, e.index.insert env.hnsw id vector level = some index

theorem elementSize_injective {m n : ℕ}
    (h : elementSize m = elementSize n) : m = n := by
  unfold elementSize at h
  omega

variable {e' : EngineMemory}

/-- A corrupt record shows in the health. -/
theorem not_sameState_recordCorruption (h : e'.health.corruptCount = e.health.corruptCount + 1) :
    ¬ SameState e.initializeHealth e'.initializeHealth := by
  intro hsame
  have hcount := congrArg HealthCounters.corruptCount hsame.health
  have hstep : e.health.corruptCount + 1 = e.health.corruptCount := h.symm.trans hcount
  exact HealthCounters.add_one_ne _ hstep

variable {id : UInt32}

/-- The replay of a write that is already there leaves the state as it is, and the replay of any
other write does not. -/
theorem sameState_replayWrite_iff {iri : String} {vector : EmbeddingVector} {jsonld : Value} {level : ℕ}
    (hfit : (walRecord env iri vector jsonld).encode.length < 2 ^ 32)
    (hsize : e.store.elementSize = elementSize env.dim) :
    (∃ e', e.replayWrite env id (walRecord env iri vector jsonld).encode level =
        some e' ∧ SameState e.initializeHealth e'.initializeHealth) ↔
      Redundant env level e id iri vector jsonld := by
  rw [replayWrite_record hfit rfl]
  constructor
  · rintro ⟨e', he', hsame⟩
    cases hset : e.store.set id vector.asBytes with
    | error err =>
      rw [hset] at he'
      cases he'
      exact absurd hsame (not_sameState_recordCorruption rfl)
    | ok store =>
      rw [hset] at he'
      obtain ⟨index, hindex, rfl⟩ := map_eq_some_iff.1 he'
      cases hjson : env.fromJson (env.toJson jsonld) with
      | none =>
        refine absurd hsame (not_sameState_recordCorruption ?_)
        simp [replayPayload, walRecord, hjson, recordCorruption, HealthCounters.recordCorruption]
      | some payload =>
        simp only [replayPayload, walRecord, bind_some, hjson] at hsame
        have hlength := VectorStore.length_of_set hset
        rw [length_asBytes, hsize] at hlength
        refine ⟨elementSize_injective hlength, ?_, ?_, ?_, ?_, ⟨payload, hjson, ?_⟩, index, hindex⟩
        · refine (hsame.resolve iri).symm.trans ?_
          exact (resolve_registerId _ _ _ _).trans (if_pos rfl)
        · refine (hsame.lookup id).symm.trans ?_
          exact (lookup_registerId _ _ _ _).trans (if_pos rfl)
        · refine (hsame.vector id).symm.trans ?_
          exact (VectorStore.get_set hset id).trans (if_pos rfl)
        · refine (hsame.node id).symm.trans ?_
          exact (IncrementalHNSW.vectorAt_insert hindex id).trans (if_pos rfl)
        · refine (hsame.payload id).symm.trans ?_
          exact (JsonLdMetadataIndex.getPayload_index _ _ _ _ _).trans (if_pos rfl)
  · intro h
    obtain ⟨payload, hjson, hpayload⟩ := h.payload
    obtain ⟨index, hindex⟩ := h.insert
    have hlength : vector.asBytes.length = e.store.elementSize := by
      rw [length_asBytes, hsize, h.dim]
    obtain ⟨store, hset⟩ := VectorStore.set_ok hlength id
    rw [hset]
    refine ⟨_, by rw [hindex]; rfl, ?_⟩
    have hpayloads : ∀ j, ((e.metadata.index env.fa id payload).undelete id).getPayload j =
        e.metadata.getPayload j := by
      intro j
      rw [JsonLdMetadataIndex.getPayload_undelete, JsonLdMetadataIndex.getPayload_index]
      split_ifs with hj
      · rw [hj, hpayload]
      · rfl
    simp only [replayPayload, walRecord, bind_some, hjson]
    constructor
    · intro iri'
      refine (resolve_registerId _ _ _ _).trans ?_
      split_ifs with hiri
      · rw [hiri]
        exact h.resolve.symm
      · rfl
    · intro j
      refine (lookup_registerId _ _ _ _).trans ?_
      split_ifs with hj
      · rw [hj]
        exact h.lookup.symm
      · rfl
    · intro j
      refine (VectorStore.get_set hset j).trans ?_
      split_ifs with hj
      · rw [hj]
        exact h.stored.symm
      · rfl
    · intro j
      refine (IncrementalHNSW.vectorAt_insert hindex j).trans ?_
      split_ifs with hj
      · rw [hj]
        exact h.node.symm
      · rfl
    · exact hpayloads
    · exact health_initializeHealth (slots_set_of_get h.stored hset) hpayloads rfl

/-- Redundancy reads the registry, the store, the index and the metadata. -/
theorem Redundant.congr {level : ℕ} {iri : String}
    {vector : EmbeddingVector} {jsonld : Value} (h : Redundant env level e id iri vector jsonld)
    (hregistry : e'.registry = e.registry) (hstore : e'.store = e.store)
    (hindex : e'.index = e.index) (hmetadata : e'.metadata = e.metadata) :
    Redundant env level e' id iri vector jsonld where
  dim := h.dim
  resolve := hregistry ▸ h.resolve
  lookup := hregistry ▸ h.lookup
  stored := hstore ▸ h.stored
  node := hindex ▸ h.node
  payload := hmetadata ▸ h.payload
  insert := hindex ▸ h.insert

end EngineMemory

namespace HyperspaceEngine

open EngineMemory

section
variable (env : EngineEnv) (draw : ℕ → ℕ)

/-- The call of `append` a write makes. -/
def logCall (op : UInt32 → String → WalOp) (e : HyperspaceEngine) (iri : String)
    (vector : EmbeddingVector) (jsonld : Value) (io : Io) : AppendCall :=
  ⟨writeEntry env op e iri vector jsonld, io.now, io.fault⟩

/-- Opening the second directory gives the same state and the same answer of
`is_retrieval_ready` as opening the first; or both opens panic. -/
def SameReopened (d d' : Disk) : Prop :=
  Option.Rel
    (fun a b : HyperspaceEngine =>
      SameState a.toEngineMemory b.toEngineMemory ∧ b.isRetrievalReady = a.isRetrievalReady)
    (openDir env draw d) (openDir env draw d')

/-- From `e` to `e'` nothing has changed, neither in memory nor for the next open. -/
def NoTrace (e e' : HyperspaceEngine) : Prop :=
  SameState e.toEngineMemory e'.toEngineMemory ∧ SameReopened env draw e.disk e'.disk

/-- Opening the directory before the write finds its vector and its payload under its IRI. -/
def AlreadyThere (e : HyperspaceEngine) (iri : String) (vector : EmbeddingVector)
    (jsonld : Value) : Prop :=
  ∀ e₀, openDir env draw e.disk = some e₀ →
    Redundant env (draw (e.wal.recovered env.crc).length) e₀.toEngineMemory
      (e.registry.register iri).2 iri vector jsonld

variable {env draw} {e e' : HyperspaceEngine}

/-- Reopening compares what the two logs leave in memory. -/
theorem sameReopened_iff {d d' : Disk} : SameReopened env draw d d' ↔
      Option.Rel (fun m m' : EngineMemory => SameState m.initializeHealth m'.initializeHealth)
        (replayed env draw d) (replayed env draw d') := by
  unfold SameReopened
  rw [openDir_eq, openDir_eq]
  cases replayed env draw d with
  | none =>
    cases replayed env draw d' with
    | none => exact ⟨fun _ => .none, fun _ => .none⟩
    | some m' => exact ⟨(fun h => by cases h), (fun h => by cases h)⟩
  | some m =>
    cases replayed env draw d' with
    | none => exact ⟨(fun h => by cases h), (fun h => by cases h)⟩
    | some m' =>
      constructor
      · rintro (⟨hsame, -⟩ | _)
        exact .some hsame
      · rintro (hsame | _)
        exact .some ⟨hsame, hsame.isRetrievalReady⟩

/-- In memory a rejected write leaves no trace exactly if its IRI was registered before. -/
theorem sameState_stopped_iff {iri : String} {wal : EngineWal} :
    SameState e.toEngineMemory (e.stopped iri wal).toEngineMemory ↔ ∃ id, e.registry.resolve iri = some id := by
  constructor
  · intro h
    exact ⟨_, (h.resolve iri).symm.trans (resolve_register_self _ _)⟩
  · rintro ⟨id, hres⟩
    have hregistry : (e.stopped iri wal).registry = e.registry :=
      congrArg Prod.fst (register_of_resolve hres)
    exact ⟨fun _ => by rw [hregistry], fun _ => by rw [hregistry], fun _ => rfl, fun _ => rfl,
      fun _ => rfl, rfl⟩

variable {op : UInt32 → String → WalOp}

theorem replayEntry_writeEntry (hop : op = .insert ∨ op = .upsert) {iri : String} {vector : EmbeddingVector}
    {jsonld : Value} (m : EngineMemory) (level : ℕ) :
    m.replayEntry env (writeEntry env op e iri vector jsonld).delivered level =
      ({ m with clock := max m.clock (e.clock + 1) }).replayWrite env (e.registry.register iri).2
        (walRecord env iri vector jsonld).encode level := by
  rcases hop with rfl | rfl <;> rfl

/-- An entry that got to the log whole by a clean call fits its length field. -/
theorem fits_of_not_drops {w : EngineWal} {c : AppendCall} (hc : CleanAppend env.crc w c)
    (hd : ¬ w.Drops env.crc c) : c.entry.Fits := by
  obtain ⟨href, hwritten⟩ := not_or.1 hd
  rcases (hc.resolve_left href).2 with ⟨err, hzero⟩ | ⟨hfit, -⟩
  · refine absurd ?_ hwritten
    rw [hzero]
    exact length_written_write_zero err c.entry
  · exact hfit

/-- For the next open a rejected write leaves no trace exactly if its record did not get to the
log whole or is redundant. -/
theorem sameReopened_stopped_iff (hop : op = .insert ∨ op = .upsert) {iri : String} {vector : EmbeddingVector}
    {jsonld : Value} {io : Io} (hord : e.wal.Ordered)
    (hclean : CleanAppend env.crc e.wal (logCall env op e iri vector jsonld io)) :
    SameReopened env draw e.disk
        (e.stopped iri (e.wal.call env.crc (logCall env op e iri vector jsonld io))).disk ↔
      e.wal.Drops env.crc (logCall env op e iri vector jsonld io) ∨ AlreadyThere env draw e iri vector jsonld := by
  obtain ⟨-, hdrop, hkeep⟩ := EngineWal.recovered_call hord hclean
  set wal := e.wal.call env.crc (logCall env op e iri vector jsonld io) with hwal
  rw [sameReopened_iff]
  by_cases hd : e.wal.Drops env.crc (logCall env op e iri vector jsonld io)
  · have hsame : replayed env draw (e.stopped iri wal).disk = replayed env draw e.disk := by
      show EngineMemory.replayEntries env draw _ (wal.recovered env.crc) = _
      rw [hdrop hd]
      rfl
    rw [hsame]
    refine ⟨fun _ => .inl hd, fun _ => ?_⟩
    cases replayed env draw e.disk with
    | none => exact .none
    | some m => exact .some (.refl _)
  · have hstep : replayed env draw (e.stopped iri wal).disk =
        (replayed env draw e.disk).bind fun m =>
          m.replayEntry env (writeEntry env op e iri vector jsonld).delivered
            (draw (e.wal.recovered env.crc).length) := by
      show EngineMemory.replayEntries env draw _ (wal.recovered env.crc) = _
      rw [hkeep hd, replayEntries_concat]
      rfl
    have hfit : (walRecord env iri vector jsonld).encode.length < 2 ^ 32 := by
      have h : (writeEntry env op e iri vector jsonld).Fits := fits_of_not_drops hclean hd
      unfold Entry.Fits writeEntry at h
      simp only at h
      omega
    rw [hstep, or_iff_right hd]
    unfold AlreadyThere
    rw [openDir_eq]
    cases hrun : replayed env draw e.disk with
    | none => exact ⟨(fun _ e₀ he₀ => by cases he₀), fun _ => .none⟩
    | some m =>
      have hsize : m.store.elementSize = elementSize env.dim :=
        (elementSize_replayEntries hrun).trans (elementSize_loadSnapshotFile _ _)
      have hiff := @sameState_replayWrite_iff env { m with clock := max m.clock (e.clock + 1) }
        (e.registry.register iri).2 iri vector jsonld (draw (e.wal.recovered env.crc).length)
        hfit hsize
      rw [bind_some, replayEntry_writeEntry hop]
      constructor
      · intro hrel e₀ he₀
        cases he₀
        refine Redundant.congr (hiff.1 ?_) rfl rfl rfl rfl
        revert hrel
        generalize EngineMemory.replayWrite env _ _ _ _ = out
        rintro (hsame | _)
        exact ⟨_, rfl, ⟨hsame.resolve, hsame.lookup, hsame.vector, hsame.node, hsame.payload, hsame.health⟩⟩
      · intro hred
        obtain ⟨m', hm', hsame⟩ := hiff.2 (Redundant.congr (hred _ rfl) rfl rfl rfl rfl)
        rw [hm']
        exact .some ⟨hsame.resolve, hsame.lookup, hsame.vector, hsame.node, hsame.payload, hsame.health⟩

end

/-- A vector of one coordinate, for an engine of two. -/
def shortVector : EmbeddingVector := ⟨[⟨0x3FF0000000000000⟩], .cosine, ⟨0⟩⟩

end HyperspaceEngine

end WildAgentOs.Engine
