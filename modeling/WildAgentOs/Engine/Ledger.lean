import WildAgentOs.Engine.Reopen
import WildAgentOs.Lib.KeyedLog

/-!
# What an engine stores

The abstract content of an engine, apart from its index, its posting lists and its files: a
`Ledger` gives every id its IRI, and its vector and payload if it is live.  A `Change` is one
acknowledged write or delete.

* `Ledger.apply`, `ledger`, `Holds`;
* `Holds.written`, `Holds.deleted`, `Holds.vacuum`: the calls of the engine are changes;
* `Holds.replayEntries`.
-/

namespace WildAgentOs.Engine

open LittleEndian Json IncrementalHNSW Function HyperspaceEngine JsonLdMetadataIndex EngineMemory EmbeddingVector

/-! ### Ledgers -/

/-- A write or a delete, as its log record has it. -/
inductive Change
  | write (id : UInt32) (iri : String) (vector : EmbeddingVector) (payload : Value)
  | erase (id : UInt32)

/-- The IRI of every id, and the vector and the payload of every live one. -/
structure Ledger where
  name : UInt32 → Option String
  content : UInt32 → Option (EmbeddingVector × Value)

namespace Change

/-- What the change makes of the content of its id. -/
def effect : Change → UInt32 × Option (EmbeddingVector × Value)
  | write id _ vector payload => (id, some (vector, payload))
  | erase id => (id, none)

/-- The pair the change registers. -/
def naming : Change → List (UInt32 × Option String)
  | write id iri _ _ => [(id, some iri)]
  | erase _ => []

end Change

namespace Ledger

def empty : Ledger := ⟨fun _ => none, fun _ => none⟩

def apply (l : Ledger) : Change → Ledger
  | .write id iri vector payload =>
    ⟨update l.name id (some iri), update l.content id (some (vector, payload))⟩
  | .erase id => ⟨l.name, update l.content id none⟩

def applyAll (l : Ledger) (changes : List Change) : Ledger := changes.foldl apply l

@[simp] theorem applyAll_nil (l : Ledger) : l.applyAll [] = l := rfl

@[simp] theorem applyAll_append (l : Ledger) (cs cs' : List Change) :
    l.applyAll (cs ++ cs') = (l.applyAll cs).applyAll cs' := List.foldl_append

/-- The content is that of a keyed log. -/
theorem content_applyAll (l : Ledger) (changes : List Change) :
    (l.applyAll changes).content = KeyedLog.replay l.content (changes.map Change.effect) := by
  induction changes generalizing l with
  | nil => rfl
  | cons c changes ih =>
    cases c <;> exact ih _

/-- No two ids of the ledger have one IRI. -/
def Injective (l : Ledger) : Prop := ∀ id id' iri, l.name id = some iri → l.name id' = some iri → id = id'

/-- Every name of `l` is one of `whole`. -/
def Within (l whole : Ledger) : Prop := ∀ id iri, l.name id = some iri → whole.name id = some iri

end Ledger

/-- The ledger of a list of changes. -/
def ledger (changes : List Change) : Ledger := Ledger.empty.applyAll changes

section
variable (env : EngineEnv)

/-- A vector as the constructors make it, of the dimension and the metric of the engine. -/
structure Fitting (vector : EmbeddingVector) : Prop where
  built : vector = .newUnchecked env.ballAlpha vector.coords env.hnsw.metric.kind
  dim : vector.coords.length = env.dim
  admits : env.hnsw.metric.Admits env.dim vector

/-- A payload that `serde_json` prints and reads back. -/
def RoundTrips (payload : Value) : Prop := env.fromJson (env.toJson payload) = some payload

/-- The ledger holds vectors that fit the engine and payloads that round trip, under ids below
the one that stands for none. -/
structure Ledger.Sound (l : Ledger) : Prop where
  named : ∀ id iri, l.name id = some iri → id ≠ noEntry
  injective : l.Injective
  fitting : ∀ id c, l.content id = some c → Fitting env c.1 ∧ RoundTrips env c.2

/-- The write a record of the log holds; `none` if it cannot be read. -/
def writeOf (id : UInt32) (data : Bytes) : Option Change := do
  let record ← (WalRecord.decode data).join
  let vector ← (EmbeddingVector.fromBytes record.vector ((record.vector.length - 12) / 8)).toOption
  let payload ← record.payload.bind env.fromJson
  some (.write id record.iri vector payload)

/-- The change an entry of the log records. -/
def recordOf (entry : Entry) : Option Change :=
  match entry.op with
  | .insert id _ | .upsert id _ => writeOf env id entry.data
  | .delete id _ => some (.erase id)
  | .metadataUpdate _ _ => none

/-- The memory stores the ledger. -/
structure Holds (m : EngineMemory) (l : Ledger) : Prop where
  registry : m.registry.Valid
  lookup : ∀ id, m.registry.lookup id = l.name id
  vector : ∀ id, m.store.get id = (l.content id).map fun c => c.1.asBytes
  node : ∀ id, m.index.vectorAt id = (l.content id).map Prod.fst
  payload : ∀ id, m.metadata.getPayload id = (l.content id).map Prod.snd
  index : ∃ live, Entered env.hnsw env.dim m.index live
  size : m.store.elementSize = EmbeddingVector.elementSize env.dim
  deleted : ∀ id ∈ m.metadata.deleted, l.content id = none

end

variable {env : EngineEnv} {m m' : EngineMemory} {l : Ledger}

theorem holds_fresh : Holds env (.fresh env) .empty where
  registry := IriRegistry.valid_new
  lookup := fun _ => rfl
  vector := fun _ => rfl
  node := fun _ => rfl
  payload := fun _ => rfl
  index := ⟨∅, entered_new env.config⟩
  size := rfl
  deleted := fun _ _ => rfl

/-- What `Holds` reads of a memory. -/
theorem Holds.congr (h : Holds env m l) (hindex : m'.index = m.index) (hstore : m'.store = m.store)
    (hmetadata : m'.metadata = m.metadata) (hregistry : m'.registry = m.registry) :
    Holds env m' l where
  registry := hregistry ▸ h.registry
  lookup := hregistry ▸ h.lookup
  vector := hstore ▸ h.vector
  node := hindex ▸ h.node
  payload := hmetadata ▸ h.payload
  index := hindex ▸ h.index
  size := hstore ▸ h.size
  deleted := hmetadata ▸ h.deleted

/-- What is kept for each identifier, after the content of one has changed. -/
theorem map_content_update {α : Type*} {kept : UInt32 → Option α} {f : EmbeddingVector × Value → α}
    {content : UInt32 → Option (EmbeddingVector × Value)} (h : ∀ j, kept j = (content j).map f)
    (id : UInt32) (c : Option (EmbeddingVector × Value)) (j : UInt32) :
    (if j = id then c.map f else kept j) = (update content id c j).map f := by
  by_cases hj : j = id
  · rw [if_pos hj, hj, update_self]
  · rw [if_neg hj, update_of_ne hj, h]

/-! ### A write -/

variable {vector : EmbeddingVector} {id : UInt32} {payload : Value} {iri : String}

/-- The memory after a write, live or replayed. -/
theorem Holds.write (h : Holds env m l) (hfit : Fitting env vector) (hid : id ≠ noEntry) {level : ℕ}
    {store : VectorStore} {index : IncrementalHNSW}
    (hset : m.store.set id vector.asBytes = .ok store)
    (hinsert : m.index.insert env.hnsw id vector level = some index)
    (hstore : m'.store = store) (hindex : m'.index = index)
    (hmetadata : m'.metadata = (m.metadata.index env.fa id payload).undelete id)
    (hregistry : m'.registry.Valid)
    (hlookup : ∀ j, m'.registry.lookup j = if j = id then some iri else m.registry.lookup j) :
    Holds env m' (l.apply (.write id iri vector payload)) where
  registry := hregistry
  lookup := by
    intro j
    rw [hlookup]
    show _ = update l.name id (some iri) j
    by_cases hj : j = id
    · rw [if_pos hj, hj, update_self]
    · rw [if_neg hj, update_of_ne hj, h.lookup]
  vector := by
    intro j
    rw [hstore, VectorStore.get_set hset]
    exact map_content_update h.vector id (some (vector, payload)) j
  node := by
    intro j
    rw [hindex, vectorAt_insert hinsert]
    exact map_content_update h.node id (some (vector, payload)) j
  payload := by
    intro j
    rw [hmetadata, getPayload_undelete, getPayload_index]
    exact map_content_update h.payload id (some (vector, payload)) j
  index := by
    obtain ⟨live, hlive⟩ := h.index
    obtain ⟨index', hinsert', hentered⟩ := hlive.insert hfit.admits hid level
    rw [hinsert] at hinsert'
    cases hinsert'
    exact ⟨_, hindex ▸ hentered⟩
  size := by
    rw [hstore, (VectorStore.eq_of_set hset).1]
    exact h.size
  deleted := by
    intro j hj
    rw [hmetadata] at hj
    have hmem : j ∈ (m.metadata.index env.fa id payload).deleted.erase id := hj
    rw [Finset.mem_erase, deleted_index] at hmem
    show update l.content id _ j = none
    rw [update_of_ne hmem.1]
    exact h.deleted j hmem.2

/-- A vector of the engine goes into the store and into the index. -/
theorem Holds.accepts (h : Holds env m l) (hfit : Fitting env vector) (hid : id ≠ noEntry) (level : ℕ) :
    (∃ store, m.store.set id vector.asBytes = .ok store) ∧
      ∃ index, m.index.insert env.hnsw id vector level = some index := by
  have hlength : vector.asBytes.length = m.store.elementSize := by
    rw [length_asBytes, hfit.dim, h.size]
  obtain ⟨live, hlive⟩ := h.index
  obtain ⟨index, hinsert, -⟩ := hlive.insert hfit.admits hid level
  exact ⟨VectorStore.set_ok hlength id, index, hinsert⟩

/-! ### A delete -/

theorem Holds.erase (h : Holds env m l) (id : UInt32) (hindex : m'.index = m.index.remove id)
    (hstore : m'.store = m.store.remove id) (hmetadata : m'.metadata = m.metadata.remove id)
    (hregistry : m'.registry = m.registry) : Holds env m' (l.apply (.erase id)) where
  registry := hregistry ▸ h.registry
  lookup := hregistry ▸ h.lookup
  vector := by
    intro j
    rw [hstore, VectorStore.get_remove]
    exact map_content_update h.vector id none j
  node := by
    intro j
    rw [hindex, vectorAt_remove]
    exact map_content_update h.node id none j
  payload := by
    intro j
    rw [hmetadata, getPayload_remove]
    exact map_content_update h.payload id none j
  index := by
    obtain ⟨live, hlive⟩ := h.index
    exact ⟨_, hindex ▸ hlive.remove id⟩
  size := by
    rw [hstore]
    exact h.size
  deleted := by
    intro j hj
    rw [hmetadata] at hj
    have hmem : j ∈ Insert.insert id m.metadata.deleted := hj
    show update l.content id none j = none
    by_cases hjid : j = id
    · rw [hjid, update_self]
    · rw [update_of_ne hjid]
      exact h.deleted j (Finset.mem_of_mem_insert_of_ne hmem hjid)

/-! ### Vacuum -/

/-- `vacuum` takes nothing from a ledger: deleted ids have no payload. -/
theorem Holds.vacuum (h : Holds env m l) : Holds env { m with metadata := m.metadata.vacuum.1 } l where
  registry := h.registry
  lookup := h.lookup
  vector := h.vector
  node := h.node
  payload := by
    intro j
    show m.metadata.vacuum.1.getPayload j = _
    rw [getPayload_vacuum]
    split_ifs with hj
    · rw [h.deleted j hj]
      rfl
    · exact h.payload j
  index := h.index
  size := h.size
  deleted := by
    intro j hj
    exact absurd hj (Finset.notMem_empty j)

/-! ### Replay -/

/-- The entry is the record of the change. -/
inductive Recorded (env : EngineEnv) : Entry → Change → Prop
  | insert {id : UInt32} {iri text : String} {vector : EmbeddingVector} {payload : Value}
      {clock : UInt64} (hlen : (HyperspaceEngine.walRecord env iri vector payload).encode.length < 2 ^ 32) :
      Recorded env ⟨.insert id text, clock,
        (HyperspaceEngine.walRecord env iri vector payload).encode⟩ (.write id iri vector payload)
  | upsert {id : UInt32} {iri text : String} {vector : EmbeddingVector} {payload : Value}
      {clock : UInt64} (hlen : (HyperspaceEngine.walRecord env iri vector payload).encode.length < 2 ^ 32) :
      Recorded env ⟨.upsert id text, clock,
        (HyperspaceEngine.walRecord env iri vector payload).encode⟩ (.write id iri vector payload)
  | delete {id : UInt32} {text : String} {clock : UInt64} {data : Bytes} :
      Recorded env ⟨.delete id text, clock, data⟩ (.erase id)

/-- The change gives an id the IRI it has in `whole`, and stores what fits the engine. -/
def Change.Within (env : EngineEnv) (whole : Ledger) : Change → Prop
  | .write id iri vector payload =>
    whole.name id = some iri ∧ Fitting env vector ∧ RoundTrips env payload
  | .erase _ => True

theorem writeOf_encode (hlen : (walRecord env iri vector payload).encode.length < 2 ^ 32)
    (hjson : RoundTrips env payload) :
    writeOf env id (walRecord env iri vector payload).encode =
      some (.write id iri vector payload) := by
  have hread : (fromBytes vector.asBytes
      ((vector.asBytes.length - 12) / 8)).toOption = some vector := by
    rw [dim_asBytes, fromBytes_asBytes]
    rfl
  have hpayload : env.fromJson (env.toJson payload) = some payload := hjson
  unfold writeOf
  rw [WalRecord.decode_encode hlen]
  simp only [walRecord, Option.join_some, Option.bind_eq_bind, Option.bind_some, hread, hpayload]

variable {whole : Ledger} {c : Change} {entry : Entry}

/-- The record of a change reads back. -/
theorem Recorded.recordOf (h : Recorded env entry c) (hc : c.Within env whole) : recordOf env entry = some c := by
  cases h with
  | insert hlen => exact writeOf_encode hlen hc.2.2
  | upsert hlen => exact writeOf_encode hlen hc.2.2
  | delete => rfl

theorem Ledger.Within.apply (h : l.Within whole) (hc : c.Within env whole) : (l.apply c).Within whole := by
  cases c with
  | erase id => exact h
  | write id iri vector payload =>
    intro j iri' hj
    have hj' : update l.name id (some iri) j = some iri' := hj
    by_cases hid : j = id
    · rw [hid, update_self] at hj'
      rw [hid, ← hj']
      exact hc.1
    · rw [update_of_ne hid] at hj'
      exact h j iri' hj'

theorem Holds.replayWrite (h : Holds env m l) (hwhole : whole.Sound env)
    (hwithin : l.Within whole) (hc : (Change.write id iri vector payload).Within env whole)
    (hlen : (walRecord env iri vector payload).encode.length < 2 ^ 32)
    (level : ℕ) :
    ∃ m', m.replayWrite env id (walRecord env iri vector payload).encode level =
      some m' ∧ Holds env m' (l.apply (.write id iri vector payload)) := by
  obtain ⟨hname, hfit, hjson⟩ := hc
  have hid : id ≠ noEntry := hwhole.named id iri hname
  obtain ⟨⟨store, hset⟩, index, hinsert⟩ := h.accepts hfit hid level
  have hregistry : (m.registry.registerId id iri).Valid := by
    refine h.registry.registerId hid ?_ ?_
    · intro iri' hlook
      have hname' : whole.name id = some iri' := hwithin id iri' (h.lookup id ▸ hlook)
      rw [hname] at hname'
      exact (Option.some.inj hname').symm
    · intro id' hres
      have hlook : m.registry.lookup id' = some iri := (h.registry.lookup_iff id' iri).2 hres
      exact hwhole.injective id' id iri (hwithin id' iri (h.lookup id' ▸ hlook)) hname
  refine ⟨_, by rw [replayWrite_record hlen rfl, hset, hinsert]; rfl, ?_⟩
  have hread : env.fromJson (env.toJson payload) = some payload := hjson
  refine h.write hfit hid hset hinsert ?_ ?_ ?_ ?_ ?_
  · simp [replayPayload, walRecord, hread]
  · simp [replayPayload, walRecord, hread]
  · simp [replayPayload, walRecord, hread]
  · simpa [replayPayload, walRecord, hread] using hregistry
  · intro j
    simp [replayPayload, walRecord, hread, IriRegistry.lookup_registerId]

/-- **The replay of a record is its change.** -/
theorem Holds.replayEntry (h : Holds env m l) (hwhole : whole.Sound env) (hwithin : l.Within whole)
    (hrec : Recorded env entry c) (hc : c.Within env whole) (level : ℕ) :
    ∃ m', m.replayEntry env entry level = some m' ∧ Holds env m' (l.apply c) := by
  have hclock : Holds env { m with clock := max m.clock entry.clock } l := h.congr rfl rfl rfl rfl
  cases hrec with
  | insert hlen => exact hclock.replayWrite hwhole hwithin hc hlen level
  | upsert hlen => exact hclock.replayWrite hwhole hwithin hc hlen level
  | delete => exact ⟨_, rfl, hclock.erase _ rfl rfl rfl rfl⟩

/-- **The replay of a list of records is the list of their changes.** -/
theorem Holds.replayEntries (hwhole : whole.Sound env) {entries : List Entry} {changes : List Change}
    (hrec : List.Forall₂ (Recorded env) entries changes) (hchanges : ∀ c ∈ changes, c.Within env whole)
    (h : Holds env m l) (hwithin : l.Within whole) (draw : ℕ → ℕ) :
    ∃ m', m.replayEntries env draw entries = some m' ∧ Holds env m' (l.applyAll changes) := by
  induction hrec generalizing m l draw with
  | nil => exact ⟨m, rfl, h⟩
  | @cons entry c entries changes hentry hrest ih =>
    have hc : c.Within env whole := hchanges c List.mem_cons_self
    obtain ⟨m₁, hm₁, h₁⟩ := h.replayEntry hwhole hwithin hentry hc (draw 0)
    obtain ⟨m₂, hm₂, h₂⟩ := ih (fun c' hc' => hchanges c' (List.mem_cons_of_mem c hc')) h₁
      (hwithin.apply hc) (fun k => draw (k + 1))
    refine ⟨m₂, ?_, h₂⟩
    rw [replayEntries_cons, hm₁]
    exact hm₂

end WildAgentOs.Engine
