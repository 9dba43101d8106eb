import WildAgentOs.Engine.Hnsw
import WildAgentOs.Engine.Registry
import WildAgentOs.Engine.Storage
import WildAgentOs.Engine.WalReplay
import WildAgentOs.Lib.Bincode

/-!
# The vector engine

`HyperspaceEngineImpl` of `engine.rs` with the files of its directory: the write-ahead log and
the snapshot.  A call is a function of the engine, of its arguments and of what the file system
and the random level draw do (`Io`).  `none` is a panic.

* `WalRecord`: the data of an insert record and its reading back;
* `HyperspaceEngine`, `insert`, `upsert`, `delete`, `vacuum`;
* `checkpoint` and its stages `rotateLog`, `takeSnapshot`, `writeTmp`, `renameTmp`,
  `removeFrozen`;
* `EngineMemory.restored`, `openDir`.
-/

namespace WildAgentOs.Engine

open LittleEndian Bincode Json

/-! ### Records of the log -/

structure WalRecord where
  iri : String
  vector : Bytes
  payload : Option String
  deriving DecidableEq

namespace WalRecord

def magic : Bytes := [0x48, 0x53, 0x52, 0x31]

/-- `encode`, with the payload as `serde_json` prints it. -/
def encode (r : WalRecord) : Bytes := magic ++ (putString r.iri ++ (putBytes r.vector ++ putOption putString r.payload))

/-- The fields after the magic.  Bytes after them are ignored. -/
def deserialize (bs : Bytes) : Option WalRecord := do
  let (iri, bs) ← getString bs
  let (vector, bs) ← getBytes bs
  let (payload, _) ← getOption getString bs
  pure ⟨iri, vector, payload⟩

/-- `decode`: bytes without the magic are a legacy record, `some none`; `none` is an error. -/
def decode (bs : Bytes) : Option (Option WalRecord) :=
  if magic <+: bs then (deserialize (bs.drop magic.length)).map some else some none

/-- **A record reads back, where it fits the length field of its packet.** -/
theorem decode_encode {r : WalRecord} (h : r.encode.length < 2 ^ 32) : decode r.encode = some (some r) := by
  have hlen : r.encode.length =
      4 + (((utf8 r.iri).length + 8) + ((r.vector.length + 8) + (putOption putString r.payload).length)) := by
    simp [encode, magic, putString]
    omega
  have hiri : (utf8 r.iri).length < 2 ^ 64 := by omega
  have hvector : r.vector.length < 2 ^ 64 := by omega
  have hpayload : ∀ p ∈ r.payload, getString (putString p ++ []) = some (p, []) := by
    intro p hp
    refine getString_putString ?_ []
    rw [Option.mem_def.1 hp] at hlen
    simp [putOption, putString] at hlen
    omega
  have hoption : getOption getString (putOption putString r.payload) = some (r.payload, []) := by
    rw [← List.append_nil (putOption putString r.payload)]
    exact getOption_putOption r.payload hpayload
  have hdrop : r.encode.drop magic.length =
      putString r.iri ++ (putBytes r.vector ++ putOption putString r.payload) := by
    rw [encode, List.drop_left]
  have hmagic : magic <+: r.encode := List.prefix_append _ _
  unfold decode
  rw [if_pos hmagic, hdrop]
  simp only [deserialize, getString_putString hiri, getBytes_putBytes hvector, hoption,
    Option.bind_eq_bind, Option.bind_some, Option.pure_def, Option.map_some]

end WalRecord

/-! ### Health -/

/-- The counters of `PersistenceHealth`. -/
structure HealthCounters where
  vectorCount : UInt32
  textCount : UInt32
  tagCount : UInt32
  corruptCount : UInt32
  deriving DecidableEq

structure EntryPresence where
  vector : Bool
  text : Bool
  tags : Bool
  deriving DecidableEq

namespace HealthCounters

def isConsistent (h : HealthCounters) : Bool :=
  h.corruptCount == 0 && h.vectorCount == h.textCount && h.vectorCount == h.tagCount

def recordCorruption (h : HealthCounters) : HealthCounters := { h with corruptCount := h.corruptCount + 1 }

def applyDelta (counter : UInt32) : Bool → Bool → UInt32
  | false, true => counter + 1
  | true, false => counter - 1
  | _, _ => counter

def applyEntryChange (h : HealthCounters) (before after : EntryPresence) : HealthCounters :=
  { h with
    vectorCount := applyDelta h.vectorCount before.vector after.vector
    textCount := applyDelta h.textCount before.text after.text
    tagCount := applyDelta h.tagCount before.tags after.tags }

theorem add_one_ne (x : UInt32) : x + 1 ≠ x := by
  intro h
  have hx : x + 1 - x = x - x := congrArg (· - x) h
  rw [UInt32.sub_self, UInt32.add_comm, UInt32.add_sub_cancel] at hx
  exact absurd hx (by decide)

end HealthCounters

/-- The payload has a text that is not empty. -/
def hasText (payload : Option Value) : Bool := ((payload.bind (Value.get · "text")).bind Value.asStr).any (· ≠ "")

/-- The payload has an array of tags. -/
def hasTags (payload : Option Value) : Bool := ((payload.bind (Value.get · "tags")).bind Value.asArray).isSome

/-! ### The engine -/

/-- What the engine uses from outside its own code, and its configuration. -/
structure EngineEnv where
  hnsw : HnswEnv
  fa : FloatArith
  crc : Bytes → UInt32
  /-- `alpha` of the ball models, from the coordinates -/
  ballAlpha : List F64 → F64
  /-- `serde_json::to_string` -/
  toJson : Value → String
  /-- `serde_json::from_str` -/
  fromJson : String → Option Value
  dim : ℕ
  config : HnswConfig
  syncMode : WalSyncMode

structure EngineSnapshot where
  nodes : List (Option SerializableNode)
  entryPoint : UInt32
  clock : UInt64
  iriRegistry : List (UInt32 × String)
  forwardMeta : List (UInt32 × String)
  deletedIds : List UInt32
  dimension : ℕ
  config : HnswConfig

/-- A snapshot file; `unreadable` is one that `load_snapshot` rejects. -/
inductive SnapshotFile
  | absent
  | unreadable
  | holds (snap : EngineSnapshot)

/-- The files of the engine's directory. -/
structure Disk where
  snapshot : SnapshotFile
  snapshotTmp : SnapshotFile
  frozen : List Segment
  active : Bytes

/-- The state in memory: `EngineInner`, the metadata, the health counters and the registry. -/
structure EngineMemory where
  index : IncrementalHNSW
  store : VectorStore
  clock : UInt64
  metadata : JsonLdMetadataIndex
  health : HealthCounters
  registry : IriRegistry

/-- A running engine: its memory, its log and the other files of its directory. -/
structure HyperspaceEngine extends EngineMemory where
  wal : EngineWal
  snapshot : SnapshotFile
  snapshotTmp : SnapshotFile

/-- What happens around one call: the clock of the machine, the file system, and the level
drawn for a new node. -/
structure Io where
  now : ℕ
  fault : IoFault
  level : ℕ

/-- The order in which the hash maps are iterated. -/
structure HashOrder where
  iris : List (UInt32 × String) → List (UInt32 × String)
  payloads : List (UInt32 × String) → List (UInt32 × String)
  iris_perm : ∀ l, (iris l).Perm l
  payloads_perm : ∀ l, (payloads l).Perm l

namespace EngineMemory

def entryPresence (e : EngineMemory) (id : UInt32) : EntryPresence where
  vector := (e.store.get id).isSome
  text := hasText (e.metadata.getPayload id)
  tags := hasTags (e.metadata.getPayload id)

def recordCorruption (e : EngineMemory) : EngineMemory := { e with health := e.health.recordCorruption }

def isRetrievalReady (e : EngineMemory) : Bool := e.health.isConsistent

end EngineMemory

namespace HyperspaceEngine

/-- The files the engine leaves when its process ends. -/
def disk (e : HyperspaceEngine) : Disk := ⟨e.snapshot, e.snapshotTmp, e.wal.frozen, e.wal.active⟩

section
variable (env : EngineEnv)

/-- The log record of a write. -/
def walRecord (iri : String) (vector : EmbeddingVector) (jsonld : Value) : WalRecord :=
  ⟨iri, vector.asBytes, some (env.toJson jsonld)⟩

/-- The log entry of a write on this engine. -/
def writeEntry (op : UInt32 → String → WalOp) (e : HyperspaceEngine) (iri : String)
    (vector : EmbeddingVector) (jsonld : Value) : Entry :=
  ⟨op (e.registry.register iri).2 iri, e.clock + 1, (walRecord env iri vector jsonld).encode⟩

/-- The body that `insert` and `upsert` share, with the operation they log. -/
def write (op : UInt32 → String → WalOp) (e : HyperspaceEngine) (iri : String) (vector : EmbeddingVector)
    (jsonld : Value) (io : Io) : Option (HyperspaceEngine × Except EngineError UInt32) :=
  let bytes := vector.asBytes
  let entry := writeEntry env op e iri vector jsonld
  let (registry, id) := e.registry.register iri
  let before := e.entryPresence id
  let e := { e with registry, clock := e.clock + 1 }
  match e.wal.append env.crc entry io.now io.fault with
  | (wal, .error err) => some ({ e with wal }, .error err)
  | (wal, .ok ()) =>
    match e.store.set id bytes with
    | .error err => some ({ e with wal }, .error err)
    | .ok store => do
      let index ← e.index.insert env.hnsw id vector io.level
      let metadata := (e.metadata.index env.fa id jsonld).undelete id
      let e := { e with wal, store, index, metadata }
      some ({ e with health := e.health.applyEntryChange before (e.entryPresence id) }, .ok id)

def insert := write env .insert

def upsert := write env .upsert

def delete (e : HyperspaceEngine) (iri : String) (io : Io) : HyperspaceEngine × Except EngineError Unit :=
  match e.registry.resolve iri with
  | none => (e, .error (.notFound iri))
  | some id =>
    let before := e.entryPresence id
    let e := { e with clock := e.clock + 1 }
    match e.wal.append env.crc ⟨.delete id iri, e.clock, []⟩ io.now io.fault with
    | (wal, .error err) => ({ e with wal }, .error err)
    | (wal, .ok ()) =>
      ({ e with
          wal
          store := e.store.remove id
          index := e.index.remove id
          metadata := e.metadata.remove id
          health := e.health.applyEntryChange before ⟨false, false, false⟩ }, .ok ())

/-- `vacuum`, without interference. -/
def vacuum (e : HyperspaceEngine) : HyperspaceEngine := { e with metadata := e.metadata.vacuum.1 }

/-- The engine of a write that stops at an error: the IRI is registered and the clock has
advanced. -/
def stopped (e : HyperspaceEngine) (iri : String) (wal : EngineWal) : HyperspaceEngine :=
  { e with registry := (e.registry.register iri).1, clock := e.clock + 1, wal }

/-- The engine of a write that succeeds, but for its health. -/
def written (e : HyperspaceEngine) (iri : String) (jsonld : Value) (wal : EngineWal)
    (store : VectorStore) (index : IncrementalHNSW) : HyperspaceEngine :=
  { e.stopped iri wal with
    store, index
    metadata := (e.metadata.index env.fa (e.registry.register iri).2 jsonld).undelete
      (e.registry.register iri).2 }

variable {e e' : HyperspaceEngine} {iri : String} {io : Io}

/-- What a write can do: fail at the log, fail at the store, or go through. -/
theorem write_cases {op : UInt32 → String → WalOp}
    {vector : EmbeddingVector} {jsonld : Value} {r : Except EngineError UInt32}
    (h : write env op e iri vector jsonld io = some (e', r)) :
    ∃ wal res, e.wal.append env.crc (writeEntry env op e iri vector jsonld) io.now io.fault = (wal, res) ∧
      ((∃ err, res = .error err ∧ r = .error err ∧ e' = e.stopped iri wal) ∨
        (∃ err, res = .ok () ∧ e.store.set (e.registry.register iri).2 vector.asBytes = .error err ∧
          r = .error err ∧ e' = e.stopped iri wal) ∨
        ∃ store index health, res = .ok () ∧ e.store.set (e.registry.register iri).2 vector.asBytes = .ok store ∧
          e.index.insert env.hnsw (e.registry.register iri).2 vector io.level = some index ∧
          r = .ok (e.registry.register iri).2 ∧
          e' = { written env e iri jsonld wal store index with health }) := by
  unfold write at h
  cases happ : e.wal.append env.crc (writeEntry env op e iri vector jsonld) io.now io.fault with
  | mk wal res =>
    refine ⟨wal, res, rfl, ?_⟩
    simp only [happ] at h
    cases res with
    | error err =>
      cases h
      exact .inl ⟨err, rfl, rfl, rfl⟩
    | ok =>
      cases hset : e.store.set (e.registry.register iri).2 vector.asBytes with
      | error err =>
        simp only [hset] at h
        cases h
        exact .inr (.inl ⟨err, rfl, rfl, rfl, rfl⟩)
      | ok store =>
        simp only [hset] at h
        obtain ⟨index, hindex, h⟩ := Option.bind_eq_some_iff.1 h
        cases h
        exact .inr (.inr ⟨store, index, _, rfl, rfl, hindex, rfl, rfl⟩)

/-- What a delete can do: find no such IRI, fail at the log, or go through. -/
theorem delete_cases {r : Except EngineError Unit} (h : delete env e iri io = (e', r)) :
    (e.registry.resolve iri = none ∧ e' = e ∧ r = .error (.notFound iri)) ∨
      ∃ id wal res, e.registry.resolve iri = some id ∧
        e.wal.append env.crc ⟨.delete id iri, e.clock + 1, []⟩ io.now io.fault = (wal, res) ∧
        ((∃ err, res = .error err ∧ r = .error err ∧ e' = { e with clock := e.clock + 1, wal }) ∨
          ∃ health, res = .ok () ∧ r = .ok () ∧
            e' = { e with
              clock := e.clock + 1
              wal
              store := e.store.remove id
              index := e.index.remove id
              metadata := e.metadata.remove id
              health }) := by
  unfold delete at h
  cases hres : e.registry.resolve iri with
  | none =>
    simp only [hres] at h
    cases h
    exact .inl ⟨rfl, rfl, rfl⟩
  | some id =>
    simp only [hres] at h
    cases happ : e.wal.append env.crc ⟨.delete id iri, e.clock + 1, []⟩ io.now io.fault with
    | mk wal res =>
      simp only [happ] at h
      refine .inr ⟨id, wal, res, rfl, happ, ?_⟩
      cases res with
      | error err =>
        cases h
        exact .inl ⟨err, rfl, rfl, rfl⟩
      | ok =>
        cases h
        exact .inr ⟨_, rfl, rfl, rfl⟩

/-! ### Checkpoint -/

/-- Phase 1: the active segment becomes a frozen one. -/
def rotateLog (e : HyperspaceEngine) (now : ℕ) : HyperspaceEngine := { e with wal := e.wal.rotate now }

/-- Phase 2: the snapshot of the state in memory. -/
def takeSnapshot (e : HyperspaceEngine) (order : HashOrder) : EngineSnapshot where
  nodes := e.index.exportNodes
  entryPoint := 0
  clock := e.clock
  iriRegistry := e.registry.export order.iris
  forwardMeta := order.payloads (e.metadata.forward.entries.map fun p => (p.1, env.toJson p.2))
  deletedIds := e.metadata.deleted.sort (· ≤ ·)
  dimension := env.dim
  config := env.config

/-- The first half of `save_snapshot`. -/
def writeTmp (e : HyperspaceEngine) (snap : EngineSnapshot) : HyperspaceEngine := { e with snapshotTmp := .holds snap }

/-- The second half of `save_snapshot`: the rename. -/
def renameTmp (e : HyperspaceEngine) : HyperspaceEngine := { e with snapshot := e.snapshotTmp, snapshotTmp := .absent }

/-- The frozen segments that are left when those of the given names have been removed. -/
def removeFrozen (e : HyperspaceEngine) (removed : List ℕ) : HyperspaceEngine :=
  { e with wal := { e.wal with frozen := e.wal.frozen.filter fun s => s.timestamp ∉ removed } }

/-- Phase 3, complete: `cleanup_frozen`. -/
def cleanupFrozen (e : HyperspaceEngine) : HyperspaceEngine := e.removeFrozen (e.wal.frozen.map Segment.timestamp)

/-- `checkpoint`, where no file-system call fails. -/
def checkpoint (e : HyperspaceEngine) (now : ℕ) (order : HashOrder) : HyperspaceEngine :=
  let e := e.rotateLog now
  let e := e.writeTmp (e.takeSnapshot env order)
  e.renameTmp.cleanupFrozen

end

end HyperspaceEngine

/-! ### Opening a directory -/

namespace EngineMemory

section
variable (env : EngineEnv)

/-- The state before anything is read. -/
def fresh : EngineMemory where
  index := .new env.config
  store := .new (EmbeddingVector.elementSize env.dim)
  clock := 0
  metadata := .new
  health := ⟨0, 0, 0, 0⟩
  registry := .new

/-- One node of a snapshot goes into the store; an error is ignored. -/
def restoreVector (store : VectorStore) (p : Option SerializableNode × ℕ) : VectorStore :=
  match p.1 with
  | none => store
  | some node =>
    let vec := EmbeddingVector.newUnchecked env.ballAlpha node.coords env.hnsw.metric.kind
    match store.set (UInt32.ofNat p.2) vec.asBytes with
    | .ok store => store
    | .error _ => store

/-- One entry of the forward metadata of a snapshot. -/
def restorePayload (e : EngineMemory) (p : UInt32 × String) : EngineMemory :=
  match env.fromJson p.2 with
  | some payload => { e with metadata := e.metadata.index env.fa p.1 payload }
  | none => e.recordCorruption

/-- The snapshot load of `open`. -/
def loadSnapshot (e : EngineMemory) (snap : EngineSnapshot) : EngineMemory :=
  let e :=
    { e with
      index := e.index.importNodes env.hnsw snap.nodes
      clock := snap.clock
      store := snap.nodes.zipIdx.foldl (restoreVector env) e.store
      registry := e.registry.import snap.iriRegistry }
  let e := snap.forwardMeta.foldl (restorePayload env) e
  { e with metadata := snap.deletedIds.foldl JsonLdMetadataIndex.remove e.metadata }

def loadSnapshotFile (e : EngineMemory) : SnapshotFile → EngineMemory
  | .absent => e
  | .unreadable => e.recordCorruption
  | .holds snap => e.loadSnapshot env snap

/-- The index part of a replayed write. -/
def replayVector (e : EngineMemory) (id : UInt32) (vectorBytes : Bytes) (level : ℕ) : Option EngineMemory :=
  if vectorBytes.isEmpty then some e
  else
    match EmbeddingVector.fromBytes vectorBytes ((vectorBytes.length - 12) / 8) with
    | .ok vec => do
      let index ← e.index.insert env.hnsw id vec level
      some { e with index }
    | .error _ => some e.recordCorruption

/-- The registry part of a replayed write; a legacy record has no IRI. -/
def replayIri (e : EngineMemory) (id : UInt32) : Option WalRecord → EngineMemory
  | some record => { e with registry := e.registry.registerId id record.iri }
  | none => e

/-- The payload part of a replayed write. -/
def replayPayload (e : EngineMemory) (id : UInt32) (record : Option WalRecord) : EngineMemory :=
  match record.bind WalRecord.payload with
  | none => e
  | some payload =>
    match env.fromJson payload with
    | some payload => { e with metadata := (e.metadata.index env.fa id payload).undelete id }
    | none => e.recordCorruption

/-- A replayed insert or upsert. -/
def replayWrite (e : EngineMemory) (id : UInt32) (data : Bytes) (level : ℕ) : Option EngineMemory :=
  match WalRecord.decode data with
  | none => some e.recordCorruption
  | some record =>
    let vectorBytes := (record.map WalRecord.vector).getD data
    match e.store.set id vectorBytes with
    | .error _ => some e.recordCorruption
    | .ok store => do
      let e ← { e with store }.replayVector env id vectorBytes level
      some ((e.replayIri id record).replayPayload env id record)

/-- The callback of `recover`. -/
def replayEntry (e : EngineMemory) (entry : Entry) (level : ℕ) : Option EngineMemory :=
  let e := { e with clock := max e.clock entry.clock }
  match entry.op with
  | .insert id _ | .upsert id _ => e.replayWrite env id entry.data level
  | .delete id _ =>
    some { e with
      store := e.store.remove id
      index := e.index.remove id
      metadata := e.metadata.remove id }
  | .metadataUpdate _ _ => some e

/-- The entries in order; `draw` gives the level of each. -/
def replayEntries (draw : ℕ → ℕ) (e : EngineMemory) (entries : List Entry) : Option EngineMemory :=
  entries.zipIdx.foldlM (fun e p => e.replayEntry env p.1 (draw p.2)) e

/-- `scan_persistence_health` and `initialize_health`. -/
def initializeHealth (e : EngineMemory) : EngineMemory :=
  let payloads := e.store.activeIds.map e.metadata.getPayload
  { e with
    health :=
      { e.health with
        vectorCount := e.store.activeCount
        textCount := UInt32.ofNat (payloads.countP fun p => hasText p)
        tagCount := UInt32.ofNat (payloads.countP fun p => hasTags p) } }

/-- The memory `open` builds from a snapshot file and the entries of the log. -/
def restored (draw : ℕ → ℕ) (snapshot : SnapshotFile) (entries : List Entry) : Option EngineMemory := do
  let e ← ((fresh env).loadSnapshotFile env snapshot).replayEntries env draw entries
  some e.initializeHealth

end

end EngineMemory

namespace HyperspaceEngine

section
variable (env : EngineEnv)

/-- The log of a directory as `open` finds it. -/
def diskWal (disk : Disk) : EngineWal := .openDir disk.frozen disk.active env.syncMode

/-- The files as `recover` leaves them: every segment truncated to what it delivered. -/
def healed (wal : EngineWal) : EngineWal :=
  { wal with
    frozen := wal.frozen.map fun s => { s with bytes := (replay env.crc s.bytes).2 }
    active := (replay env.crc wal.active).2 }

/-- `open`: load the snapshot, `recover`, count the health. -/
def openDir (draw : ℕ → ℕ) (disk : Disk) : Option HyperspaceEngine := do
  let wal := diskWal env disk
  let memory ← EngineMemory.restored env draw disk.snapshot (wal.recovered env.crc)
  some { memory with
    wal := healed env wal
    snapshot := disk.snapshot
    snapshotTmp := disk.snapshotTmp }

end

/-! ### A small engine -/

/-- The cosine engine of the plane for the runs on fixed inputs: unit vectors along the axes have
distance `0.0` or `1.0`, and the payloads are `null` and the empty object. -/
def planeEnv : EngineEnv where
  hnsw :=
    { metric := ⟨.cosine, fun a b => if a.coords = b.coords then ⟨0⟩ else ⟨0x3FF0000000000000⟩⟩
      position := fun l d => (l.filter fun x => !F64.totalLe d x).length
      position_le := length_filter_not_totalLe_le }
  fa := ⟨fun _ => none, fun _ => 0⟩
  crc := crc32
  ballAlpha := fun _ => ⟨0⟩
  toJson
    | .object [] => "\x7b\x7d"
    | _ => "null"
  fromJson s := if s = "\x7b\x7d" then some (.object []) else if s = "null" then some .null else none
  dim := 2
  config := ⟨50, 16, 32⟩
  syncMode := .strict

/-- The unit vectors of the plane. -/
def unitX : EmbeddingVector := ⟨[⟨0x3FF0000000000000⟩, ⟨0⟩], .cosine, ⟨0⟩⟩

def unitY : EmbeddingVector := ⟨[⟨0⟩, ⟨0x3FF0000000000000⟩], .cosine, ⟨0⟩⟩

/-- An engine on an empty directory. -/
def emptyEngine : HyperspaceEngine :=
  { EngineMemory.fresh planeEnv with
    wal := .openDir [] [] .strict
    snapshot := .absent
    snapshotTmp := .absent }

/-- A call in which no file-system call fails and the new node is in layer 0 only. -/
def quiet (now : ℕ) : Io := ⟨now, .none, 0⟩

end HyperspaceEngine

end WildAgentOs.Engine
