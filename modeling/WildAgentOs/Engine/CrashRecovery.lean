import WildAgentOs.Engine.Directory

/-!
# Crashes and recovery

Runs of successful calls with a crash and a reopen anywhere between two durable steps.  What a
run has acknowledged is the list of its changes: of every call that returned, and of a call
whose record was in the log when the process died.

* `CrashPoint`, `crashed`, `step`, `runFrom`;
* `SafeRemoval`: the segments a crash in `cleanup_frozen` leaves repeat the last change of every
  id they mention;
* `Durable`, `openDir_cleanRun`.
-/

namespace WildAgentOs.Engine

open LittleEndian Json IncrementalHNSW EngineMemory HyperspaceEngine List Function Option

/-! ### Runs -/

inductive WriteKind
  | insert
  | upsert
  deriving DecidableEq

def WriteKind.op : WriteKind → UInt32 → String → WalOp
  | insert => .insert
  | upsert => .upsert

/-- A place between two durable steps: between calls, after the rename of a rotation, after the
append of a call, and in a checkpoint after the temporary file, after the rename of the
snapshot, and after the removal of some frozen segments. -/
inductive CrashPoint
  | idle
  | rotated (now : ℕ)
  | loggedWrite (kind : WriteKind) (iri : String) (vector : EmbeddingVector) (jsonld : Value)
      (io : Io)
  | loggedDelete (iri : String) (io : Io)
  | wroteTmp (now : ℕ) (order : HashOrder)
  | renamed (now : ℕ) (order : HashOrder)
  | cleaning (now : ℕ) (order : HashOrder) (removed : List ℕ)

/-- A successful call, or a crash with the reopen that follows it. -/
inductive CrashEvent
  | write (kind : WriteKind) (iri : String) (vector : EmbeddingVector) (jsonld : Value) (io : Io)
  | delete (iri : String) (io : Io)
  | vacuum
  | checkpoint (now : ℕ) (order : HashOrder)
  | crash (point : CrashPoint) (draw : ℕ → ℕ)

/-- The running engine and the changes acknowledged so far. -/
structure CrashRun where
  engine : HyperspaceEngine
  acked : List Change

/-- The change of a write on this engine. -/
def writeChange (e : HyperspaceEngine) (iri : String) (vector : EmbeddingVector)
    (jsonld : Value) : Change :=
  .write (e.registry.register iri).2 iri vector jsonld

namespace CrashRun

section
variable (env : EngineEnv)

/-- The state after the snapshot of a checkpoint has been renamed. -/
def snapshotted (e : HyperspaceEngine) (now : ℕ) (order : HashOrder) : HyperspaceEngine :=
  let e := e.rotateLog now
  (e.writeTmp (e.takeSnapshot env order)).renameTmp

/-- The files a crash leaves and the change it adds to the acknowledged ones; `none` where the
call does not get to the point. -/
def crashed (e : HyperspaceEngine) : CrashPoint → Option (Disk × List Change)
  | .idle => some (e.disk, [])
  | .rotated now => some ((e.rotateLog now).disk, [])
  | .loggedWrite kind iri vector jsonld io =>
    match e.wal.append env.crc (writeEntry env kind.op e iri vector jsonld) io.now io.fault with
    | (wal, .ok ()) =>
      some ({ e with wal : HyperspaceEngine }.disk, [writeChange e iri vector jsonld])
    | (_, .error _) => none
  | .loggedDelete iri io => do
    let id ← e.registry.resolve iri
    match e.wal.append env.crc ⟨.delete id iri, e.clock + 1, []⟩ io.now io.fault with
    | (wal, .ok ()) => some ({ e with wal : HyperspaceEngine }.disk, [.erase id])
    | (_, .error _) => none
  | .wroteTmp now order =>
    let e := e.rotateLog now
    some ((e.writeTmp (e.takeSnapshot env order)).disk, [])
  | .renamed now order => some ((snapshotted env e now order).disk, [])
  | .cleaning now order removed =>
    some (((snapshotted env e now order).removeFrozen removed).disk, [])

/-- One event; `none` where a call does not succeed or an open panics. -/
def step (s : CrashRun) : CrashEvent → Option CrashRun
  | .write kind iri vector jsonld io =>
    match write env kind.op s.engine iri vector jsonld io with
    | some (engine, .ok _) => some ⟨engine, s.acked ++ [writeChange s.engine iri vector jsonld]⟩
    | _ => none
  | .delete iri io => do
    let id ← s.engine.registry.resolve iri
    match delete env s.engine iri io with
    | (engine, .ok ()) => some ⟨engine, s.acked ++ [.erase id]⟩
    | (_, .error _) => none
  | .vacuum => some { s with engine := s.engine.vacuum }
  | .checkpoint now order => some { s with engine := s.engine.checkpoint env now order }
  | .crash point draw => do
    let (disk, changes) ← crashed env s.engine point
    let engine ← openDir env draw disk
    some ⟨engine, s.acked ++ changes⟩

def runFrom (s : CrashRun) (events : List CrashEvent) : Option CrashRun := events.foldlM (step env) s

/-- An engine opened on an empty directory. -/
def start : CrashRun :=
  ⟨{ fresh env with
      wal := .openDir [] [] env.syncMode
      snapshot := .absent
      snapshotTmp := .absent }, []⟩

end

end CrashRun

/-- The memory answers as the ledger says: the same IRIs and ids, and for every id the vector
bytes, the index node and the payload of its last write, or none after a delete. -/
structure Recovers (m : EngineMemory) (l : Ledger) : Prop where
  resolve : ∀ iri id, m.registry.resolve iri = some id ↔ l.name id = some iri
  lookup : ∀ id, m.registry.lookup id = l.name id
  vector : ∀ id, m.store.get id = (l.content id).map fun c => c.1.asBytes
  node : ∀ id, m.index.vectorAt id = (l.content id).map Prod.fst
  payload : ∀ id, m.metadata.getPayload id = (l.content id).map Prod.snd

theorem Holds.recovers {env : EngineEnv} {m : EngineMemory} {l : Ledger} (h : Holds env m l) : Recovers m l where
  resolve := by
    intro iri id
    rw [← h.registry.lookup_iff, h.lookup]
  lookup := h.lookup
  vector := h.vector
  node := h.node
  payload := h.payload

/-! ### Clean runs -/

section
variable (env : EngineEnv)

/-- For every id with a record in the segments that are left, its last record there has the
effect of its last record in all the segments. -/
def SafeRemoval (e : HyperspaceEngine) (removed : List ℕ) : Prop :=
  ∀ id effect, KeyedLog.last (logEffects env (e.removeFrozen removed).wal) id = some effect →
    KeyedLog.last (logEffects env e.wal) id = some effect

/-- Whenever a segment has been removed, so have the older ones. -/
def OldestFirst (e : HyperspaceEngine) (removed : List ℕ) : Prop :=
  ∀ s ∈ e.wal.frozen, ∀ t ∈ e.wal.frozen, s.timestamp < t.timestamp → t.timestamp ∈ removed → s.timestamp ∈ removed

instance (e : HyperspaceEngine) (removed : List ℕ) : Decidable (OldestFirst e removed) :=
  inferInstanceAs (Decidable (∀ s ∈ e.wal.frozen, ∀ t ∈ e.wal.frozen, _))

/-- A rotation at this time takes a new name, later than the others. -/
def NewName (e : HyperspaceEngine) (now : ℕ) : Prop := ∀ s ∈ e.wal.frozen, s.timestamp < now

instance (e : HyperspaceEngine) (now : ℕ) : Decidable (NewName e now) :=
  inferInstanceAs (Decidable (∀ s ∈ e.wal.frozen, _))

/-- A write of a vector that fits the engine and of a payload that `serde_json` reads back, whose
record fits the length field of its packet, while there is an id left for a new IRI. -/
structure CleanWrite (e : HyperspaceEngine) (kind : WriteKind) (iri : String)
    (vector : EmbeddingVector) (jsonld : Value) (io : Io) : Prop where
  fitting : Fitting env vector
  roundTrips : RoundTrips env jsonld
  fits : (writeEntry env kind.op e iri vector jsonld).Fits
  idLeft : e.registry.resolve iri = none → e.registry.nextId ≠ noEntry
  newName : e.wal.rotates env.crc (writeEntry env kind.op e iri vector jsonld) = true → NewName e io.now

/-- A delete that rotates the log takes a new name for it. -/
def CleanDelete (e : HyperspaceEngine) (iri : String) (io : Io) : Prop :=
  ∀ id, e.registry.resolve iri = some id →
    e.wal.rotates env.crc ⟨.delete id iri, e.clock + 1, []⟩ = true → NewName e io.now

def CleanPoint (e : HyperspaceEngine) : CrashPoint → Prop
  | .idle => True
  | .rotated now | .wroteTmp now _ | .renamed now _ => NewName e now
  | .loggedWrite kind iri vector jsonld io => CleanWrite env e kind iri vector jsonld io
  | .loggedDelete iri io => CleanDelete env e iri io
  | .cleaning now order removed =>
    NewName e now ∧ SafeRemoval env (CrashRun.snapshotted env e now order) removed

def CleanCrashEvent (s : CrashRun) : CrashEvent → Prop
  | .write kind iri vector jsonld io => CleanWrite env s.engine kind iri vector jsonld io
  | .delete iri io => CleanDelete env s.engine iri io
  | .vacuum => True
  | .checkpoint now _ => NewName s.engine now
  | .crash point _ => CleanPoint env s.engine point

/-- Every event of the run is clean in the state it finds. -/
def CleanCrashRun : CrashRun → List CrashEvent → Prop
  | _, [] => True
  | s, event :: events =>
    CleanCrashEvent env s event ∧ match s.step env event with
      | some s' => CleanCrashRun s' events
      | none => True

end

variable {env : EngineEnv} {d : Disk} {e : HyperspaceEngine} {l : Ledger}

/-! ### Writes and deletes -/

/-- A ledger with the names of a valid registry is sound. -/
theorem sound_of_registry {r : IriRegistry} (hr : r.Valid) (hlookup : ∀ id, r.lookup id = l.name id)
    (hfitting : ∀ id c, l.content id = some c → Fitting env c.1 ∧ RoundTrips env c.2) :
    l.Sound env where
  named := by
    intro id iri hname
    exact hr.ne_max ((hlookup id).trans hname)
  injective := by
    intro id id' iri hname hname'
    have hres := (hr.lookup_iff id iri).1 ((hlookup id).trans hname)
    have hres' := (hr.lookup_iff id' iri).1 ((hlookup id').trans hname')
    exact some.inj (hres.symm.trans hres')
  fitting := hfitting

section
variable {kind : WriteKind} {iri : String} {vector : EmbeddingVector} {jsonld : Value} {io : Io}

/-- The change of a write names what `register` registers. -/
theorem Holds.name_writeChange (h : Holds env e.toEngineMemory l) (id : UInt32) :
    (e.registry.register iri).1.lookup id = (l.apply (writeChange e iri vector jsonld)).name id := by
  rw [h.registry.lookup_register]
  show _ = update l.name (e.registry.register iri).2 (some iri) id
  by_cases hid : id = (e.registry.register iri).2
  · rw [if_pos hid, hid, update_self]
  · rw [if_neg hid, update_of_ne hid, h.lookup]

/-- The change of a clean write keeps a ledger sound and its names as they are. -/
theorem CleanWrite.sound (hc : CleanWrite env e kind iri vector jsonld io)
    (h : Holds env e.toEngineMemory l) (hsound : l.Sound env) :
    (l.apply (writeChange e iri vector jsonld)).Sound env ∧
      (writeChange e iri vector jsonld).Within env (l.apply (writeChange e iri vector jsonld)) ∧
      l.Within (l.apply (writeChange e iri vector jsonld)) := by
  refine ⟨sound_of_registry (h.registry.register hc.idLeft) h.name_writeChange ?_, ?_, ?_⟩
  · intro id c hcontent
    have hcontent' : update l.content (e.registry.register iri).2 (some (vector, jsonld)) id = some c := hcontent
    by_cases hid : id = (e.registry.register iri).2
    · rw [hid, update_self] at hcontent'
      cases hcontent'
      exact ⟨hc.fitting, hc.roundTrips⟩
    · rw [update_of_ne hid] at hcontent'
      exact hsound.fitting id c hcontent'
  · refine ⟨?_, hc.fitting, hc.roundTrips⟩
    exact update_self _ _ _
  · intro id iri' hname
    rw [← h.name_writeChange]
    exact h.registry.extends_register iri id iri' ((h.lookup id).trans hname)

/-- The entry of a write records its change. -/
theorem recorded_writeEntry (hfits : (writeEntry env kind.op e iri vector jsonld).Fits) :
    Recorded env (writeEntry env kind.op e iri vector jsonld).delivered (writeChange e iri vector jsonld) := by
  have hlen : (walRecord env iri vector jsonld).encode.length < 2 ^ 32 := by
    have hdata : (walRecord env iri vector jsonld).encode.length + 13 < 2 ^ 32 := hfits
    omega
  cases kind with
  | insert => exact .insert hlen
  | upsert => exact .upsert hlen

end

/-! ### Engines and their directories -/

/-- The memory of an engine and its directory both store the ledger. -/
structure Durable (env : EngineEnv) (e : HyperspaceEngine) (l : Ledger) : Prop where
  memory : Holds env e.toEngineMemory l
  sound : l.Sound env
  disk : DiskHolds env e.snapshot e.wal l

theorem durable_start : Durable env (CrashRun.start env).engine (ledger []) where
  memory := holds_fresh.congr rfl rfl rfl rfl
  sound := sound_of_registry IriRegistry.valid_new (fun _ => rfl) (fun _ _ hnone => by cases hnone)
  disk := by
    have hord : (EngineWal.openDir [] [] env.syncMode).Ordered := List.Pairwise.nil
    have hnone : (EngineWal.openDir [] [] env.syncMode).recovered env.crc = [] := by
      rw [hord.recovered]
      rfl
    refine ⟨⟨hord, by rintro _ ⟨⟩, whole_nil⟩, ?_, .empty, ?_, fun _ _ hname => hname, ?_⟩
    · intro x hx
      have hx' : x ∈ (EngineWal.openDir [] [] env.syncMode).recovered env.crc := hx
      rw [hnone] at hx'
      cases hx'
    · exact holds_fresh
    · have hnone' : (CrashRun.start env).engine.wal.recovered env.crc = [] := hnone
      rw [hnone']
      rfl

/-- **A directory that holds a ledger opens to an engine that holds it.** -/
theorem Durable.openDir (hdisk : DiskHolds env d.snapshot (diskWal env d) l) (hsound : l.Sound env)
    (draw : ℕ → ℕ) : ∃ e, openDir env draw d = some e ∧ Durable env e l := by
  obtain ⟨e, hopen, hmemory, hdisk'⟩ := hdisk.openDir hsound draw
  exact ⟨e, hopen, hmemory, hsound, hdisk'⟩

/-! ### One event -/

/-- Behind a rotation, a complete removal leaves no record. -/
theorem safeRemoval_all (hord : e.wal.Ordered) (hactive : e.wal.active = []) :
    SafeRemoval env e (e.wal.frozen.map Segment.timestamp) := by
  have hfrozen : (e.removeFrozen (e.wal.frozen.map Segment.timestamp)).wal.frozen = [] := by
    refine filter_eq_nil_iff.2 fun s hs => ?_
    simpa using ⟨s, hs, rfl⟩
  have hord' : (e.removeFrozen (e.wal.frozen.map Segment.timestamp)).wal.Ordered := hord.filter _
  have hactive' : (e.removeFrozen (e.wal.frozen.map Segment.timestamp)).wal.active = [] := hactive
  intro id effect hlast
  unfold logEffects at hlast
  rw [hord'.recovered, hfrozen, hactive', replay_nil] at hlast
  cases hlast

/-- A list whose first elements are those with a property is split by it. -/
theorem filter_append_filter_not {α : Type*} {p : α → Bool} {xs : List α}
    (h : xs.Pairwise fun x y => p y = true → p x = true) : xs.filter p ++ xs.filter (fun x => !p x) = xs := by
  induction xs with
  | nil => rfl
  | cons x xs ih =>
    obtain ⟨hx, hxs⟩ := pairwise_cons.1 h
    by_cases hp : p x = true
    · simp [hp, ih hxs]
    · have hnone : ∀ y ∈ xs, ¬ p y = true := fun y hy hpy => hp (hx y hy hpy)
      have hall : xs.filter (fun y => !p y) = xs := by
        refine filter_eq_self.2 fun y hy => ?_
        simpa using hnone y hy
      rw [filter_cons_of_neg hp, filter_eq_nil_iff.2 hnone, filter_cons_of_pos (by simpa using hp),
        hall]
      rfl

variable {removed : List ℕ}

/-- **Removing the oldest segments first is safe.** -/
theorem safeRemoval_oldestFirst (hord : e.wal.Ordered)
    (hfirst : OldestFirst e removed) : SafeRemoval env e removed := by
  have hpairs : e.wal.frozen.Pairwise fun s t =>
      decide (t.timestamp ∈ removed) = true → decide (s.timestamp ∈ removed) = true := by
    refine List.Pairwise.imp_of_mem ?_ hord
    intro s t hs ht hlt hmem
    exact decide_eq_true (hfirst s hs t ht hlt (of_decide_eq_true hmem))
  have hsplit := filter_append_filter_not hpairs
  have hord' : (e.removeFrozen removed).wal.Ordered := hord.filter _
  intro id effect hlast
  unfold logEffects changesOf at hlast ⊢
  rw [hord'.recovered] at hlast
  rw [hord.recovered, ← hsplit, flatMap_append, append_assoc, filterMap_append, map_append, KeyedLog.last_append]
  have hleft : (e.removeFrozen removed).wal.frozen =
      e.wal.frozen.filter (fun s => !decide (s.timestamp ∈ removed)) := by
    refine filter_congr fun s _ => ?_
    simp
  rw [hleft] at hlast
  have hactive : (e.removeFrozen removed).wal.active = e.wal.active := rfl
  rw [hactive] at hlast
  rw [hlast]
  rfl

variable {vector : EmbeddingVector} {kind : WriteKind}

section
variable (h : Durable env e l)
include h

variable {iri : String} {io : Io} {wal : EngineWal} {jsonld : Value}

theorem Durable.loggedWrite (hc : CleanWrite env e kind iri vector jsonld io)
    (happ : e.wal.append env.crc (writeEntry env kind.op e iri vector jsonld) io.now io.fault = (wal, .ok ())) :
    DiskHolds env e.snapshot wal (l.apply (writeChange e iri vector jsonld)) ∧
      (l.apply (writeChange e iri vector jsonld)).Sound env := by
  obtain ⟨hsound, hwithin, hext⟩ := hc.sound h.memory h.sound
  exact ⟨h.disk.append hc.fits hc.newName happ (recorded_writeEntry hc.fits) hwithin hext, hsound⟩

variable {id : UInt32} {e' : HyperspaceEngine}

theorem Durable.write (hc : CleanWrite env e kind iri vector jsonld io)
    (hwrite : write env kind.op e iri vector jsonld io = some (e', .ok id)) :
    Durable env e' (l.apply (writeChange e iri vector jsonld)) := by
  obtain ⟨wal, res, happ, hcases⟩ := write_cases env hwrite
  rcases hcases with ⟨err, -, hr, -⟩ | ⟨err, -, -, hr, -⟩ | ⟨store, index, health, hok, hset, hinsert, -, rfl⟩
  · cases hr
  · cases hr
  · subst hok
    obtain ⟨hdisk, hsound⟩ := h.loggedWrite hc happ
    have hregistry := h.memory.registry.register hc.idLeft
    have hid : (e.registry.register iri).2 ≠ noEntry := by
      refine hregistry.ne_max ((hregistry.lookup_iff _ iri).2 ?_)
      exact e.registry.resolve_register_self iri
    refine ⟨?_, hsound, hdisk⟩
    exact h.memory.write hc.fitting hid hset hinsert rfl rfl rfl hregistry
      (h.memory.registry.lookup_register iri)

theorem Durable.loggedDelete (hc : CleanDelete env e iri io) (hres : e.registry.resolve iri = some id)
    (happ : e.wal.append env.crc ⟨.delete id iri, e.clock + 1, []⟩ io.now io.fault = (wal, .ok ())) :
    DiskHolds env e.snapshot wal (l.apply (.erase id)) ∧ (l.apply (.erase id)).Sound env := by
  have hfits : Entry.Fits ⟨.delete id iri, e.clock + 1, []⟩ := by
    show 0 + 13 < 2 ^ 32
    norm_num
  refine ⟨h.disk.append hfits (hc id hres) happ .delete trivial (fun _ _ hname => hname), ?_⟩
  refine ⟨h.sound.named, h.sound.injective, ?_⟩
  intro j c hcontent
  have hcontent' : update l.content id none j = some c := hcontent
  by_cases hj : j = id
  · rw [hj, update_self] at hcontent'
    cases hcontent'
  · rw [update_of_ne hj] at hcontent'
    exact h.sound.fitting j c hcontent'

theorem Durable.delete (hc : CleanDelete env e iri io) (hres : e.registry.resolve iri = some id)
    (hdelete : delete env e iri io = (e', .ok ())) : Durable env e' (l.apply (.erase id)) := by
  rcases delete_cases env hdelete with ⟨hnone, -, -⟩ | ⟨id', wal, res, hres', happ, hcases⟩
  · rw [hres] at hnone
    cases hnone
  · obtain rfl : id' = id := some.inj (hres'.symm.trans hres)
    rcases hcases with ⟨err, -, hr, -⟩ | ⟨health, hok, -, rfl⟩
    · cases hr
    · subst hok
      obtain ⟨hdisk, hsound⟩ := h.loggedDelete hc hres happ
      exact ⟨h.memory.erase id' rfl rfl rfl rfl, hsound, hdisk⟩

variable {now : ℕ}

theorem Durable.rotateLog (hnew : NewName e now) : Durable env (e.rotateLog now) l :=
  ⟨h.memory, h.sound, h.disk.rotate hnew⟩

/-- After the rename of a snapshot, which loads to the ledger. -/
theorem Durable.snapshotted (hnew : NewName e now) (order : HashOrder) :
    Durable env (CrashRun.snapshotted env e now order) l ∧
      Holds env ((fresh env).loadSnapshotFile env (CrashRun.snapshotted env e now order).snapshot)
        l := by
  have hrotated := h.rotateLog hnew
  have hload : Holds env ((fresh env).loadSnapshotFile env (.holds ((e.rotateLog now).takeSnapshot env order))) l :=
    hrotated.memory.loadSnapshot hrotated.sound order
  refine ⟨⟨h.memory, h.sound, ?_⟩, hload⟩
  exact hrotated.disk.snapshotted hload hrotated.disk.log (fun _ hx => hx) (fun _ _ hlast => hlast)

/-- **After the removal of segments.** -/
theorem Durable.removeFrozen (hload : Holds env ((fresh env).loadSnapshotFile env e.snapshot) l)
    (hsafe : SafeRemoval env e removed) : Durable env (e.removeFrozen removed) l := by
  obtain ⟨hlog, hsub⟩ := h.disk.log.removeFrozen fun s => s.timestamp ∉ removed
  exact ⟨h.memory, h.sound, h.disk.snapshotted hload hlog hsub hsafe⟩

/-- A checkpoint that goes through leaves no record. -/
theorem Durable.checkpoint (hnew : NewName e now) (order : HashOrder) : Durable env (e.checkpoint env now order) l := by
  obtain ⟨hsnapshotted, hload⟩ := h.snapshotted hnew order
  exact hsnapshotted.removeFrozen hload (safeRemoval_all hsnapshotted.disk.log.ordered rfl)

/-- **A crash at a clean point leaves a directory that holds what was acknowledged.** -/
theorem Durable.crashed {point : CrashPoint} (hclean : CleanPoint env e point) {changes : List Change}
    (hcrash : CrashRun.crashed env e point = some (d, changes)) :
    DiskHolds env d.snapshot (diskWal env d) (l.applyAll changes) ∧ (l.applyAll changes).Sound env := by
  cases point with
  | idle =>
    cases hcrash
    exact ⟨h.disk.disk, h.sound⟩
  | rotated now =>
    cases hcrash
    exact ⟨(h.rotateLog hclean).disk.disk, h.sound⟩
  | loggedWrite kind iri vector jsonld io =>
    unfold CrashRun.crashed at hcrash
    cases happ : e.wal.append env.crc (writeEntry env kind.op e iri vector jsonld) io.now
        io.fault with
    | mk wal res =>
      simp only [happ] at hcrash
      cases res with
      | error err => cases hcrash
      | ok =>
        cases hcrash
        obtain ⟨hdisk, hsound⟩ := h.loggedWrite hclean happ
        exact ⟨DiskHolds.disk (e := { e with wal }) hdisk, hsound⟩
  | loggedDelete iri io =>
    obtain ⟨id, hres, hcrash⟩ := bind_eq_some_iff.1 hcrash
    cases happ : e.wal.append env.crc ⟨.delete id iri, e.clock + 1, []⟩ io.now io.fault with
    | mk wal res =>
      simp only [happ] at hcrash
      cases res with
      | error err => cases hcrash
      | ok =>
        cases hcrash
        obtain ⟨hdisk, hsound⟩ := h.loggedDelete hclean hres happ
        exact ⟨DiskHolds.disk (e := { e with wal }) hdisk, hsound⟩
  | wroteTmp now order =>
    cases hcrash
    exact ⟨(h.rotateLog hclean).disk.disk, h.sound⟩
  | renamed now order =>
    cases hcrash
    exact ⟨(h.snapshotted hclean order).1.disk.disk, h.sound⟩
  | cleaning now order removed =>
    cases hcrash
    obtain ⟨hnew, hsafe⟩ := hclean
    obtain ⟨hsnapshotted, hload⟩ := h.snapshotted hnew order
    exact ⟨(hsnapshotted.removeFrozen hload hsafe).disk.disk, h.sound⟩

end

/-! ### Runs -/

theorem ledger_append (changes changes' : List Change) :
    ledger (changes ++ changes') = (ledger changes).applyAll changes' :=
  Ledger.applyAll_append _ _ _

variable {event : CrashEvent} {s s' : CrashRun}

/-- **A clean event keeps an engine and its directory at what was acknowledged.** -/
theorem Durable.step (h : Durable env s.engine (ledger s.acked)) (hclean : CleanCrashEvent env s event)
    (hstep : s.step env event = some s') :
    Durable env s'.engine (ledger s'.acked) := by
  cases event with
  | write kind iri vector jsonld io =>
    simp only [CrashRun.step] at hstep
    split at hstep
    · rename_i engine id hwrite
      cases hstep
      rw [ledger_append]
      exact h.write hclean hwrite
    · cases hstep
  | delete iri io =>
    obtain ⟨id, hres, hstep⟩ := bind_eq_some_iff.1 hstep
    split at hstep
    · rename_i engine hdelete
      cases hstep
      rw [ledger_append]
      exact h.delete hclean hres hdelete
    · cases hstep
  | vacuum =>
    cases hstep
    exact ⟨h.memory.vacuum, h.sound, h.disk⟩
  | checkpoint now order =>
    cases hstep
    exact h.checkpoint hclean order
  | crash point draw =>
    obtain ⟨⟨d, changes⟩, hcrash, hstep⟩ := bind_eq_some_iff.1 hstep
    obtain ⟨engine, hopen, hstep⟩ := bind_eq_some_iff.1 hstep
    cases hstep
    obtain ⟨hdisk, hsound⟩ := h.crashed hclean hcrash
    obtain ⟨engine', hopen', hdurable⟩ := Durable.openDir hdisk hsound draw
    obtain rfl : engine' = engine := some.inj (hopen'.symm.trans hopen)
    rw [ledger_append]
    exact hdurable

variable {events : List CrashEvent}

/-- **A clean run stays at what it acknowledged.** -/
theorem Durable.runFrom (h : Durable env s.engine (ledger s.acked)) (hclean : CleanCrashRun env s events)
    (hrun : s.runFrom env events = some s') : Durable env s'.engine (ledger s'.acked) := by
  induction events generalizing s with
  | nil =>
    cases hrun
    exact h
  | cons event events ih =>
    obtain ⟨s₁, hstep, hrest⟩ := bind_eq_some_iff.1 hrun
    obtain ⟨hevent, hevents⟩ := hclean
    rw [hstep] at hevents
    exact ih (h.step hevent hstep) hevents hrest

/-- **After a clean run and a crash at a clean point, `open` gives exactly the acknowledged
state.** -/
theorem openDir_cleanRun (env : EngineEnv) {events : List CrashEvent} {s : CrashRun}
    (hclean : CleanCrashRun env (.start env) events) (hrun : (CrashRun.start env).runFrom env events = some s)
    {point : CrashPoint} (hpoint : CleanPoint env s.engine point) {d : Disk} {changes : List Change}
    (hcrash : CrashRun.crashed env s.engine point = some (d, changes)) (draw : ℕ → ℕ) :
    ∃ e, openDir env draw d = some e ∧ Recovers e.toEngineMemory (ledger (s.acked ++ changes)) := by
  have hdurable := durable_start.runFrom hclean hrun
  obtain ⟨hdisk, hsound⟩ := hdurable.crashed hpoint hcrash
  obtain ⟨e, hopen, hrecovered⟩ := Durable.openDir hdisk hsound draw
  refine ⟨e, hopen, ?_⟩
  rw [ledger_append]
  exact hrecovered.memory.recovers

/-- The two writes of one IRI, with a crash after the rotation between them. -/
def staleSegment : List CrashEvent :=
  [.write .insert "a" unitX (.object []) (quiet 0), .crash (.rotated 1) (fun _ => 0),
    .write .upsert "a" unitY (.object []) (quiet 0)]

theorem cleanWrite_plane {e : HyperspaceEngine} (hvector : vector = unitX ∨ vector = unitY)
    (hid : e.registry.resolve "a" = none → e.registry.nextId ≠ noEntry)
    (hsize : e.wal.rotates planeEnv.crc (writeEntry planeEnv kind.op e "a" vector (.object [])) =
      false) : CleanWrite planeEnv e kind "a" vector (.object []) (quiet 0) where
  fitting := by
    rcases hvector with rfl | rfl
    · exact ⟨rfl, rfl, by decide⟩
    · exact ⟨rfl, rfl, by decide⟩
  roundTrips := rfl
  fits := by
    show (walRecord planeEnv "a" vector (.object [])).encode.length + 13 < 2 ^ 32
    rcases hvector with rfl | rfl <;> decide +kernel
  idLeft := hid
  newName := by
    intro hrotates
    rw [hsize] at hrotates
    cases hrotates

/-- The order of the entries of a map, as it has them. -/
def entryOrder : HashOrder := ⟨id, id, Perm.refl, Perm.refl⟩

theorem CleanCrashRun.cons {s : CrashRun}
    (hevent : CleanCrashEvent env s event) (hrest : ∀ s', s.step env event = some s' → CleanCrashRun env s' events) :
    CleanCrashRun env s (event :: events) := by
  refine ⟨hevent, ?_⟩
  cases hstep : s.step env event with
  | none => trivial
  | some s' => exact hrest s' hstep

set_option maxRecDepth 20000 in
/-- The steps up to the second write are clean. -/
theorem cleanCrashRun_staleSegment : CleanCrashRun planeEnv (.start planeEnv) staleSegment := by
  have hfirst : ((CrashRun.start planeEnv).runFrom planeEnv (staleSegment.take 1)).map
      (fun s => decide (NewName s.engine 1)) = some true := by decide +kernel
  have hsecond : ((CrashRun.start planeEnv).runFrom planeEnv (staleSegment.take 2)).map
      (fun s => (s.engine.registry.resolve "a", s.engine.wal.rotates planeEnv.crc
        (writeEntry planeEnv .upsert s.engine "a" unitY (.object [])))) = some (some 1, false) := by
    decide +kernel
  refine .cons (cleanWrite_plane (.inl rfl) (fun _ => by decide) (by decide +kernel)) ?_
  intro s₁ hs₁
  have hrun₁ : (CrashRun.start planeEnv).runFrom planeEnv (staleSegment.take 1) = some s₁ := by
    show ((CrashRun.start planeEnv).step planeEnv _ >>= pure) = _
    rw [hs₁]
    rfl
  rw [hrun₁] at hfirst
  have hnew : NewName s₁.engine 1 := of_decide_eq_true (some.inj hfirst)
  refine .cons hnew ?_
  intro s₂ hs₂
  have hrun₂ : (CrashRun.start planeEnv).runFrom planeEnv (staleSegment.take 2) = some s₂ := by
    show ((CrashRun.start planeEnv).step planeEnv _ >>= fun s => s.step planeEnv _ >>= pure) = _
    rw [hs₁]
    show (s₁.step planeEnv _ >>= pure) = _
    rw [hs₂]
    rfl
  rw [hrun₂] at hsecond
  obtain ⟨hres, hsize⟩ := Prod.mk.inj (some.inj hsecond)
  refine .cons (cleanWrite_plane (.inr rfl) ?_ hsize) fun _ _ => trivial
  intro hnone
  rw [hres] at hnone
  cases hnone

set_option maxRecDepth 20000 in
/-- The older segment is removed first: what is left repeats the last write. -/
theorem openDir_cleanRun_oldestFirst : ∃ s d e, (CrashRun.start planeEnv).runFrom planeEnv staleSegment = some s ∧
      CrashRun.crashed planeEnv s.engine (.cleaning 2 entryOrder [1]) = some (d, []) ∧
      openDir planeEnv (fun _ => 0) d = some e ∧
      Recovers e.toEngineMemory (ledger s.acked) := by
  have hnames : ((CrashRun.start planeEnv).runFrom planeEnv staleSegment).map (fun s =>
      let e := CrashRun.snapshotted planeEnv s.engine 2 entryOrder
      decide (NewName s.engine 2 ∧ e.wal.Ordered ∧ OldestFirst e [1])) = some true := by
    decide +kernel
  obtain ⟨s, hrun, hdecided⟩ := map_eq_some_iff.1 hnames
  obtain ⟨hnew, hord, hfirst⟩ := of_decide_eq_true hdecided
  have hpoint : CleanPoint planeEnv s.engine (.cleaning 2 entryOrder [1]) := ⟨hnew, safeRemoval_oldestFirst hord hfirst⟩
  obtain ⟨e, hopen, hrecovers⟩ := openDir_cleanRun planeEnv cleanCrashRun_staleSegment hrun hpoint rfl
    (fun _ => 0)
  rw [append_nil] at hrecovers
  exact ⟨s, _, e, hrun, rfl, hopen, hrecovers⟩

set_option maxRecDepth 20000 in
/-- The newer segment is removed first: the older one is replayed over the snapshot, and the
engine has the vector of the overwritten insert. -/
theorem not_recovers_staleSegment : ∃ s d e, (CrashRun.start planeEnv).runFrom planeEnv staleSegment = some s ∧
      CrashRun.crashed planeEnv s.engine (.cleaning 2 entryOrder [2]) = some (d, []) ∧
      openDir planeEnv (fun _ => 0) d = some e ∧
      e.store.get 1 = some unitX.asBytes ∧
      ((ledger s.acked).content 1).map Prod.fst = some unitY ∧
      ¬ Recovers e.toEngineMemory (ledger s.acked) := by
  have hcompute : ((CrashRun.start planeEnv).runFrom planeEnv staleSegment).map (fun s =>
      (((ledger s.acked).content 1).map Prod.fst,
        ((CrashRun.crashed planeEnv s.engine (.cleaning 2 entryOrder [2])).bind
          fun r => openDir planeEnv (fun _ => 0) r.1).map fun e => e.store.get 1)) =
      some (some unitY, some (some unitX.asBytes)) := by decide +kernel
  obtain ⟨s, hrun, heq⟩ := map_eq_some_iff.1 hcompute
  obtain ⟨hcontent, hopened⟩ := Prod.mk.inj heq
  obtain ⟨e, hopen, hvector⟩ := map_eq_some_iff.1 hopened
  refine ⟨s, _, e, hrun, rfl, hopen, hvector, hcontent, ?_⟩
  intro hrecovers
  obtain ⟨c, hc, hfirst⟩ := map_eq_some_iff.1 hcontent
  have hget := hrecovers.vector 1
  rw [hvector, hc, map_some, hfirst] at hget
  exact absurd hget (by decide +kernel)

end WildAgentOs.Engine
