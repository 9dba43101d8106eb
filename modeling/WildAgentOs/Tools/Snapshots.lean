import WildAgentOs.Tools.InventoryCopies
import WildAgentOs.Tools.StoredVersions

/-!
# Snapshots of the workspace

`tools/workspace_monitor/snapshot.rs`: a snapshot has the paths and hashes of the files that the inventory tracks.  A
rollback asks the content store for version 0 of each file, which it never gives, and looks for a hash among the
records of snapshots, which are no contents.

* `SnapshotManager`, `Workspace`: the three stores over one disk;
* `createSnapshot`, `rollbackTo`, `restoreFile`;
* `Workspace.run`: histories; `NoZero`: no file has a version 0;
* `RollsBack`, `rollsBack_iff`, `restoreFile_iff`, `rollback_of_run`.
-/

namespace WildAgentOs.Tools

open Memory List Function

structure SnapshotFileEntry where
  path : String
  hash : String
  size : UInt64
  deriving DecidableEq

structure WorkspaceSnapshot where
  snapshotId : String
  createdAt : Int64
  reason : String
  taskIri : Option String
  files : List SnapshotFileEntry
  deriving DecidableEq

structure RollbackResult where
  snapshotId : String
  filesRestored : ℕ
  filesCreated : ℕ
  filesDeleted : ℕ
  failed : List String
  deriving DecidableEq

/-- What the workspace takes from outside; `toJson` and `fromJson` are those of a snapshot. -/
structure SnapshotEnv where
  content : ContentEnv
  board : BlackboardEnv
  toJson : WorkspaceSnapshot → String
  fromJson : String → Option WorkspaceSnapshot

/-- Both hash with SHA-256. -/
def SnapshotEnv.inventory (env : SnapshotEnv) : InventoryEnv := ⟨env.board, env.content.sha256⟩

/-! ### The manager -/

/-- The table `snapshots`, in the order of its keys. -/
abbrev SnapshotTable := List (String × String)

def SnapshotTable.insert (key value : String) : SnapshotTable → SnapshotTable
  | [] => [(key, value)]
  | (key', value') :: records =>
    if key < key' then (key, value) :: (key', value') :: records
    else if key = key' then (key, value) :: records
    else (key', value') :: SnapshotTable.insert key value records

structure SnapshotManager where
  db : SnapshotTable
  index : String → Option WorkspaceSnapshot

namespace SnapshotManager

/-- What a record of the database adds to the index. -/
def indexRecord (env : SnapshotEnv) (index : String → Option WorkspaceSnapshot) (record : String × String) :
    String → Option WorkspaceSnapshot :=
  if "snapshot:".toList <+: record.1.toList then
    match env.fromJson record.2 with
    | some snapshot => update index snapshot.snapshotId (some snapshot)
    | none => index
  else index

def new (env : SnapshotEnv) (db : SnapshotTable) : SnapshotManager := ⟨db, db.foldl (indexRecord env) fun _ => none⟩

/-- `find_content_by_hash`; a record is valid UTF-8. -/
def findContentByHash (env : SnapshotEnv) (manager : SnapshotManager) (targetHash : String) : Option String :=
  (manager.db.find? fun record => decide (hashContent env.content record.2 = targetHash)).map (·.2)

end SnapshotManager

/-! ### The workspace -/

abbrev Disk := String → Option DiskFile

structure Workspace where
  disk : Disk
  contents : ContentRun
  inventory : FileInventory
  snapshots : SnapshotManager

namespace Workspace

variable (env : SnapshotEnv) (w : Workspace)

/-- `create_snapshot`, with the order of the inventory's map, and whether the database takes the record. -/
def createSnapshot (uuid : String) (now : Int64) (reason : String) (taskIri : Option String) (order : List String)
    (stores : Bool) : Workspace :=
  let snapshotId := "ws_snap_" ++ uuid
  let files := (order.filterMap w.inventory.memCache).map fun entry =>
    (⟨entry.path, entry.contentHash, entry.fileSize⟩ : SnapshotFileEntry)
  let snapshot : WorkspaceSnapshot := ⟨snapshotId, now, reason, taskIri, files⟩
  { w with
    snapshots :=
      { db := if stores then w.snapshots.db.insert ("snapshot:" ++ snapshotId) (env.toJson snapshot) else w.snapshots.db
        index := update w.snapshots.index snapshotId (some snapshot) } }

/-- One file of `rollback_to`: what it makes of the disk and of the result. -/
def rollbackFile (write : String → Except String Unit) (mtime : ℤ) (state : Disk × RollbackResult)
    (fileEntry : SnapshotFileEntry) : Disk × RollbackResult :=
  let failed := (state.1, { state.2 with failed := state.2.failed ++ [fileEntry.path] })
  match w.contents.store.getVersionContent fileEntry.path 0 with
  | none => failed
  | some content =>
    let content := (w.snapshots.findContentByHash env fileEntry.hash).getD content
    match write fileEntry.path with
    | .error _ => failed
    | .ok () =>
      let disk := update state.1 fileEntry.path (some ⟨content, mtime⟩)
      if (disk fileEntry.path).isSome then
        (disk, { state.2 with filesRestored := state.2.filesRestored + 1 })
      else (disk, { state.2 with filesCreated := state.2.filesCreated + 1 })

/-- `rollback_to`, with what the file system answers to each write. -/
def rollbackTo (write : String → Except String Unit) (mtime : ℤ) (snapshotId : String) :
    Except String RollbackResult × Workspace :=
  match w.snapshots.index snapshotId with
  | none => (.error ("Snapshot not found: " ++ snapshotId), w)
  | some snapshot =>
    let (disk, result) := snapshot.files.foldl (w.rollbackFile env write mtime) (w.disk, ⟨snapshotId, 0, 0, 0, []⟩)
    (.ok result, { w with disk })

def restoreFile (write : String → Except String Unit) (mtime : ℤ) (path hash : String) :
    Except String Unit × Workspace :=
  match w.snapshots.findContentByHash env hash with
  | none => (.error ("Content not found for hash: " ++ hash), w)
  | some content =>
    match write path with
    | .error e => (.error ("Failed to write file " ++ path ++ ": " ++ e), w)
    | .ok () => (.ok (), { w with disk := update w.disk path (some ⟨content, mtime⟩) })

/-! ### Histories -/

inductive Op
  /-- A call of the content store; a read finds the file that is on the disk. -/
  | contents (op : ContentRun.Op)
  | inventory (world : World) (op : InventoryOp)
  /-- The agent or another program writes a file. -/
  | writeFile (path : String) (file : DiskFile)
  | deleteFile (path : String)
  | createSnapshot (uuid : String) (now : Int64) (reason : String) (taskIri : Option String) (order : List String)
      (stores : Bool)
  | rollbackTo (write : String → Except String Unit) (mtime : ℤ) (snapshotId : String)
  | restoreFile (write : String → Except String Unit) (mtime : ℤ) (path hash : String)

/-- What a read finds. -/
def found (disk : Disk) : ContentRun.Op → ContentRun.Op
  | .read path mode _ stores => .read path mode (disk path) stores
  | op => op

def step : Op → Workspace
  | .contents op => { w with contents := ContentRun.step env.content w.contents (found w.disk op) }
  | .inventory world op => { w with inventory := op.step env.inventory world w.inventory }
  | .writeFile path file => { w with disk := update w.disk path (some file) }
  | .deleteFile path => { w with disk := update w.disk path none }
  | .createSnapshot uuid now reason taskIri order stores => w.createSnapshot env uuid now reason taskIri order stores
  | .rollbackTo write mtime snapshotId => (w.rollbackTo env write mtime snapshotId).2
  | .restoreFile write mtime path hash => (w.restoreFile env write mtime path hash).2

/-- A process that starts on a disk, with the databases of the content store and of the snapshots. -/
def start (disk : Disk) (cacheCapacity : ℕ) (versions : Option VersionTable) (inventory : FileInventory)
    (db : SnapshotTable) : Workspace :=
  ⟨disk, ContentRun.start cacheCapacity versions, inventory, .new env db⟩

def run (ops : List Op) : Workspace := ops.foldl (step env) w

/-! ### Version 0 -/

/-- No file has a version 0. -/
def NoZero : Prop := ∀ path, w.contents.store.getVersionContent path 0 = none

end Workspace

/-- A call of the content store gives no version 0. -/
theorem ContentRun.getVersionContent_zero_step {env : ContentEnv} {σ : ContentRun}
    (h : ∀ path, σ.store.getVersionContent path 0 = none) (op : Op) (path : String) :
    (step env σ op).store.getVersionContent path 0 = none := by
  cases op with
  | read path' mode disk stores =>
    cases disk with
    | none => exact h path
    | some file =>
      rcases ContentStore.readDisk_cases env σ.store path' mode file stores with ⟨cached, hserved⟩ | hgiven
      · have hsame : (step env σ (.read path' mode (some file) stores)).store.versionStore = σ.store.versionStore :=
          hserved.versionStore
        unfold ContentStore.getVersionContent
        rw [hsame]
        exact h path
      · have hstored : (step env σ (.read path' mode (some file) stores)).store.versionStore =
            (σ.store.storeVersion path' file.content (σ.store.getVersion path' + 1) stores).versionStore :=
          hgiven.versionStore
        have hother : (σ.store.storeVersion path' file.content (σ.store.getVersion path' + 1) stores).getVersionContent
            path 0 = none := by
          rw [ContentStore.getVersionContent_storeVersion,
            if_neg fun hzero => absurd hzero.2.2.2.symm (Nat.succ_ne_zero _)]
          exact h path
        unfold ContentStore.getVersionContent at hother ⊢
        rw [hstored]
        exact hother
  | invalidate path' => exact h path
  | tryGetCached path' => exact h path
  | clear => exact h path
  | restart cacheCapacity => exact h path

namespace Workspace

variable {env : SnapshotEnv} {w : Workspace} {write : String → Except String Unit} {mtime : ℤ}

theorem NoZero.start (disk : Disk) (cacheCapacity : ℕ) {versions : Option VersionTable}
    (hversions : ∀ table, versions = some table → ∀ path, table (versionKey path 0) = none) (inventory : FileInventory)
    (db : SnapshotTable) : (Workspace.start env disk cacheCapacity versions inventory db).NoZero := by
  intro path
  cases versions with
  | none => rfl
  | some table => exact hversions table rfl path

/-- Only calls of the content store touch the versions. -/
theorem contents_rollbackTo (snapshotId : String) :
    (w.rollbackTo env write mtime snapshotId).2.contents = w.contents := by
  unfold rollbackTo
  split <;> rfl

theorem contents_restoreFile (path hash : String) :
    (w.restoreFile env write mtime path hash).2.contents = w.contents := by
  unfold restoreFile
  split
  · rfl
  · split <;> rfl

theorem NoZero.step (h : w.NoZero) (op : Op) : (w.step env op).NoZero := by
  intro path
  cases op with
  | contents op => exact ContentRun.getVersionContent_zero_step h _ path
  | inventory world op => exact h path
  | writeFile path' file => exact h path
  | deleteFile path' => exact h path
  | createSnapshot uuid now reason taskIri order stores => exact h path
  | rollbackTo write mtime snapshotId =>
    have hsame : (w.step env (.rollbackTo write mtime snapshotId)).contents = w.contents :=
      contents_rollbackTo snapshotId
    rw [hsame]
    exact h path
  | restoreFile write mtime path' hash =>
    have hsame : (w.step env (.restoreFile write mtime path' hash)).contents = w.contents :=
      contents_restoreFile path' hash
    rw [hsame]
    exact h path

theorem NoZero.run (h : w.NoZero) (ops : List Op) : (w.run env ops).NoZero := by
  induction ops generalizing w with
  | nil => exact h
  | cons op ops ih => exact ih (h.step op)

/-- Without a version 0 there is nothing to write, and every file fails. -/
theorem NoZero.foldl_rollbackFile (h : w.NoZero) (files : List SnapshotFileEntry) (disk : Disk)
    (result : RollbackResult) : files.foldl (w.rollbackFile env write mtime) (disk, result) =
      (disk, { result with failed := result.failed ++ files.map (·.path) }) := by
  induction files generalizing result with
  | nil => rw [foldl_nil, map_nil, append_nil]
  | cons file files ih =>
    have hfile : w.rollbackFile env write mtime (disk, result) file =
        (disk, { result with failed := result.failed ++ [file.path] }) := by
      unfold rollbackFile
      rw [h file.path]
    rw [foldl_cons, hfile, ih, map_cons, append_assoc, singleton_append]

variable {snapshot : WorkspaceSnapshot} {snapshotId : String}

theorem NoZero.rollbackTo_eq (h : w.NoZero) (hindex : w.snapshots.index snapshotId = some snapshot) :
    w.rollbackTo env write mtime snapshotId = (.ok ⟨snapshotId, 0, 0, 0, snapshot.files.map (·.path)⟩, w) := by
  unfold rollbackTo
  rw [hindex]
  simp only
  rw [h.foldl_rollbackFile, nil_append]

/-! ### What a rollback is for -/

/-- A content with the hash is in the version store. -/
def IsStored (env : SnapshotEnv) (w : Workspace) (hash : String) : Prop :=
  ∃ table key content, w.contents.store.versionStore = some table ∧ table key = some content ∧
    hashContent env.content content = hash

theorem isStored_of_getVersionContent {path content : String} {version : ℕ}
    (h : w.contents.store.getVersionContent path version = some content) :
    w.IsStored env (hashContent env.content content) := by
  obtain ⟨table, htable, hcontent⟩ := Option.bind_eq_some_iff.1 h
  exact ⟨table, _, content, htable, hcontent, rfl⟩

/-- **A rollback restores the snapshot**: a file that has not failed has the content of its hash; a file fails only if
no such content is stored or the write of it fails; and the others are counted, as restored where they were there
before and as created where they were not. -/
structure RollsBack (env : SnapshotEnv) (w : Workspace) (write : String → Except String Unit)
    (snapshot : WorkspaceSnapshot) (result : RollbackResult) (after : Disk) : Prop where
  restored : ∀ file ∈ snapshot.files, file.path ∉ result.failed →
    ∃ found, after file.path = some found ∧ hashContent env.content found.content = file.hash
  failed : ∀ file ∈ snapshot.files, file.path ∈ result.failed → ¬w.IsStored env file.hash ∨ write file.path ≠ .ok ()
  filesRestored : result.filesRestored =
    (snapshot.files.filter fun file => file.path ∉ result.failed ∧ (w.disk file.path).isSome = true).length
  filesCreated : result.filesCreated =
    (snapshot.files.filter fun file => file.path ∉ result.failed ∧ (w.disk file.path).isSome = false).length

/-- A rollback does so only if there is nothing to be restored. -/
theorem NoZero.rollsBack_iff (h : w.NoZero) (hindex : w.snapshots.index snapshotId = some snapshot) :
    (∃ result, (w.rollbackTo env write mtime snapshotId).1 = .ok result ∧
      RollsBack env w write snapshot result (w.rollbackTo env write mtime snapshotId).2.disk) ↔
        ∀ file ∈ snapshot.files, ¬(w.IsStored env file.hash ∧ write file.path = .ok ()) := by
  rw [h.rollbackTo_eq hindex]
  have hfailed : ∀ file ∈ snapshot.files, file.path ∈ snapshot.files.map (·.path) := fun file hfile =>
    mem_map_of_mem hfile
  constructor
  · rintro ⟨result, hresult, hrolls⟩ file hfile ⟨hstored, hwrite⟩
    cases hresult
    rcases hrolls.failed file hfile (hfailed file hfile) with hmissing | hrefused
    · exact hmissing hstored
    · exact hrefused hwrite
  · intro hnothing
    refine ⟨_, rfl, fun file hfile hnot => absurd (hfailed file hfile) hnot, fun file hfile _ => ?_, ?_, ?_⟩
    · by_cases hstored : w.IsStored env file.hash
      · exact .inr fun hwrite => hnothing file hfile ⟨hstored, hwrite⟩
      · exact .inl hstored
    · rw [filter_eq_nil_iff.2 fun file hfile hcounted => (of_decide_eq_true hcounted).1 (hfailed file hfile)]
      rfl
    · rw [filter_eq_nil_iff.2 fun file hfile hcounted => (of_decide_eq_true hcounted).1 (hfailed file hfile)]
      rfl

/-- A file is restored only from the record of a snapshot. -/
theorem restoreFile_iff {path hash : String} (hwrite : write path = .ok ()) :
    (w.restoreFile env write mtime path hash).1 = .ok () ↔
      ∃ record ∈ w.snapshots.db, hashContent env.content record.2 = hash := by
  unfold restoreFile SnapshotManager.findContentByHash
  cases hfind : w.snapshots.db.find? fun record => decide (hashContent env.content record.2 = hash) with
  | none =>
    rw [find?_eq_none] at hfind
    simp only [Option.map_none]
    constructor
    · exact fun hok => (nomatch hok)
    · rintro ⟨record, hrecord, hhash⟩
      exact absurd (decide_eq_true hhash) (hfind record hrecord)
  | some record =>
    have hfound := find?_some hfind
    simp only [Option.map_some, hwrite, true_iff]
    exact ⟨record, mem_of_find?_eq_some hfind, of_decide_eq_true hfound⟩

/-- **After every history, a rollback restores its snapshot if and only if no file of it has its content in the version
store and can be written; and a file is restored to the hash of a stored version if and only if a record of the
snapshots has this hash.** -/
theorem rollback_of_run (env : SnapshotEnv) (disk : Disk) (cacheCapacity : ℕ) {versions : Option VersionTable}
    (hversions : ∀ table, versions = some table → ∀ path, table (versionKey path 0) = none) (inventory : FileInventory)
    (db : SnapshotTable) (ops : List Op) :
    let w := (start env disk cacheCapacity versions inventory db).run env ops
    (∀ snapshotId snapshot write mtime, w.snapshots.index snapshotId = some snapshot →
      ((∃ result, (w.rollbackTo env write mtime snapshotId).1 = .ok result ∧
        RollsBack env w write snapshot result (w.rollbackTo env write mtime snapshotId).2.disk) ↔
          ∀ file ∈ snapshot.files, ¬(w.IsStored env file.hash ∧ write file.path = .ok ()))) ∧
    ∀ path hash write mtime, w.IsStored env hash → write path = .ok () →
      ((w.restoreFile env write mtime path hash).1 = .ok () ↔
        ∃ record ∈ w.snapshots.db, hashContent env.content record.2 = hash) := by
  have hstart : (start env disk cacheCapacity versions inventory db).NoZero :=
    .start disk cacheCapacity hversions inventory db
  have hzero : ((start env disk cacheCapacity versions inventory db).run env ops).NoZero := hstart.run ops
  exact ⟨fun _ _ _ _ hindex => hzero.rollsBack_iff hindex, fun _ _ _ _ _ hwrite => restoreFile_iff hwrite⟩

/-- The record of the snapshot of an empty file. -/
def sampleRecord : String :=
  "\x7b\"snapshot_id\":\"ws_snap_67e55044-10b1-426f-9247-bb680e5fe0c8\",\"created_at\":10,\"reason\":\"before\"," ++
    "\"task_iri\":null,\"files\":[\x7b\"path\":\"notes\",\"hash\":\"sha256:" ++
    "e3b0c44298fc1c149afbf4c8996fb92427ae41e4649b934ca495991b7852b855\",\"size\":0\x7d]\x7d"

/-- The digests of this record, of the empty text and of a `b`. -/
def sampleSnapshotEnv : SnapshotEnv where
  content := ⟨fun _ _ => ⟨[], fun _ => [], fun _ => []⟩, fun content =>
    if content = "" then "e3b0c44298fc1c149afbf4c8996fb92427ae41e4649b934ca495991b7852b855"
    else if content = sampleRecord then "548efdcd69825bcc2f2d96f79e135d9ddcde792d55b1300c0c65c5b88dc9ee94"
    else "3e23e8160039594a33894f6564e1b1348bbd7a0088d42c4acb73eeaed59c009d"⟩
  board := sampleInventoryEnv.board
  toJson _ := sampleRecord
  fromJson _ := none

/-- An empty file is read and tracked, a snapshot is taken, and the file is written. -/
def sampleOps : List Op :=
  [.writeFile "notes" ⟨"", 0⟩, .contents (.read "notes" .full none true), .inventory sampleWorld (.addOrUpdate "notes"),
    .createSnapshot "67e55044-10b1-426f-9247-bb680e5fe0c8" 10 "before" none ["notes"] true, .writeFile "notes" ⟨"b", 7⟩]

/-- A workspace with a version store and a rewritten file. -/
def sampleWorkspace : Workspace :=
  (start sampleSnapshotEnv (fun _ => none) 1000 (some fun _ => none) (.new none none []) []).run sampleSnapshotEnv
    sampleOps

def sampleSnapshot : WorkspaceSnapshot where
  snapshotId := "ws_snap_67e55044-10b1-426f-9247-bb680e5fe0c8"
  createdAt := 10
  reason := "before"
  taskIri := none
  files := [⟨"notes", "sha256:e3b0c44298fc1c149afbf4c8996fb92427ae41e4649b934ca495991b7852b855", 0⟩]

theorem index_sampleWorkspace :
    sampleWorkspace.snapshots.index "ws_snap_67e55044-10b1-426f-9247-bb680e5fe0c8" = some sampleSnapshot := by
  decide +kernel

theorem rollback_of_sampleWorkspace :
    (∀ snapshotId snapshot write mtime, sampleWorkspace.snapshots.index snapshotId = some snapshot →
      ((∃ result, (sampleWorkspace.rollbackTo sampleSnapshotEnv write mtime snapshotId).1 = .ok result ∧
        RollsBack sampleSnapshotEnv sampleWorkspace write snapshot result
          (sampleWorkspace.rollbackTo sampleSnapshotEnv write mtime snapshotId).2.disk) ↔
            ∀ file ∈ snapshot.files,
              ¬(sampleWorkspace.IsStored sampleSnapshotEnv file.hash ∧ write file.path = .ok ()))) ∧
    ∀ path hash write mtime, sampleWorkspace.IsStored sampleSnapshotEnv hash → write path = .ok () →
      ((sampleWorkspace.restoreFile sampleSnapshotEnv write mtime path hash).1 = .ok () ↔
        ∃ record ∈ sampleWorkspace.snapshots.db, hashContent sampleSnapshotEnv.content record.2 = hash) :=
  rollback_of_run sampleSnapshotEnv (fun _ => none) 1000
    (fun table htable path => by rw [← Option.some.inj htable]) (.new none none []) [] sampleOps

/-- The empty content of the file is stored, and it is neither rolled back to nor restored. -/
theorem not_rollsBack_sampleWorkspace : sampleWorkspace.IsStored sampleSnapshotEnv
        "sha256:e3b0c44298fc1c149afbf4c8996fb92427ae41e4649b934ca495991b7852b855" ∧
      sampleWorkspace.snapshots.index sampleSnapshot.snapshotId = some sampleSnapshot ∧
      ¬(∃ result, (sampleWorkspace.rollbackTo sampleSnapshotEnv (fun _ => .ok ()) 9 sampleSnapshot.snapshotId).1 =
          .ok result ∧
        RollsBack sampleSnapshotEnv sampleWorkspace (fun _ => .ok ()) sampleSnapshot result
          (sampleWorkspace.rollbackTo sampleSnapshotEnv (fun _ => .ok ()) 9 sampleSnapshot.snapshotId).2.disk) ∧
      (sampleWorkspace.restoreFile sampleSnapshotEnv (fun _ => .ok ()) 9 "notes"
        "sha256:e3b0c44298fc1c149afbf4c8996fb92427ae41e4649b934ca495991b7852b855").1 ≠ .ok () := by
  have hstored : sampleWorkspace.IsStored sampleSnapshotEnv
      "sha256:e3b0c44298fc1c149afbf4c8996fb92427ae41e4649b934ca495991b7852b855" := by
    have hversion : sampleWorkspace.contents.store.getVersionContent "notes" 1 = some "" := by decide +kernel
    exact isStored_of_getVersionContent hversion
  refine ⟨hstored, index_sampleWorkspace, ?_, ?_⟩
  · rintro ⟨result, hresult, hrolls⟩
    have hfailed : result.failed = ["notes"] := by
      have hall : (sampleWorkspace.rollbackTo sampleSnapshotEnv (fun _ => .ok ()) 9 sampleSnapshot.snapshotId).1 =
          .ok ⟨sampleSnapshot.snapshotId, 0, 0, 0, ["notes"]⟩ := by decide +kernel
      rw [← Except.ok.inj (hall.symm.trans hresult)]
    rcases hrolls.failed _ mem_cons_self (hfailed ▸ mem_cons_self) with hmissing | hrefused
    · exact hmissing hstored
    · exact hrefused rfl
  · rw [ne_eq, restoreFile_iff rfl]
    decide +kernel

end Workspace

end WildAgentOs.Tools
