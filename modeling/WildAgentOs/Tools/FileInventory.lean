import WildAgentOs.Memory.Blackboard

/-!
# The inventory of files

`tools/workspace_monitor/inventory.rs`: the files that the workspace monitor tracks, in memory, in the table
`inventory_cache` of a database, and as nodes of the blackboard in the graph of the workspace.

* `FileEntry`, `FileEntry.toValue`, `FileEntry.ofValue`: an entry in the database;
* `fileDocument`;
* `FileInventory`: `new`, `fullScan`, `addOrUpdate`, `markStale`, `markRead`, `markWritten`, `markExternalRead`,
  `remove`, `clearAll`.
-/

namespace WildAgentOs.Tools

open Json Memory Function

/-! ### Entries -/

inductive FileState
  | undiscovered
  | discovered
  | readFresh
  | readStale
  | writtenUnread
  deriving DecidableEq

namespace FileState

def asStr : FileState → String
  | undiscovered => "undiscovered"
  | discovered => "discovered"
  | readFresh => "read_fresh"
  | readStale => "read_stale"
  | writtenUnread => "written_unread"

/-- The name of the variant, as it is stored. -/
def variant : FileState → String
  | undiscovered => "Undiscovered"
  | discovered => "Discovered"
  | readFresh => "ReadFresh"
  | readStale => "ReadStale"
  | writtenUnread => "WrittenUnread"

def ofVariant (name : String) : Option FileState :=
  if name = "Undiscovered" then some undiscovered
  else if name = "Discovered" then some discovered
  else if name = "ReadFresh" then some readFresh
  else if name = "ReadStale" then some readStale
  else if name = "WrittenUnread" then some writtenUnread
  else none

theorem ofVariant_variant (state : FileState) : ofVariant state.variant = some state := by
  cases state <;> simp [ofVariant, variant]

end FileState

structure FileEntry where
  path : String
  fileSize : UInt64
  fileExt : String
  language : String
  mtime : Int64
  contentHash : String
  state : FileState
  lastReadAt : Option Int64
  lastReadVersion : UInt64
  currentVersion : UInt64
  readCount : UInt64
  deriving DecidableEq

def natValue (n : UInt64) : Value := .number (.posInt n)

def intValue (n : Int64) : Value := if 0 ≤ n then .number (.posInt n.toUInt64) else .number (.negInt n)

/-- `as_i64`. -/
def asInt : Value → Option Int64
  | .number (.posInt n) => if 0 ≤ n.toInt64 then some n.toInt64 else none
  | .number (.negInt n) => some n
  | _ => none

theorem asInt_intValue (n : Int64) : asInt (intValue n) = some n := by
  unfold intValue
  split_ifs with h
  · show (if 0 ≤ n.toUInt64.toInt64 then some n.toUInt64.toInt64 else none) = some n
    rw [Int64.toInt64_toUInt64, if_pos h]
  · rfl

namespace FileEntry

/-- The members of an entry, as it is serialized. -/
def members (entry : FileEntry) : List (String × Value) :=
  [("path", .string entry.path), ("file_size", natValue entry.fileSize), ("file_ext", .string entry.fileExt),
    ("language", .string entry.language), ("mtime", intValue entry.mtime),
    ("content_hash", .string entry.contentHash), ("state", .string entry.state.variant),
    ("last_read_at", (entry.lastReadAt.map intValue).getD .null), ("last_read_version", natValue entry.lastReadVersion),
    ("current_version", natValue entry.currentVersion), ("read_count", natValue entry.readCount)]

def toValue (entry : FileEntry) : Value := .object entry.members

/-- An optional member, which may be absent or `null`. -/
def optionalInt (value : Option Value) : Option (Option Int64) :=
  match value with
  | none | some .null => some none
  | some value => (asInt value).map some

/-- The entry as it is deserialized. -/
def ofValue (value : Value) : Option FileEntry := do
  let path ← (value.get "path").bind Value.asStr
  let fileSize ← (value.get "file_size").bind Value.asU64
  let fileExt ← (value.get "file_ext").bind Value.asStr
  let language ← (value.get "language").bind Value.asStr
  let mtime ← (value.get "mtime").bind asInt
  let contentHash ← (value.get "content_hash").bind Value.asStr
  let state ← ((value.get "state").bind Value.asStr).bind FileState.ofVariant
  let lastReadAt ← optionalInt (value.get "last_read_at")
  let lastReadVersion ← (value.get "last_read_version").bind Value.asU64
  let currentVersion ← (value.get "current_version").bind Value.asU64
  let readCount ← (value.get "read_count").bind Value.asU64
  return ⟨path, fileSize, fileExt, language, mtime, contentHash, state, lastReadAt, lastReadVersion, currentVersion,
    readCount⟩

theorem optionalInt_getD (n : Option Int64) : optionalInt (some ((n.map intValue).getD .null)) = some n := by
  cases n with
  | none => rfl
  | some n =>
    have hvalue : intValue n ≠ .null := by
      unfold intValue
      split_ifs <;> exact fun h => nomatch h
    show optionalInt (some (intValue n)) = some (some n)
    unfold optionalInt
    split
    · next heq => exact absurd heq (by simp)
    · next heq => exact absurd (Option.some.inj heq) hvalue
    · next heq =>
      rw [← Option.some.inj heq, asInt_intValue]
      rfl

/-- **An entry is read back as it was stored.** -/
theorem ofValue_toValue (entry : FileEntry) : ofValue entry.toValue = some entry := by
  have hget : ∀ key, entry.toValue.get key = List.lookup key entry.members := fun _ => rfl
  unfold ofValue
  simp only [hget, members, List.lookup_cons, String.reduceBEq, BEq.rfl, Option.bind_some, optionalInt_getD,
    asInt_intValue, Value.asStr, FileState.ofVariant_variant, natValue, Value.asU64, Option.bind_eq_bind,
    Option.pure_def]

end FileEntry

/-! ### Paths -/

/-- What the end of a path may have without naming anything. -/
def isPassed (segment : List Char) : Bool := decide (segment = [] ∨ segment = ['.'])

def trimEnd (segments : List (List Char)) : List (List Char) := (segments.reverse.dropWhile isPassed).reverse

/-- The first segment of a path, and the others without an end that names nothing. -/
def segmentsOf (path : String) : List Char × List (List Char) :=
  match path.toList.splitOn '/' with
  | [] => ([], [])
  | first :: rest => (first, trimEnd rest)

def fileName (path : String) : Option (List Char) :=
  let segments := segmentsOf path
  (some (segments.2.getLast?.getD segments.1)).filter fun name =>
    decide (name ≠ [] ∧ name ≠ ['.'] ∧ name ≠ ['.', '.'])

/-- `Path::parent`. -/
def parentOf (path : String) : Option String :=
  let segments := segmentsOf path
  if segments.2 = [] then if segments.1 = [] then none else some ""
  else
    let rest := trimEnd segments.2.dropLast
    if segments.1 = [] ∧ rest = [] then some "/"
    else some (String.ofList (List.intercalate ['/'] (segments.1 :: rest)))

/-- `Path::extension`. -/
def extensionOf (path : String) : Option (List Char) :=
  ((fileName path).bind (Text.rsplitOnce ['.'])).bind fun parts => if parts.1 = [] then none else some parts.2

/-- The extensions of each language. -/
def languages : List (List String × String) :=
  [(["rs"], "rust"), (["ts", "tsx"], "typescript"), (["js", "jsx", "mjs", "cjs"], "javascript"), (["py"], "python"),
    (["go"], "go"), (["java"], "java"), (["c", "h"], "c"), (["cpp", "hpp", "cc", "cxx"], "cpp"), (["rb"], "ruby"),
    (["php"], "php"), (["swift"], "swift"), (["kt", "kts"], "kotlin"), (["scala"], "scala"), (["toml"], "toml"),
    (["json"], "json"), (["yaml", "yml"], "yaml"), (["md", "mdx"], "markdown"), (["html", "htm"], "html"),
    (["css", "scss", "less"], "css")]

def classifyLanguage (ext : String) : String :=
  ((languages.find? fun language => decide (ext ∈ language.1)).map (·.2)).getD "unknown"

/-! ### Nodes of the workspace -/

def workspaceGraph : String := "iri://workspace"

def fileIri (path : String) : String := "iri://workspace/file/" ++ path

theorem fileIri_inj {path path' : String} (h : fileIri path = fileIri path') : path = path' :=
  String.append_right_inj _ |>.1 h

def parentDirIri (path : String) : String := "iri://workspace/dir/" ++ (parentOf path).getD "" ++ "/"

/-- The document of an entry. -/
def fileDocument (entry : FileEntry) : Value :=
  .object [("@id", .string (fileIri entry.path)), ("@type", .array [.string "ws:File"]),
    ("ws:contentHash", .string entry.contentHash), ("ws:currentVersion", natValue entry.currentVersion),
    ("ws:fileExt", .string entry.fileExt), ("ws:filePath", .string entry.path),
    ("ws:fileSize", natValue entry.fileSize), ("ws:language", .string entry.language),
    ("ws:lastReadAt", intValue (entry.lastReadAt.getD 0)), ("ws:lastReadVersion", natValue entry.lastReadVersion),
    ("ws:mtime", intValue entry.mtime), ("ws:parentDir", .string (parentDirIri entry.path)),
    ("ws:readCount", natValue entry.readCount), ("ws:state", .string entry.state.asStr)]

/-! ### The world of a call -/

structure FileMetadata where
  len : UInt64
  /-- The time of the last change in milliseconds, where it is known and not before the epoch. -/
  modified : Option Int64
  deriving DecidableEq

/-- What a walk through a directory meets. -/
inductive DirTree
  | failed
  | entry (path : String) (isFile : Bool) (children : List DirTree)

mutual

/-- The files of a walk that leaves out what is excluded. -/
def DirTree.files (excluded : String → Bool) : DirTree → List String
  | .failed => []
  | .entry path isFile children =>
    if excluded path then [] else (if isFile then [path] else []) ++ DirTree.filesOf excluded children

def DirTree.filesOf (excluded : String → Bool) : List DirTree → List String
  | [] => []
  | tree :: trees => tree.files excluded ++ DirTree.filesOf excluded trees

end

/-- What a call finds on the disk, and the time. -/
structure World where
  isFile : String → Bool
  metadata : String → Option FileMetadata
  readToString : String → Option String
  tree : String → DirTree
  now : ℤ
  unixMillis : Int64

/-- What the inventory takes from outside: what the blackboard uses, and the hash of a text. -/
structure InventoryEnv where
  board : BlackboardEnv
  sha256 : String → String

/-! ### The inventory -/

structure FileInventory where
  blackboard : Option Blackboard
  cache : Option (String → Option Value)
  memCache : String → Option FileEntry
  excludePatterns : List String

namespace FileInventory

/-- `new`: what can be read of the database is put into memory. -/
def new (blackboard : Option Blackboard) (db : Option (String → Option Value)) (excludePatterns : List String) :
    FileInventory :=
  ⟨blackboard, db, fun path => db.bind fun table => (table path).bind FileEntry.ofValue, excludePatterns⟩

def isExcluded (inv : FileInventory) (path : String) : Bool :=
  let normalized := Text.replace ['\\'] ['/'] path.toList
  inv.excludePatterns.any fun pattern =>
    let pat := Text.replace ['\\'] ['/'] pattern.toList
    decide (pat <:+: normalized ∨ pat <:+ normalized)

variable (env : InventoryEnv) (world : World) (inv : FileInventory)

/-- The configuration of the node writes. -/
def boardEnv : BlackboardEnv := { env.board with maxNodeSize := 65536 }

def hashContent (content : String) : String := "sha256:" ++ env.sha256 content

/-- The write of an entry to the database. -/
def persistToCache (entry : FileEntry) : FileInventory :=
  { inv with cache := inv.cache.map fun table => update table entry.path (some entry.toValue) }

def storeEntry (entry : FileEntry) : FileInventory :=
  { inv with memCache := update inv.memCache entry.path (some entry) }.persistToCache entry

def syncToL2 (entry : FileEntry) : FileInventory :=
  { inv with blackboard := inv.blackboard.map fun board => (board.writeNodeToGraph (boardEnv env) world.now
      (fileIri entry.path) (env.board.toString (fileDocument entry)) workspaceGraph).1 }

def removeInternal (path : String) : FileInventory :=
  { inv with
    memCache := update inv.memCache path none
    cache := inv.cache.map fun table => update table path none }

def removeFromL2 (path : String) : FileInventory :=
  { inv with blackboard := inv.blackboard.map fun board => board.deleteNode env.board (fileIri path) }

/-- The entry of a file that is found. -/
def discovered (path : String) (metadata : FileMetadata) : FileEntry :=
  let ext := String.ofList ((extensionOf path).getD [])
  ⟨path, metadata.len, ext, classifyLanguage ext, metadata.modified.getD 0,
    hashContent env ((world.readToString path).getD ""), .discovered, none, 0, 0, 0⟩

def addEntry (path : String) : FileInventory :=
  match world.metadata path with
  | none => inv
  | some metadata =>
    let entry := discovered env world path metadata
    (inv.storeEntry entry).syncToL2 env world entry

/-- One file of `full_scan`, with the count of the files that are found. -/
def scanFile (state : FileInventory × ℕ) (path : String) : FileInventory × ℕ :=
  if (state.1.memCache path).isNone then (state.1.addEntry env world path, state.2 + 1) else state

def fullScan (root : String) : FileInventory × ℕ :=
  ((world.tree root).files inv.isExcluded).foldl (scanFile env world) (inv, 0)

def addOrUpdate (path : String) : FileInventory :=
  if world.isFile path then inv.addEntry env world path else inv.removeInternal path

/-- The change of an entry in memory, with the writes of it to the database and the blackboard. -/
def change (path : String) (entry : FileEntry) : FileInventory :=
  let inv := { inv with memCache := update inv.memCache path (some entry) }
  (inv.persistToCache entry).syncToL2 env world entry

/-- An entry after a change from outside. -/
def staled (path : String) (entry : FileEntry) : FileEntry :=
  { entry with
    state := .readStale
    contentHash := ((world.readToString path).map (hashContent env)).getD entry.contentHash
    mtime := ((world.metadata path).bind (·.modified)).getD entry.mtime
    fileSize := ((world.metadata path).map (·.len)).getD entry.fileSize
    currentVersion := entry.currentVersion + 1 }

/-- An entry after a read. -/
def readAt (version : UInt64) (entry : FileEntry) : FileEntry :=
  { entry with
    state := .readFresh
    lastReadAt := some world.unixMillis
    lastReadVersion := version
    readCount := entry.readCount + 1 }

/-- An entry after a write of the agent. -/
def writtenTo (entry : FileEntry) : FileEntry :=
  { entry with
    state := .writtenUnread
    currentVersion := entry.currentVersion + 1 }

/-- An entry after a read by another tool. -/
def readOutside (entry : FileEntry) : FileEntry :=
  { entry with
    state := .readFresh
    readCount := entry.readCount + 1
    lastReadAt := some world.unixMillis }

/-- The entry of a file that was read without being tracked. -/
def placeholder (path : String) : FileEntry :=
  ⟨path, 0, String.ofList ((extensionOf path).getD []), "unknown", 0, "", .readFresh, some world.unixMillis, 0, 0, 1⟩

def markStale (path : String) : FileInventory :=
  match inv.memCache path with
  | some entry => inv.change env world path (staled env world path entry)
  | none => inv

def markRead (path : String) (version : UInt64) : FileInventory :=
  match inv.memCache path with
  | some entry => inv.change env world path (readAt world version entry)
  | none => inv

def markWritten (path : String) : FileInventory :=
  match inv.memCache path with
  | some entry => inv.change env world path (writtenTo entry)
  | none => inv.addOrUpdate env world path

def markExternalRead (path : String) : FileInventory :=
  match inv.memCache path with
  | some entry => inv.change env world path (readOutside world entry)
  | none => inv.storeEntry (placeholder world path)

def remove (path : String) : FileInventory := (inv.removeInternal path).removeFromL2 env path

def clearAll : FileInventory := { inv with memCache := fun _ => none }

end FileInventory

end WildAgentOs.Tools
