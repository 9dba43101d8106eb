import WildAgentOs.Lib.LruCache
import WildAgentOs.Lib.Text

/-!
# The content store

`tools/workspace_monitor/content_store.rs`: files are read through a cache that is trusted while the modification time
of a file is the same, or the hash of its content; every other content gets a version number and goes to the version
store.

* `unifiedDiff`, `changedRanges`, `extractChangedLines`;
* `ContentStore.readFile`, with the file that is found and the outcome of the write to the version store;
* `Run`: histories, with what every read returned;
* `ShowsFile`, `showsFile_iff`.
-/

namespace WildAgentOs.Tools

open LruCache

/-! ### Differences -/

inductive ChangeTag
  | equal
  | delete
  | insert
  deriving DecidableEq

inductive DiffTag
  | equal
  | delete
  | insert
  | replace
  deriving DecidableEq

/-- An operation of a difference, with what it covers of the old lines and of the new ones. -/
structure DiffOp where
  tag : DiffTag
  oldRange : ℕ × ℕ
  newRange : ℕ × ℕ
  deriving DecidableEq

structure TextDiff where
  ops : List DiffOp
  groupedOps : ℕ → List (List DiffOp)
  iterChanges : DiffOp → List (ChangeTag × String)

/-- What the store takes from outside: the difference of two texts by lines, and the digest of a content. -/
structure ContentEnv where
  fromLines : String → String → TextDiff
  sha256 : String → String

namespace DiffEngine

variable (env : ContentEnv)

/-- The text that lines are compared as. -/
def textOf (lines : List String) : String := "\n".intercalate lines ++ "\n"

def groupSpan (ops : List DiffOp) : (ℕ × ℕ) × (ℕ × ℕ) :=
  ((ops.head?.map (·.oldRange)).getD (0, 0), (ops.getLast?.map (·.newRange)).getD (0, 0))

def sigil : ChangeTag → String
  | .delete => "-"
  | .insert => "+"
  | .equal => " "

/-- The lines of a change, every one with its sign. -/
def changeText (change : ChangeTag × String) : String :=
  let trimmed := (change.2.toList.reverse.dropWhile (· = '\n')).reverse
  String.join ((trimmed.splitOn '\n').map fun line => sigil change.1 ++ String.ofList line ++ "\n")

def unifiedDiff (oldLines newLines : List String) (filePath : String) (oldVersion newVersion : ℕ) : String :=
  let diff := env.fromLines (textOf oldLines) (textOf newLines)
  "--- " ++ filePath ++ " (v" ++ toString oldVersion ++ ")\n+++ " ++ filePath ++ " (v" ++ toString newVersion ++ ")\n" ++
    String.join ((diff.groupedOps 3).map fun group =>
      let (a, b) := groupSpan group
      "@@ -" ++ toString (a.1 + 1) ++ "," ++ toString (a.2 - a.1) ++ " +" ++ toString (b.1 + 1) ++ "," ++
        toString (b.2 - b.1) ++ " @@\n" ++
        String.join (group.flatMap fun op => (diff.iterChanges op).map changeText))

/-- The runs of lines that are marked as changed. -/
def changedRuns (i : ℕ) (start : Option ℕ) : List Bool → List (ℕ × ℕ)
  | [] => match start with
    | some start => [(start, i)]
    | none => []
  | true :: changed => changedRuns (i + 1) (some (start.getD i)) changed
  | false :: changed => match start with
    | some start => (start, i) :: changedRuns (i + 1) none changed
    | none => changedRuns (i + 1) none changed

def changedRanges (oldLines newLines : List String) : List (ℕ × ℕ) :=
  let diff := env.fromLines (textOf oldLines) (textOf newLines)
  changedRuns 0 none ((List.range newLines.length).map fun i =>
    diff.ops.any fun op => decide ((op.tag = .insert ∨ op.tag = .replace) ∧ op.newRange.1 ≤ i ∧ i < op.newRange.2))

end DiffEngine

/-! ### The store -/

inductive ReadMode
  | full
  | diff
  | changedOnly
  | forceRefresh
  deriving DecidableEq

namespace ReadMode

def isDiff : ReadMode → Bool
  | diff | changedOnly => true
  | _ => false

end ReadMode

structure ReadResult where
  path : String
  lines : List String
  totalLines : ℕ
  changed : Bool
  changedRanges : Option (List (ℕ × ℕ))
  unifiedDiff : Option String
  changedLines : Option (List String)
  fromCache : Bool
  version : ℕ
  deriving DecidableEq

structure CachedContent where
  lines : List String
  hash : String
  mtime : ℤ
  version : ℕ
  deriving DecidableEq

/-- What a read finds of a file: its content, and its modification time in milliseconds. -/
structure DiskFile where
  content : String
  mtime : ℤ
  deriving DecidableEq

def DiskFile.lines (file : DiskFile) : List String := (Text.lines file.content.toList).map String.ofList

/-- The table of the version store. -/
abbrev VersionTable := String → Option String

structure ContentStore where
  linesCache : LruCache String CachedContent
  versionIndex : String → Option ℕ
  versionStore : Option VersionTable

def hashContent (env : ContentEnv) (content : String) : String := "sha256:" ++ env.sha256 content

def versionKey (path : String) (version : ℕ) : String := "version:" ++ path ++ ":v" ++ toString version

namespace ContentStore

def new (cacheCapacity : ℕ) (db : Option VersionTable) : ContentStore :=
  ⟨.empty (max cacheCapacity 1), fun _ => none, db⟩

def getVersion (store : ContentStore) (path : String) : ℕ := (store.versionIndex path).getD 0

def getVersionContent (store : ContentStore) (path : String) (version : ℕ) : Option String :=
  store.versionStore.bind fun table => table (versionKey path version)

/-- `store_version`; a write that fails is reported and left. -/
def storeVersion (store : ContentStore) (path content : String) (version : ℕ) (stores : Bool) : ContentStore :=
  { store with versionStore := store.versionStore.map fun table =>
      if stores then Function.update table (versionKey path version) (some content) else table }

/-- The next version of a file. -/
def giveVersion (store : ContentStore) (path content : String) (stores : Bool) : ContentStore :=
  ({ store with versionIndex := Function.update store.versionIndex path (some (store.getVersion path + 1)) } :
    ContentStore).storeVersion path content (store.getVersion path + 1) stores

def extractChangedLines (allLines : List String) (ranges : List (ℕ × ℕ)) : List String :=
  (ranges.foldl (fun (result : List String × ℕ) (range : ℕ × ℕ) =>
    (result.1 ++ (if result.2 < range.1 - 3 then ["... (snip) ..."] else []) ++
      ((allLines.take range.1).drop (range.1 - 3)).map (" " ++ ·) ++
      ((allLines.take range.2).drop range.1).map ("+" ++ ·), range.2)) ([], 0)).1

def invalidate (store : ContentStore) (path : String) : ContentStore :=
  { store with linesCache := store.linesCache.pop path }

/-- `try_get_cached`, for what it does to the order of the cache. -/
def tryGetCached (store : ContentStore) (path : String) : Option (List String) × ContentStore :=
  ((store.linesCache.peek path).map (·.lines), { store with linesCache := store.linesCache.touch path })

def clear (store : ContentStore) : ContentStore :=
  { store with linesCache := store.linesCache.clear, versionIndex := fun _ => none }

/-- A result without a difference. -/
def plainResult (path : String) (lines : List String) (totalLines : ℕ) (changed fromCache : Bool) (version : ℕ) :
    ReadResult := ⟨path, lines, totalLines, changed, none, none, none, fromCache, version⟩

/-- The result of a read that finds other content than is cached. -/
def changedResult (env : ContentEnv) (path : String) (mode : ReadMode) (cached : CachedContent) (file : DiskFile)
    (newVersion : ℕ) : ReadResult :=
  let ranges := DiffEngine.changedRanges env cached.lines file.lines
  let diff := DiffEngine.unifiedDiff env cached.lines file.lines path cached.version newVersion
  { plainResult path file.lines file.lines.length true false newVersion with
    changedRanges := if mode.isDiff then some ranges else none
    unifiedDiff := if mode.isDiff then some diff else none
    changedLines := if mode = .changedOnly then some (extractChangedLines file.lines ranges) else none }

/-- `read_file`, of a file that could be read. -/
def readDisk (env : ContentEnv) (store : ContentStore) (path : String) (mode : ReadMode) (file : DiskFile)
    (stores : Bool) : ReadResult × ContentStore :=
  let hash := hashContent env file.content
  let newVersion := store.getVersion path + 1
  let fresh : CachedContent := ⟨file.lines, hash, file.mtime, newVersion⟩
  if mode = .forceRefresh then
    (plainResult path file.lines file.lines.length true false newVersion,
      (store.giveVersion path file.content stores).invalidate path)
  else
    match store.linesCache.peek path with
    | some cached =>
      let store := { store with linesCache := store.linesCache.touch path }
      if file.mtime = cached.mtime ∧ mode.isDiff = false then
        (plainResult path cached.lines file.lines.length false true cached.version, store)
      else if hash = cached.hash then
        (plainResult path cached.lines file.lines.length false true cached.version,
          { store with linesCache := store.linesCache.put path { cached with mtime := file.mtime } })
      else
        let store := store.giveVersion path file.content stores
        (changedResult env path mode cached file newVersion,
          { store with linesCache := store.linesCache.put path fresh })
    | none =>
      let store := store.giveVersion path file.content stores
      (plainResult path file.lines file.lines.length true false newVersion,
        { store with linesCache := store.linesCache.put path fresh })

def readFile (env : ContentEnv) (store : ContentStore) (path : String) (mode : ReadMode) (disk : Option DiskFile)
    (stores : Bool) : Option ReadResult × ContentStore :=
  match disk with
  | none => (none, store)
  | some file => ((store.readDisk env path mode file stores).1, (store.readDisk env path mode file stores).2)

/-! ### What a read does -/

variable {env : ContentEnv} {store : ContentStore} {path : String} {mode : ReadMode} {file : DiskFile} {stores : Bool}

/-- A cache entry is taken for the file. -/
def IsCurrent (env : ContentEnv) (mode : ReadMode) (file : DiskFile) (cached : CachedContent) : Prop :=
  mode ≠ .forceRefresh ∧ (file.mtime = cached.mtime ∧ mode.isDiff = false ∨ hashContent env file.content = cached.hash)

/-- A read from the cache. -/
structure Served (env : ContentEnv) (store : ContentStore) (path : String) (mode : ReadMode) (file : DiskFile)
    (cached : CachedContent) (out : ReadResult × ContentStore) : Prop where
  peek : store.linesCache.peek path = some cached
  isCurrent : IsCurrent env mode file cached
  result : out.1 = plainResult path cached.lines file.lines.length false true cached.version
  versionIndex : out.2.versionIndex = store.versionIndex
  versionStore : out.2.versionStore = store.versionStore
  cache : ∀ other found, out.2.linesCache.peek other = some found →
    other = path ∧ found.lines = cached.lines ∧ found.version = cached.version ∨
      other ≠ path ∧ store.linesCache.peek other = some found

/-- A read that gives the file a new version. -/
structure Given (env : ContentEnv) (store : ContentStore) (path : String) (mode : ReadMode) (file : DiskFile)
    (stores : Bool) (out : ReadResult × ContentStore) : Prop where
  not_current : ∀ cached, store.linesCache.peek path = some cached → ¬IsCurrent env mode file cached
  result_path : out.1.path = path
  lines : out.1.lines = file.lines
  totalLines : out.1.totalLines = file.lines.length
  changed : out.1.changed = true
  fromCache : out.1.fromCache = false
  version : out.1.version = store.getVersion path + 1
  unifiedDiff : ∀ text, out.1.unifiedDiff = some text → ∃ cached, store.linesCache.peek path = some cached ∧
    text = DiffEngine.unifiedDiff env cached.lines file.lines path cached.version out.1.version
  versionIndex : out.2.versionIndex = Function.update store.versionIndex path (some (store.getVersion path + 1))
  versionStore : out.2.versionStore = (store.storeVersion path file.content (store.getVersion path + 1) stores).versionStore
  cache : ∀ other found, out.2.linesCache.peek other = some found →
    other = path ∧ found.lines = file.lines ∧ found.version = store.getVersion path + 1 ∨
      other ≠ path ∧ store.linesCache.peek other = some found

/-- **What a read does**: it is served from an entry that is taken for current, or gives a new version. -/
theorem readDisk_cases (env : ContentEnv) (store : ContentStore) (path : String) (mode : ReadMode) (file : DiskFile)
    (stores : Bool) :
    (∃ cached, Served env store path mode file cached (store.readDisk env path mode file stores)) ∨
      Given env store path mode file stores (store.readDisk env path mode file stores) := by
  unfold readDisk
  simp only
  by_cases hmode : mode = .forceRefresh
  · rw [if_pos hmode]
    refine .inr ⟨fun cached hpeek h => h.1 hmode, rfl, rfl, rfl, rfl, rfl, rfl, fun text h => (nomatch h), rfl, rfl,
      fun other found h => ?_⟩
    have hpop : (store.linesCache.pop path).peek other = some found := h
    rw [peek_pop] at hpop
    split_ifs at hpop with hother
    exact .inr ⟨hother, hpop⟩
  · rw [if_neg hmode]
    cases hpeek : store.linesCache.peek path with
    | none =>
      refine .inr ⟨fun cached h => ?_, rfl, rfl, rfl, rfl, rfl, rfl, fun text h => (nomatch h), rfl, rfl,
        fun other found h => ?_⟩
      · cases hpeek.symm.trans h
      · rcases peek_put_cases h with ⟨hother, rfl⟩ | h
        · exact .inl ⟨hother, rfl, rfl⟩
        · exact .inr h
    | some cached =>
      simp only
      split_ifs with hmtime hhash
      · refine .inl ⟨cached, hpeek, ⟨hmode, .inl hmtime⟩, rfl, rfl, rfl, fun other found h => ?_⟩
        rw [peek_touch] at h
        by_cases hother : other = path
        · rw [hother, hpeek] at h
          cases h
          exact .inl ⟨hother, rfl, rfl⟩
        · exact .inr ⟨hother, h⟩
      · refine .inl ⟨cached, hpeek, ⟨hmode, .inr hhash⟩, rfl, rfl, rfl, fun other found h => ?_⟩
        rcases peek_put_cases h with ⟨hother, rfl⟩ | ⟨hother, h⟩
        · exact .inl ⟨hother, rfl, rfl⟩
        · exact .inr ⟨hother, peek_touch.symm.trans h⟩
      · refine .inr ⟨fun found h => ?_, rfl, rfl, rfl, rfl, rfl, rfl, fun text h => ?_, rfl, rfl,
          fun other found h => ?_⟩
        · cases hpeek.symm.trans h
          rintro ⟨-, h | h⟩
          · exact hmtime h
          · exact hhash h
        · refine ⟨cached, hpeek, ?_⟩
          unfold changedResult at h
          simp only at h
          split_ifs at h
          exact (Option.some.inj h).symm
        · rcases peek_put_cases h with ⟨hother, rfl⟩ | ⟨hother, h⟩
          · exact .inl ⟨hother, rfl, rfl⟩
          · exact .inr ⟨hother, peek_touch.symm.trans h⟩

end ContentStore

/-! ### Histories -/

/-- A read that succeeded, with the content that was on disk. -/
structure Reading where
  content : String
  result : ReadResult
  deriving DecidableEq

/-- A history: the store, and its readings, the last one first. -/
structure ContentRun where
  store : ContentStore
  readings : List Reading

namespace ContentRun

inductive Op
  /-- A read, with what is on disk, and whether the version store takes a write. -/
  | read (path : String) (mode : ReadMode) (disk : Option DiskFile) (stores : Bool)
  | invalidate (path : String)
  | tryGetCached (path : String)
  | clear
  /-- A new process over the same version store. -/
  | restart (cacheCapacity : ℕ)
  deriving DecidableEq

def step (env : ContentEnv) (σ : ContentRun) : Op → ContentRun
  | .read path mode disk stores =>
    ⟨(σ.store.readFile env path mode disk stores).2, match disk, (σ.store.readFile env path mode disk stores).1 with
      | some file, some result => ⟨file.content, result⟩ :: σ.readings
      | _, _ => σ.readings⟩
  | .invalidate path => { σ with store := σ.store.invalidate path }
  | .tryGetCached path => { σ with store := (σ.store.tryGetCached path).2 }
  | .clear => { σ with store := σ.store.clear }
  | .restart cacheCapacity => { σ with store := .new cacheCapacity σ.store.versionStore }

def start (cacheCapacity : ℕ) (db : Option VersionTable) : ContentRun := ⟨.new cacheCapacity db, []⟩

def run (env : ContentEnv) (σ : ContentRun) (ops : List Op) : ContentRun := ops.foldl (step env) σ

@[simp] theorem run_nil (env : ContentEnv) (σ : ContentRun) : run env σ [] = σ := rfl

theorem run_concat (env : ContentEnv) (σ : ContentRun) (ops : List Op) (op : Op) :
    run env σ (ops ++ [op]) = step env (run env σ ops) op := by
  rw [run, List.foldl_append]
  rfl

/-- The last read of a path. -/
def lastRead (σ : ContentRun) (path : String) : Option Reading :=
  σ.readings.find? fun reading => decide (reading.result.path = path)

/-- The lines of a version of a path: those of the last read that returned it. -/
def linesOf (σ : ContentRun) (path : String) (version : ℕ) : Option (List String) :=
  (σ.readings.find? fun reading => decide (reading.result.path = path ∧ reading.result.version = version)).map
    (·.result.lines)

/-- **A read shows the file**: its lines are those on disk, and their number; it says that nothing changed only if the
last read of the path returned these lines; and a difference starts from the version that it names. -/
structure ShowsFile (env : ContentEnv) (σ : ContentRun) (path : String) (file : DiskFile) (result : ReadResult) :
    Prop where
  lines : result.lines = file.lines
  totalLines : result.totalLines = file.lines.length
  unchanged : result.changed = false → ∃ previous, σ.lastRead path = some previous ∧ previous.result.lines = file.lines
  unifiedDiff : ∀ text, result.unifiedDiff = some text → ∃ version old, σ.linesOf path version = some old ∧
    text = DiffEngine.unifiedDiff env old file.lines path version result.version

/-- The cache holds other lines than the file, under its modification time or its hash. -/
def IsStale (env : ContentEnv) (store : ContentStore) (path : String) (mode : ReadMode) (file : DiskFile) : Prop :=
  ∃ cached, store.linesCache.peek path = some cached ∧ ContentStore.IsCurrent env mode file cached ∧
    cached.lines ≠ file.lines

/-- What the cache holds for a path is what the last read of it returned. -/
def CacheIsLast (σ : ContentRun) : Prop :=
  ∀ path cached, σ.store.linesCache.peek path = some cached → ∃ reading, σ.lastRead path = some reading ∧
    reading.result.path = path ∧ reading.result.lines = cached.lines ∧ reading.result.version = cached.version

variable {env : ContentEnv} {σ : ContentRun}

theorem lastRead_cons {store : ContentStore} (reading : Reading) (path : String) :
    lastRead ⟨store, reading :: σ.readings⟩ path =
      if reading.result.path = path then some reading else σ.lastRead path := by
  unfold lastRead
  rw [List.find?_cons]
  by_cases h : reading.result.path = path
  · rw [if_pos h, decide_eq_true h]
  · rw [if_neg h, decide_eq_false h]

theorem cacheIsLast_start (cacheCapacity : ℕ) (db : Option VersionTable) : CacheIsLast (start cacheCapacity db) :=
  fun _ _ h => nomatch h

section

variable (h : CacheIsLast σ)
include h

/-- A read leaves the path with its own result as the last one, and with an entry of the same lines and version if
there is one. -/
theorem CacheIsLast.read (path : String) (mode : ReadMode) (file : DiskFile) (stores : Bool) :
    CacheIsLast (step env σ (.read path mode (some file) stores)) := by
  intro other found hfound
  show ∃ reading, lastRead ⟨_, _ :: σ.readings⟩ other = some reading ∧ _
  rw [lastRead_cons]
  simp only
  rcases ContentStore.readDisk_cases env σ.store path mode file stores with ⟨cached, hserved⟩ | hgiven
  · have hresult := hserved.result
    rcases hserved.cache other found hfound with ⟨rfl, hlines, hversion⟩ | ⟨hother, hold⟩
    · rw [if_pos (by rw [hresult]; rfl)]
      refine ⟨_, rfl, ?_⟩
      rw [hresult]
      exact ⟨rfl, hlines.symm, hversion.symm⟩
    · rw [if_neg (by rw [hresult]; exact Ne.symm hother)]
      exact h other found hold
  · rcases hgiven.cache other found hfound with ⟨rfl, hlines, hversion⟩ | ⟨hother, hold⟩
    · rw [if_pos hgiven.result_path]
      exact ⟨_, rfl, hgiven.result_path, hgiven.lines.trans hlines.symm, hgiven.version.trans hversion.symm⟩
    · rw [if_neg fun heq => hother (heq.symm.trans hgiven.result_path)]
      exact h other found hold

theorem CacheIsLast.step (op : Op) : CacheIsLast (step env σ op) := by
  cases op with
  | read path mode disk stores =>
    cases disk with
    | none => exact h
    | some file => exact h.read path mode file stores
  | invalidate path =>
    intro other found hfound
    have hpop : (σ.store.linesCache.pop path).peek other = some found := hfound
    rw [peek_pop] at hpop
    split_ifs at hpop
    exact h other found hpop
  | tryGetCached path =>
    intro other found hfound
    have htouch : (σ.store.linesCache.touch path).peek other = some found := hfound
    rw [peek_touch] at htouch
    exact h other found htouch
  | clear => exact fun _ _ h => nomatch h
  | restart cacheCapacity => exact fun _ _ h => nomatch h

theorem CacheIsLast.run (ops : List Op) : CacheIsLast (run env σ ops) := by
  induction ops using List.reverseRecOn with
  | nil => exact h
  | append_singleton ops op ih => exact run_concat env σ ops op ▸ ih.step op

/-- The version of a cache entry has the lines of the entry. -/
theorem CacheIsLast.linesOf {path : String} {cached : CachedContent}
    (hpeek : σ.store.linesCache.peek path = some cached) : σ.linesOf path cached.version = some cached.lines := by
  obtain ⟨reading, hlast, hpath, hlines, hversion⟩ := h path cached hpeek
  obtain ⟨-, before, after, hsplit, hbefore⟩ := List.find?_eq_some_iff_append.1 hlast
  unfold ContentRun.linesOf
  rw [List.find?_eq_some_iff_append.2 ⟨by simp [hpath, hversion], before, after, hsplit, fun r hr => ?_⟩,
    Option.map_some, hlines]
  have hne := hbefore r hr
  simp only [Bool.not_eq_true', decide_eq_false_iff_not] at hne ⊢
  exact fun hboth => hne hboth.1

end

/-- **The cache holds what the last read of a path returned**, after every history. -/
theorem cacheIsLast_run (env : ContentEnv) (cacheCapacity : ℕ) (db : Option VersionTable) (ops : List Op) :
    CacheIsLast (run env (start cacheCapacity db) ops) :=
  (cacheIsLast_start cacheCapacity db).run ops

/-- **A read shows the file exactly where the cache does not hold other lines under the file's modification time or
hash**, after every history. -/
theorem showsFile_iff (env : ContentEnv) (cacheCapacity : ℕ) (db : Option VersionTable) (ops : List Op) (path : String)
    (mode : ReadMode) (file : DiskFile) (stores : Bool) :
    let σ := run env (start cacheCapacity db) ops
    ShowsFile env σ path file (σ.store.readDisk env path mode file stores).1 ↔ ¬IsStale env σ.store path mode file := by
  intro σ
  have hlast : CacheIsLast σ := (cacheIsLast_start cacheCapacity db).run ops
  rcases ContentStore.readDisk_cases env σ.store path mode file stores with ⟨cached, hserved⟩ | hgiven
  · have hresult := hserved.result
    constructor
    · rintro h ⟨found, hpeek, -, hother⟩
      cases hserved.peek.symm.trans hpeek
      exact hother (by rw [← h.lines, hresult]; rfl)
    · intro hfresh
      have hlines : cached.lines = file.lines := by
        by_contra hother
        exact hfresh ⟨cached, hserved.peek, hserved.isCurrent, hother⟩
      rw [hresult]
      refine ⟨hlines, rfl, fun _ => ?_, fun text h => (nomatch h)⟩
      obtain ⟨reading, hread, -, hcached, -⟩ := hlast path cached hserved.peek
      exact ⟨reading, hread, hcached.trans hlines⟩
  · constructor
    · rintro - ⟨cached, hpeek, hcurrent, -⟩
      exact hgiven.not_current cached hpeek hcurrent
    · intro _
      refine ⟨hgiven.lines, hgiven.totalLines, fun h => ?_, fun text h => ?_⟩
      · cases hgiven.changed.symm.trans h
      · obtain ⟨cached, hpeek, htext⟩ := hgiven.unifiedDiff text h
        exact ⟨cached.version, cached.lines, hlast.linesOf hpeek, htext⟩

/-- Texts without a difference, and every content its own digest. -/
def sampleEnv : ContentEnv := ⟨fun _ _ => ⟨[], fun _ => [], fun _ => []⟩, id⟩

/-- A file that is written again within the millisecond is read as it was. -/
theorem not_showsFile_sameMtime : ¬ShowsFile sampleEnv
    (run sampleEnv (start 100 none) [.read "notes" .full (some ⟨"a", 5⟩) true]) "notes" ⟨"b", 5⟩
    ((run sampleEnv (start 100 none) [.read "notes" .full (some ⟨"a", 5⟩) true]).store.readDisk sampleEnv "notes" .full
      ⟨"b", 5⟩ true).1 := by
  intro h
  exact absurd h.lines (by decide +kernel)

end ContentRun

end WildAgentOs.Tools
