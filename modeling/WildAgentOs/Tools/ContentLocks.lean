import WildAgentOs.Lib.LockOrder
import WildAgentOs.Tools.ContentStore

/-!
# The locks of the content store

`tools/workspace_monitor/content_store.rs`, for the order in which each method takes and gives back the lock of the
versions and that of the cache.  A read takes the versions and, while it has them, the cache; `clear` takes the cache
and, while it has it, the versions.

* `Call`, `Call.locks`;
* `versionsFirst`, `cacheFirst`: the two orders, `inOrder_locks_of_ne_clear`, `inOrder_locks_of_not_readsUnforced`;
* `not_deadlocked_iff`.
-/

namespace WildAgentOs.Tools.ContentLocks

open LockOrder List

/-- `version_index` and `lines_cache`. -/
inductive StoreLock
  | versionIndex
  | linesCache
  deriving DecidableEq

/-- A call, with the store that a read finds when it looks into the cache, and what is at the path. -/
inductive Call
  | readFile (store : ContentStore) (path : String) (mode : ReadMode) (disk : Option DiskFile)
  | invalidate (path : String)
  | clear
  | tryGetCached (path : String)
  | getHash (path : String)
  | getVersion (path : String)

/-- The lock is taken for a block, or for the rest of a function, and given back at its end. -/
def holding (l : StoreLock) (mode : Mode) (body : List (Op StoreLock)) : List (Op StoreLock) :=
  .acquire l mode :: (body ++ [.release l])

/-- A lock for one statement. -/
def touching (l : StoreLock) (mode : Mode) : List (Op StoreLock) := holding l mode []

/-- `read_file`, of a file that could be read. -/
def readDiskLocks (env : ContentEnv) (store : ContentStore) (path : String) (mode : ReadMode) (file : DiskFile) :
    List (Op StoreLock) :=
  if mode = .forceRefresh then touching .versionIndex .exclusive ++ touching .linesCache .exclusive
  else
    match store.linesCache.peek path with
    | some cached =>
      if file.mtime = cached.mtime ∧ mode.isDiff = false then
        holding .versionIndex .exclusive (touching .linesCache .exclusive)
      else if hashContent env file.content = cached.hash then
        holding .versionIndex .exclusive (touching .linesCache .exclusive ++ touching .linesCache .exclusive)
      else
        holding .versionIndex .exclusive (touching .linesCache .exclusive) ++ touching .linesCache .exclusive
    | none => holding .versionIndex .exclusive (touching .linesCache .exclusive) ++ touching .linesCache .exclusive

/-- The lock steps of a call. -/
def Call.locks (env : ContentEnv) : Call → List (Op StoreLock)
  | .readFile _ _ _ none => []
  | .readFile store path mode (some file) => readDiskLocks env store path mode file
  | .invalidate _ | .tryGetCached _ | .getHash _ => touching .linesCache .exclusive
  | .getVersion _ => touching .versionIndex .shared
  | .clear => holding .linesCache .exclusive (touching .versionIndex .exclusive)

/-- The call is a read that looks into the cache. -/
def Call.ReadsUnforced (call : Call) : Prop :=
  ∃ store path mode file, call = .readFile store path mode (some file) ∧ mode ≠ .forceRefresh

variable {env : ContentEnv} {call : Call} {calls : List Call}

/-! ### The two orders -/

def versionsFirst : StoreLock → ℕ
  | .versionIndex => 0
  | .linesCache => 1

def cacheFirst : StoreLock → ℕ
  | .versionIndex => 1
  | .linesCache => 0

/-- What a read can do after it has looked into the cache. -/
def afterLook : List (List (Op StoreLock)) :=
  [[.release .versionIndex], touching .linesCache .exclusive ++ [.release .versionIndex],
    .release .versionIndex :: touching .linesCache .exclusive]

/-- **What a read does with the locks**: it takes one after the other, or the cache while it has the versions. -/
theorem readDiskLocks_cases (env : ContentEnv) (store : ContentStore) (path : String) (mode : ReadMode)
    (file : DiskFile) :
    (mode = .forceRefresh ∧ readDiskLocks env store path mode file =
        touching .versionIndex .exclusive ++ touching .linesCache .exclusive) ∨
      (mode ≠ .forceRefresh ∧ ∃ back ∈ afterLook, readDiskLocks env store path mode file =
        .acquire .versionIndex .exclusive :: (touching .linesCache .exclusive ++ back)) := by
  unfold readDiskLocks
  by_cases hmode : mode = .forceRefresh
  · exact .inl ⟨hmode, if_pos hmode⟩
  · refine .inr ⟨hmode, ?_⟩
    rw [if_neg hmode]
    cases store.linesCache.peek path with
    | none => exact ⟨_, .tail _ (.tail _ (.head _)), rfl⟩
    | some cached =>
      simp only
      split_ifs
      · exact ⟨_, .head _, rfl⟩
      · exact ⟨_, .tail _ (.head _), rfl⟩
      · exact ⟨_, .tail _ (.tail _ (.head _)), rfl⟩

/-- All calls but `clear` take the versions first. -/
theorem inOrder_locks_of_ne_clear (h : call ≠ .clear) : InOrder versionsFirst [] (call.locks env) := by
  cases call with
  | clear => exact absurd rfl h
  | invalidate | tryGetCached | getHash | getVersion =>
    simp only [Call.locks]
    decide
  | readFile store path mode disk =>
    cases disk with
    | none => exact rfl
    | some file =>
      simp only [Call.locks]
      obtain ⟨-, hlocks⟩ | ⟨-, back, hback, hlocks⟩ := readDiskLocks_cases env store path mode file
      · rw [hlocks]
        decide
      · have hall : ∀ back ∈ afterLook, InOrder versionsFirst []
            (.acquire .versionIndex .exclusive :: (touching .linesCache .exclusive ++ back)) := by decide
        rw [hlocks]
        exact hall back hback

/-- All calls but those reads take the cache first. -/
theorem inOrder_locks_of_not_readsUnforced (h : ¬call.ReadsUnforced) : InOrder cacheFirst [] (call.locks env) := by
  cases call with
  | clear | invalidate | tryGetCached | getHash | getVersion =>
    simp only [Call.locks]
    decide
  | readFile store path mode disk =>
    cases disk with
    | none => exact rfl
    | some file =>
      simp only [Call.locks]
      obtain ⟨-, hlocks⟩ | ⟨hmode, -⟩ := readDiskLocks_cases env store path mode file
      · rw [hlocks]
        decide
      · exact absurd ⟨store, path, mode, file, rfl, hmode⟩ h

/-- A call does nothing with the locks, or takes one of the two first. -/
theorem locks_eq_nil_or_acquire (env : ContentEnv) (call : Call) : call.locks env = [] ∨ ∃ l mode rest,
    call.locks env = .acquire l mode :: rest := by
  cases call with
  | clear | invalidate | tryGetCached | getHash | getVersion => exact .inr ⟨_, _, _, rfl⟩
  | readFile store path mode disk =>
    cases disk with
    | none => exact .inl rfl
    | some file =>
      obtain ⟨-, hlocks⟩ | ⟨-, back, -, hlocks⟩ := readDiskLocks_cases env store path mode file
      · exact .inr ⟨_, _, _, hlocks⟩
      · exact .inr ⟨_, _, _, hlocks⟩

/-! ### Deadlocks -/

/-- A `clear` and such a read can wait for each other, with all other calls behind them. -/
theorem exists_deadlocked (env : ContentEnv) (hclear : .clear ∈ calls) (hread : ∃ call ∈ calls, call.ReadsUnforced) :
    ∃ threads, Reached (calls.map (Call.locks env)) threads ∧ Deadlocked threads := by
  obtain ⟨call, hmem, store, path, mode, file, rfl, hmode⟩ := hread
  obtain ⟨i, hi⟩ := mem_iff_getElem?.1 hclear
  obtain ⟨j, hj⟩ := mem_iff_getElem?.1 hmem
  obtain ⟨hforced, -⟩ | ⟨-, back, -, hlocks⟩ := readDiskLocks_cases env store path mode file
  · exact absurd hforced hmode
  have hij : i ≠ j := by
    rintro rfl
    cases hi.symm.trans hj
  have hfirst : (calls.map (Call.locks env))[i]? = some ([] ++ .acquire .linesCache .exclusive ::
      .acquire .versionIndex .exclusive :: [.release .versionIndex, .release .linesCache]) := by
    rw [getElem?_map, hi]
    rfl
  have hsecond : (calls.map (Call.locks env))[j]? = some ([] ++ .acquire .versionIndex .exclusive ::
      .acquire .linesCache .exclusive :: .release .linesCache :: back) := by
    simp [hj, Call.locks, hlocks, touching, holding]
  have hne : StoreLock.linesCache ≠ .versionIndex := by decide
  refine exists_deadlocked_of_crossed hne hij hfirst rfl hsecond rfl ⟨rfl, .inl rfl⟩ ⟨rfl, .inl rfl⟩
    fun program hprogram => ?_
  obtain ⟨other, -, rfl⟩ := mem_map.1 hprogram
  rcases locks_eq_nil_or_acquire env other with hnil | ⟨l, mode, rest, hacquire⟩
  · exact .inl hnil
  · refine .inr ⟨l, mode, rest, hacquire, ?_⟩
    cases l
    · exact .inr ⟨rfl, .inl rfl⟩
    · exact .inl ⟨rfl, .inl rfl⟩

/-- **Calls of the content store never block each other for ever exactly when there is no `clear` among them, or no
read that looks into the cache.** -/
theorem not_deadlocked_iff (env : ContentEnv) (calls : List Call) :
    (∀ threads, Reached (calls.map (Call.locks env)) threads → ¬Deadlocked threads) ↔
      ¬(.clear ∈ calls ∧ ∃ call ∈ calls, call.ReadsUnforced) := by
  constructor
  · rintro h ⟨hclear, hread⟩
    obtain ⟨threads, hreached, hdead⟩ := exists_deadlocked env hclear hread
    exact h threads hreached hdead
  · intro h threads hreached
    by_cases hclear : .clear ∈ calls
    · have hprograms : ∀ program ∈ calls.map (Call.locks env), InOrder cacheFirst [] program := by
        intro program hprogram
        obtain ⟨call, hmem, rfl⟩ := mem_map.1 hprogram
        exact inOrder_locks_of_not_readsUnforced fun hread => h ⟨hclear, call, hmem, hread⟩
      exact not_deadlocked_of_inOrder hprograms hreached
    · have hprograms : ∀ program ∈ calls.map (Call.locks env), InOrder versionsFirst [] program := by
        intro program hprogram
        obtain ⟨call, hmem, rfl⟩ := mem_map.1 hprogram
        exact inOrder_locks_of_ne_clear fun heq => hclear (heq ▸ hmem)
      exact not_deadlocked_of_inOrder hprograms hreached

/-- A store that is cleared while a file is read for the first time. -/
theorem exists_deadlocked_clear_readFile :
    ∃ threads, Reached ([.clear, .readFile (ContentStore.new 1 none) "a.txt" .full (some ⟨"x", 0⟩)].map
      (Call.locks ⟨fun _ _ => ⟨[], fun _ => [], fun _ => []⟩, id⟩)) threads ∧ Deadlocked threads := by
  apply exists_deadlocked
  · exact mem_cons_self
  · exact ⟨_, mem_cons_of_mem _ mem_cons_self, _, _, _, _, rfl, by decide⟩

end WildAgentOs.Tools.ContentLocks
