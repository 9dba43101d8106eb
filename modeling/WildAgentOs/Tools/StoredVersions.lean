import Mathlib
import WildAgentOs.Tools.ContentStore

/-!
# The versions of a file

What the version store keeps of the readings of the content store.  The number of a version comes from an index that
is lost when the store is cleared and when the process ends, so it can be given a second time.

* `versionKey_inj`: every version of every path has a key of its own;
* `Versions`: what a history promises about the versions that it returned;
* `Keeps`, `versions_of_keeps`.
-/

namespace WildAgentOs.Tools

open List

theorem versionKey_inj {path path' : String} {version version' : ℕ}
    (h : versionKey path version = versionKey path' version') : path = path' ∧ version = version' := by
  have hlist := congrArg String.toList h
  simp only [versionKey, Nat.toString_eq_repr, String.toList_append, Nat.toList_repr, append_assoc] at hlist
  have hcolon : ∀ n : ℕ, 'v' ∉ Nat.toDigits 10 n := fun n hmem =>
    absurd (Nat.isDigit_of_mem_toDigits (by decide) (by decide) hmem) (by decide)
  have hsplit : ∀ (path : String) (digits : List Char), "version:".toList ++ (path.toList ++ (":v".toList ++ digits)) =
      ("version:".toList ++ path.toList ++ [':']) ++ 'v' :: digits := fun path digits => by
    simp [append_assoc]
  rw [hsplit, hsplit] at hlist
  obtain ⟨hfront, hback⟩ := Text.eq_of_append_cons_last hlist (hcolon version) (hcolon version')
  rw [append_cancel_right_eq, append_cancel_left_eq] at hfront
  refine ⟨String.toList_inj.1 hfront, Nat.repr_inj.1 (String.toList_inj.1 ?_)⟩
  rw [Nat.toList_repr, Nat.toList_repr, hback]

namespace ContentStore

variable {store : ContentStore} {path content : String} {version : ℕ}

/-- A write to the version store leaves the other versions. -/
theorem getVersionContent_storeVersion (stores : Bool) (path' : String) (version' : ℕ) :
    (store.storeVersion path content version stores).getVersionContent path' version' =
      if stores = true ∧ store.versionStore.isSome ∧ path' = path ∧ version' = version then some content
      else store.getVersionContent path' version' := by
  unfold getVersionContent storeVersion
  cases store.versionStore with
  | none => simp
  | some table =>
    simp only [Option.map_some, Option.bind_some, Option.isSome_some, true_and]
    cases stores with
    | false => simp
    | true =>
      simp only [if_true, true_and]
      split_ifs with hsame
      · rw [hsame.1, hsame.2, Function.update_self]
      · exact Function.update_of_ne (fun hkey => hsame (versionKey_inj hkey)) _ _

end ContentStore

namespace ContentRun

/-- **The versions of a history**: the version store has the content of every reading that came with a new version, the
versions of a path never decrease, and readings of one version have the same lines. -/
structure Versions (σ : ContentRun) : Prop where
  stored : ∀ reading ∈ σ.readings, reading.result.fromCache = false →
    σ.store.getVersionContent reading.result.path reading.result.version = some reading.content
  mono : σ.readings.Pairwise fun later earlier => later.result.path = earlier.result.path →
    earlier.result.version ≤ later.result.version
  same : ∀ reading ∈ σ.readings, ∀ other ∈ σ.readings, reading.result.path = other.result.path →
    reading.result.version = other.result.version → reading.result.lines = other.result.lines

/-- A step that keeps what is stored: if it gives a new version, then its write is taken, and the number is above those
that the version store has for the path. -/
def Keeps (env : ContentEnv) (σ : ContentRun) : Op → Prop
  | .read path mode (some file) stores =>
    (∃ cached, σ.store.linesCache.peek path = some cached ∧ ContentStore.IsCurrent env mode file cached) ∨
      stores = true ∧ σ.store.versionStore.isSome ∧
        ∀ version, σ.store.getVersionContent path version ≠ none → version ≤ σ.store.getVersion path
  | _ => True

/-- Every step of a history keeps what is stored. -/
def AllKeep (env : ContentEnv) (σ : ContentRun) : List Op → Prop
  | [] => True
  | op :: ops => Keeps env σ op ∧ AllKeep env (step env σ op) ops

/-- What a kept history is like: every reading has the version and the lines of one that was stored. -/
structure Kept (σ : ContentRun) : Prop extends Versions σ where
  origin : ∀ reading ∈ σ.readings, ∃ first ∈ σ.readings, first.result.fromCache = false ∧
    first.result.path = reading.result.path ∧ first.result.version = reading.result.version
  cacheIsLast : CacheIsLast σ

variable {env : ContentEnv} {σ : ContentRun} {path : String} {mode : ReadMode} {file : DiskFile} {stores : Bool}

theorem kept_start (cacheCapacity : ℕ) (db : Option VersionTable) : Kept (start cacheCapacity db) where
  stored := fun _ h => absurd h not_mem_nil
  mono := List.Pairwise.nil
  same := fun _ h => absurd h not_mem_nil
  origin := fun _ h => absurd h not_mem_nil
  cacheIsLast := cacheIsLast_start cacheCapacity db

/-- A step that reads nothing and leaves the version store. -/
theorem Kept.of_readings_eq (h : Kept σ) {σ' : ContentRun} (hreadings : σ'.readings = σ.readings)
    (hstore : σ'.store.versionStore = σ.store.versionStore) (hcache : CacheIsLast σ') : Kept σ' where
  stored := by
    unfold ContentStore.getVersionContent
    rw [hreadings, hstore]
    exact h.stored
  mono := hreadings ▸ h.mono
  same := hreadings ▸ h.same
  origin := hreadings ▸ h.origin
  cacheIsLast := hcache

/-- A version that was returned is stored. -/
theorem Kept.isStored (h : Kept σ) {reading : Reading} (hmem : reading ∈ σ.readings) :
    σ.store.getVersionContent reading.result.path reading.result.version ≠ none := by
  obtain ⟨first, hfirst, hfresh, hpath, hversion⟩ := h.origin reading hmem
  rw [← hpath, ← hversion, h.stored first hfirst hfresh]
  exact Option.some_ne_none _

/-- The last read of a path has its largest version. -/
theorem Kept.le_lastRead (h : Kept σ) {last reading : Reading} (hlast : σ.lastRead path = some last)
    (hmem : reading ∈ σ.readings) (hpath : reading.result.path = path) :
    reading.result.version ≤ last.result.version := by
  obtain ⟨hlastPath, before, after, hsplit, hbefore⟩ := find?_eq_some_iff_append.1 hlast
  rw [decide_eq_true_eq] at hlastPath
  have hmono := h.mono
  rw [hsplit] at hmem hmono
  rcases mem_append.1 hmem with hbad | hmem
  · simpa [hpath] using hbefore reading hbad
  · rcases mem_cons.1 hmem with rfl | hafter
    · exact le_rfl
    · exact rel_of_pairwise_cons (pairwise_append.1 hmono).2.1 hafter (hlastPath.trans hpath.symm)

variable {out : ReadResult × ContentStore}

/-- A read from the cache returns the version and the lines of the last one. -/
theorem Kept.served (h : Kept σ) {cached : CachedContent}
    (hserved : ContentStore.Served env σ.store path mode file cached out)
    (hcache : CacheIsLast ⟨out.2, ⟨file.content, out.1⟩ :: σ.readings⟩) :
    Kept ⟨out.2, ⟨file.content, out.1⟩ :: σ.readings⟩ := by
  obtain ⟨last, hlast, hlastPath, hlines, hversion⟩ := h.cacheIsLast path cached hserved.peek
  have hmemLast : last ∈ σ.readings := mem_of_find?_eq_some hlast
  have hpath : out.1.path = path := by rw [hserved.result]; rfl
  have houtLines : out.1.lines = last.result.lines := by rw [hserved.result]; exact hlines.symm
  have houtVersion : out.1.version = last.result.version := by rw [hserved.result]; exact hversion.symm
  have hsame : ∀ other ∈ σ.readings, other.result.path = path → other.result.version = out.1.version →
      out.1.lines = other.result.lines := fun other hother hotherPath hotherVersion =>
    houtLines.trans (h.same last hmemLast other hother (hlastPath.trans hotherPath.symm)
      (houtVersion.symm.trans hotherVersion.symm))
  refine ⟨⟨fun reading hreading hfresh => ?_, pairwise_cons.2 ⟨fun earlier hearlier heq => ?_, h.mono⟩,
    fun reading hreading other hother heq hversions => ?_⟩, fun reading hreading => ?_, hcache⟩
  · unfold ContentStore.getVersionContent
    rw [hserved.versionStore]
    rcases mem_cons.1 hreading with rfl | hold
    · rw [hserved.result] at hfresh
      cases hfresh
    · exact h.stored reading hold hfresh
  · rw [houtVersion]
    exact h.le_lastRead hlast hearlier (heq.symm.trans hpath)
  · rcases mem_cons.1 hreading with rfl | hreading <;> rcases mem_cons.1 hother with rfl | hother
    · rfl
    · exact hsame other hother (heq.symm.trans hpath) hversions.symm
    · exact (hsame reading hreading (heq.trans hpath) hversions).symm
    · exact h.same reading hreading other hother heq hversions
  · have hfirst : ∀ reading ∈ σ.readings, ∃ first ∈ (⟨file.content, out.1⟩ : Reading) :: σ.readings,
        first.result.fromCache = false ∧ first.result.path = reading.result.path ∧
          first.result.version = reading.result.version := fun reading hreading => by
      obtain ⟨first, hfirst, hfresh⟩ := h.origin reading hreading
      exact ⟨first, mem_cons_of_mem _ hfirst, hfresh⟩
    rcases mem_cons.1 hreading with rfl | hold
    · obtain ⟨first, hmem, hfresh, hfirstPath, hfirstVersion⟩ := hfirst last hmemLast
      exact ⟨first, hmem, hfresh, hfirstPath.trans (hlastPath.trans hpath.symm), hfirstVersion.trans houtVersion.symm⟩
    · exact hfirst reading hold

/-- A read that gives a new version, above those that are stored. -/
theorem Kept.given (h : Kept σ) (hgiven : ContentStore.Given env σ.store path mode file stores out)
    (hstores : stores = true) (hdb : σ.store.versionStore.isSome)
    (habove : ∀ version, σ.store.getVersionContent path version ≠ none → version ≤ σ.store.getVersion path)
    (hcache : CacheIsLast ⟨out.2, ⟨file.content, out.1⟩ :: σ.readings⟩) :
    Kept ⟨out.2, ⟨file.content, out.1⟩ :: σ.readings⟩ := by
  have hnew : ∀ reading ∈ σ.readings, reading.result.path = path → reading.result.version < out.1.version := by
    intro reading hreading hpath
    rw [hgiven.version]
    exact Nat.lt_succ_of_le (habove _ (hpath ▸ h.isStored hreading))
  have hcontent : ∀ path' version', out.2.getVersionContent path' version' =
      if path' = path ∧ version' = out.1.version then some file.content
      else σ.store.getVersionContent path' version' := by
    intro path' version'
    have hwrite := @ContentStore.getVersionContent_storeVersion σ.store path file.content
      (σ.store.getVersion path + 1) stores path' version'
    rw [hgiven.version]
    unfold ContentStore.getVersionContent at hwrite ⊢
    rw [hgiven.versionStore, hwrite]
    simp only [hstores, hdb, true_and]
  refine ⟨⟨fun reading hreading hfresh => ?_, pairwise_cons.2 ⟨fun earlier hearlier heq => ?_, h.mono⟩,
    fun reading hreading other hother heq hversions => ?_⟩, fun reading hreading => ?_, hcache⟩
  · show out.2.getVersionContent _ _ = _
    rw [hcontent]
    rcases mem_cons.1 hreading with rfl | hold
    · exact if_pos ⟨hgiven.result_path, rfl⟩
    · rw [if_neg fun hsame => (hnew reading hold hsame.1).ne hsame.2]
      exact h.stored reading hold hfresh
  · exact (hnew earlier hearlier (heq.symm.trans hgiven.result_path)).le
  · rcases mem_cons.1 hreading with rfl | hreading <;> rcases mem_cons.1 hother with rfl | hother
    · rfl
    · exact absurd hversions.symm (hnew other hother (heq.symm.trans hgiven.result_path)).ne
    · exact absurd hversions (hnew reading hreading (heq.trans hgiven.result_path)).ne
    · exact h.same reading hreading other hother heq hversions
  · rcases mem_cons.1 hreading with rfl | hold
    · exact ⟨_, mem_cons_self, hgiven.fromCache, rfl, rfl⟩
    · obtain ⟨first, hfirst, hfresh⟩ := h.origin reading hold
      exact ⟨first, mem_cons_of_mem _ hfirst, hfresh⟩

theorem Kept.step (h : Kept σ) {op : Op} (hkeeps : Keeps env σ op) : Kept (step env σ op) := by
  have hcache : CacheIsLast (ContentRun.step env σ op) := h.cacheIsLast.step op
  cases op with
  | read path mode disk stores =>
    cases disk with
    | none => exact h
    | some file =>
      rcases ContentStore.readDisk_cases env σ.store path mode file stores with ⟨cached, hserved⟩ | hgiven
      · exact h.served hserved hcache
      · rcases hkeeps with ⟨cached, hpeek, hcurrent⟩ | ⟨hstores, hdb, habove⟩
        · exact absurd hcurrent (hgiven.not_current cached hpeek)
        · exact h.given hgiven hstores hdb habove hcache
  | invalidate path => exact h.of_readings_eq rfl rfl hcache
  | tryGetCached path => exact h.of_readings_eq rfl rfl hcache
  | clear => exact h.of_readings_eq rfl rfl hcache
  | restart cacheCapacity => exact h.of_readings_eq rfl rfl hcache

theorem Kept.run (h : Kept σ) {ops : List Op} (hkeeps : AllKeep env σ ops) : Kept (run env σ ops) := by
  induction ops generalizing σ with
  | nil => exact h
  | cons op ops ih => exact ih (h.step hkeeps.1) hkeeps.2

/-- **A stored version never changes**, in every history, over any version store and with any restarts, whose steps
give no number a second time and whose writes are taken. -/
theorem versions_of_keeps {cacheCapacity : ℕ} {db : Option VersionTable} {ops : List Op}
    (h : AllKeep env (start cacheCapacity db) ops) : Versions (run env (start cacheCapacity db) ops) :=
  ((kept_start cacheCapacity db).run h).toVersions

/-- A file is read, is touched without a change, and is read again. -/
theorem versions_of_touchedFile : Versions (run sampleEnv (start 100 (some fun _ => none))
    [.read "notes" .full (some ⟨"a", 5⟩) true, .read "notes" .diff (some ⟨"a", 7⟩) true]) :=
  versions_of_keeps ⟨.inr ⟨rfl, rfl, fun _ h => absurd rfl h⟩, .inl ⟨_, rfl, nofun, .inr rfl⟩, trivial⟩

/-- After the store is cleared, the first version of a file is written a second time, with other content. -/
theorem not_versions_cleared : ¬Versions (run sampleEnv (start 100 (some fun _ => none))
    [.read "notes" .full (some ⟨"a", 5⟩) true, .clear, .read "notes" .full (some ⟨"b", 7⟩) true]) := by
  intro h
  exact absurd (h.stored _ (mem_cons_of_mem _ mem_cons_self) rfl) (by decide +kernel)

end ContentRun

end WildAgentOs.Tools
