import WildAgentOs.Memory.TagSearch

/-!
# The L0 store as a map of contents

A store whose entries were all stored with `store`, as its clients see it: a map from IRIs to contents.
The importance of such an entry stays `0.5`, the mean of two of which is `0.5`.

* `Represents`;
* `Represents.store`, `Represents.retrieve`, `Represents.delete`: each operation succeeds, and does to
  the map what its name says;
* `Represents.scan`.
-/

namespace WildAgentOs.Memory.L0Store

open KeyScan List Function AList

variable {env : L0Env} {now : ℤ} {s : L0Store} {contents : String → Option String}

/-- `0.5` -/
def half : F32 := ⟨0x3F000000⟩

/-- The store holds the contents of the map. -/
structure Represents (env : L0Env) (s : L0Store) (contents : String → Option String) : Prop where
  reachable : Reachable env s
  writable : s.writable = true
  content_eq : ∀ iri, (s.entries.lookup iri).map L0Entry.content = contents iri
  importance : ∀ iri entry, s.entries.lookup iri = some entry → entry.importance = half
  not_legacy : ∀ iri, contents iri ≠ none → isLegacyUnscopedToolResultIri iri = false

theorem Represents.new (env : L0Env) : Represents env (new true) fun _ => none where
  reachable := .new true
  writable := rfl
  content_eq _ := rfl
  importance _ _ h := nomatch h
  not_legacy _ h := absurd rfl h

section

variable (h : Represents env s contents)
include h

theorem Represents.finite (iri : String) (entry : L0Entry)
    (hlookup : s.entries.lookup iri = some entry) : entry.importance.isFinite = true := by
  rw [h.importance iri entry hlookup]
  decide

/-- **`store`** sets a content. -/
theorem Represents.store (hmean : env.mean half half = half) {iri : String}
    (hlegacy : isLegacyUnscopedToolResultIri iri = false) (now : ℤ) (content : String) :
    ∃ s', s.store env now iri content = .ok s' ∧ Represents env s' (update contents iri (some content)) := by
  have hok : ∃ s', s.store env now iri content = .ok s' := by
    unfold L0Store.store assertWritable retrieveWithoutUpdate
    rw [if_pos h.writable, hlegacy]
    simp only [Bool.false_eq_true, if_false]
    rw [getEntry_ok _ _ (h.finite iri)]
    exact ⟨_, rfl⟩
  obtain ⟨s', hstore⟩ := hok
  obtain ⟨merged, hs', hmerged⟩ := store_cases hstore
  rw [hlegacy] at hmerged
  simp only [Bool.false_eq_true, if_false] at hmerged
  have hlookup : ∀ iri', s'.entries.lookup iri' = if iri' = iri then some merged else s.entries.lookup iri' := by
    intro iri'
    rw [hs']
    split_ifs with heq
    · rw [heq]
      exact lookup_insert _
    · exact lookup_insert_ne heq
  refine ⟨s', hstore, ⟨.store now iri content h.reachable hstore, ?_, fun iri' => ?_,
    fun iri' entry hentry => ?_, fun iri' hcontent => ?_⟩⟩
  · rw [hs']
    exact h.writable
  · rw [hlookup, update_apply]
    split_ifs
    · rw [hmerged]
      cases s.entries.lookup iri <;> rfl
    · exact h.content_eq iri'
  · rw [hlookup] at hentry
    split_ifs at hentry
    · rw [← Option.some.inj hentry, hmerged]
      cases hold : s.entries.lookup iri with
      | none => rfl
      | some old =>
        show env.mean old.importance half = half
        rw [h.importance iri old hold, hmean]
    · exact h.importance iri' entry hentry
  · rw [update_apply] at hcontent
    split_ifs at hcontent with heq
    · rw [heq]
      exact hlegacy
    · exact h.not_legacy iri' hcontent

/-- **`retrieve`** returns a content, and changes none. -/
theorem Represents.retrieve (hmean : env.mean half half = half)
    (now : ℤ) (iri : String) :
    ∃ found s', s.retrieve env now iri = .ok (found, s') ∧
      found.map L0Entry.content = contents iri ∧ Represents env s' contents := by
  have hindexed := Indexed.of_reachable h.reachable
  by_cases hlegacy : isLegacyUnscopedToolResultIri iri = true
  · refine ⟨none, s, ?_, ?_, h⟩
    · unfold L0Store.retrieve
      rw [if_pos hlegacy]
    · by_contra hsome
      rw [h.not_legacy iri fun hnone => hsome hnone.symm] at hlegacy
      cases hlegacy
  · rw [Bool.not_eq_true] at hlegacy
    cases hold : s.entries.lookup iri with
    | none =>
      refine ⟨none, s, ?_, ?_, h⟩
      · unfold L0Store.retrieve
        rw [if_neg (by simp [hlegacy]), hold]
      · rw [← h.content_eq, hold, Option.map_none]
    | some stored =>
      have hiri := hindexed.iri_eq hold
      obtain ⟨s', hstore, hwritable, hother⟩ := storeEntry_ok env now
        { stored with accessCount := stored.accessCount + 1, lastAccessed := now } h.writable hindexed
        hold (h.finite iri stored hold) hiri hlegacy
      have hretrieve : s.retrieve env now iri = .ok (some
          { stored with accessCount := stored.accessCount + 1, lastAccessed := now }, s') := by
        unfold L0Store.retrieve
        rw [if_neg (by simp [hlegacy]), hold]
        simp only [fromSlice, if_pos (h.finite iri stored hold)]
        show (do
          if s.writable then
            return (some _, ← s.storeEntry env now _)
          else return (some stored, s)) = _
        rw [if_pos h.writable, hstore]
        rfl
      -- The entry is merged with itself.
      have hself : ∃ merged, s'.entries.lookup iri = some merged ∧
          merged.content = stored.content ∧ merged.importance = half := by
        obtain rfl := hiri
        obtain ⟨contentHash, merged, hmerged, rfl⟩ := storeEntry_cases hstore
        rw [hlegacy, hold] at hmerged
        have himportance := h.importance stored.iri stored hold
        refine ⟨merged, ?_, ?_, ?_⟩
        · show (s.entries.insert merged.iri merged).lookup stored.iri = some merged
          rw [show merged.iri = stored.iri by rw [hmerged]; rfl]
          exact lookup_insert _
        · rw [hmerged]
          rfl
        · rw [hmerged]
          show env.mean stored.importance stored.importance = half
          rw [himportance, hmean]
      obtain ⟨merged, hmerged, hcontent, himportance⟩ := hself
      refine ⟨_, s', hretrieve, ?_, .retrieve now iri h.reachable hretrieve, hwritable, fun iri' => ?_,
        fun iri' entry hentry => ?_, h.not_legacy⟩
      · rw [← h.content_eq, hold]
        rfl
      · rw [← h.content_eq]
        by_cases heq : iri' = iri
        · rw [heq, hmerged, hold]
          exact congrArg some hcontent
        · rw [hother iri' heq]
      · by_cases heq : iri' = iri
        · rw [heq, hmerged] at hentry
          rw [← Option.some.inj hentry]
          exact himportance
        · rw [hother iri' heq] at hentry
          exact h.importance iri' entry hentry

/-- **`delete`** takes a content away. -/
theorem Represents.delete (iri : String) :
    ∃ s', s.delete env iri = .ok (true, s') ∧ Represents env s' (update contents iri none) := by
  have hok : ∃ s', s.delete env iri = .ok (true, s') ∧ s'.entries = s.entries.erase iri ∧ s'.writable = s.writable := by
    unfold L0Store.delete assertWritable getEntryTags
    rw [if_pos h.writable, getEntry_ok _ _ (h.finite iri)]
    exact ⟨_, rfl, rfl, rfl⟩
  obtain ⟨s', hdelete, hentries, hwritable⟩ := hok
  have hlookup : ∀ iri', s'.entries.lookup iri' = if iri' = iri then none else s.entries.lookup iri' := by
    intro iri'
    rw [hentries]
    split_ifs with heq
    · rw [heq]
      exact lookup_erase _ _
    · exact lookup_erase_ne heq
  refine ⟨s', hdelete, .delete iri h.reachable hdelete, hwritable.trans h.writable, fun iri' => ?_,
    fun iri' entry hentry => ?_, fun iri' hcontent => ?_⟩
  · rw [hlookup, update_apply]
    split_ifs
    · rfl
    · exact h.content_eq iri'
  · rw [hlookup] at hentry
    split_ifs at hentry
    exact h.importance iri' entry hentry
  · rw [update_apply] at hcontent
    split_ifs at hcontent with heq
    · exact absurd rfl hcontent
    · exact h.not_legacy iri' hcontent

end

/-! ### Scans -/

variable {limit : ℕ}

/-- The loop over rows that can be read. -/
theorem scanRows_eq {pre : String} {rows : List (Σ _ : String, L0Entry)} {results : List L0Entry}
    (hlegacy : ∀ row ∈ rows, isLegacyUnscopedToolResultIri row.1 = false)
    (hread : ∀ row ∈ rows, row.2.importance.isFinite = true) (hlimit : results.length < limit) :
    scanRows env pre limit rows results = .ok (results ++
      ((rows.takeWhile fun row => startsWith pre row.1).take (limit - results.length)).map (·.2)) := by
  induction rows generalizing results with
  | nil => simp [scanRows]
  | cons row rows ih =>
    rw [forall_mem_cons] at hlegacy hread
    unfold scanRows
    by_cases hstarts : startsWith pre row.1 = true
    · rw [if_neg (by simp [hstarts]), if_neg (by simp [hlegacy.1]), takeWhile_cons, if_pos hstarts]
      simp only [fromSlice, if_pos hread.1]
      show (if limit ≤ (results ++ [row.2]).length then Except.ok (results ++ [row.2])
        else scanRows env pre limit rows (results ++ [row.2])) = _
      have hlength : (results ++ [row.2]).length = results.length + 1 := by simp
      have hleft : limit - results.length = (limit - (results.length + 1)) + 1 := by omega
      rw [hleft, take_succ_cons, map_cons]
      split_ifs with hfull
      · rw [hlength] at hfull
        rw [Nat.sub_eq_zero_of_le hfull, take_zero]
        rfl
      · rw [ih hlegacy.2 hread.2 (not_le.1 hfull), hlength]
        simp
    · rw [if_pos (by simpa using hstarts), takeWhile_cons, if_neg hstarts]
      simp

theorem pairwise_sortedRows (s : L0Store) : s.sortedRows.Pairwise fun a b => a.1 < b.1 := by
  have hle : s.sortedRows.Pairwise fun a b => decide (a.1 ≤ b.1) = true := by
    refine pairwise_mergeSort (fun a b c hab hbc => ?_) (fun a b => ?_) _
    · simp only [decide_eq_true_eq] at *
      exact hab.trans hbc
    · simp only [Bool.or_eq_true, decide_eq_true_eq]
      exact le_total a.1 b.1
  have hne : s.sortedRows.Pairwise fun a b => a.1 ≠ b.1 := by
    refine ((mergeSort_perm s.entries.entries _).pairwise_iff fun hab => hab.symm).2 ?_
    exact pairwise_map.1 s.entries.nodupKeys
  refine (hle.and hne).imp fun hab => ?_
  exact lt_of_le_of_ne (of_decide_eq_true hab.1) hab.2

/-- The rank of an IRI among the given ones: those under the prefix that come before it. -/
def scanRank (iris : List String) (pre iri : String) : ℕ :=
  (iris.filter fun iri' => startsWith pre iri' && decide (iri' < iri)).length

/-- **`scan_iri_prefix`** returns the first contents under the prefix. -/
theorem Represents.scan (h : Represents env s contents) {iris : List String} (hnodup : iris.Nodup)
    (hiris : ∀ iri, iri ∈ iris ↔ contents iri ≠ none) (pre : String) (hlimit : 0 < limit) :
    ∃ rows : List (Σ _ : String, L0Entry), s.scanIriPrefix env pre limit = .ok (rows.map (·.2)) ∧
      (rows.map (·.1)).Nodup ∧ (∀ row ∈ rows, contents row.1 = some row.2.content) ∧
      ∀ iri, iri ∈ rows.map (·.1) ↔ iri ∈ iris ∧ startsWith pre iri = true ∧ scanRank iris pre iri < limit := by
  have hsorted := pairwise_sortedRows s
  have hmem : ∀ row, row ∈ s.sortedRows ↔ s.entries.lookup row.1 = some row.2 := by
    intro row
    unfold sortedRows
    rw [mem_mergeSort]
    exact mem_lookup_iff.symm
  have hstored : ∀ row ∈ s.sortedRows, contents row.1 = some row.2.content := by
    intro row hrow
    rw [← h.content_eq, (hmem row).1 hrow]
    rfl
  have hfiltered : (s.sortedRows.filter fun row => startsWith pre row.1).Pairwise
      fun a b => a.1 < b.1 := hsorted.filter _
  -- The keys are the given IRIs.
  have hperm : (s.sortedRows.map (·.1)).Perm iris := by
    refine (perm_ext_iff_of_nodup ?_ hnodup).2 fun iri => ?_
    · exact pairwise_map.2 (hsorted.imp fun hlt => ne_of_lt hlt)
    · rw [hiris, ← h.content_eq, mem_map]
      constructor
      · rintro ⟨row, hrow, rfl⟩
        rw [(hmem row).1 hrow]
        simp
      · intro hcontent
        have hsome : s.entries.lookup iri ≠ none := fun hnone => hcontent (by rw [hnone]; rfl)
        obtain ⟨entry, hentry⟩ := Option.ne_none_iff_exists'.1 hsome
        exact ⟨⟨iri, entry⟩, (hmem _).2 hentry, rfl⟩
  have hrank : ∀ iri, ((s.sortedRows.filter fun row => startsWith pre row.1).filter
      fun other => decide (other.1 < iri)).length = scanRank iris pre iri := by
    intro iri
    unfold scanRank
    rw [← (hperm.filter _).length_eq, filter_map, length_map, filter_filter]
    congr 1
    refine filter_congr fun row _ => ?_
    rw [Bool.and_comm]
    rfl
  refine ⟨(s.sortedRows.filter fun row => startsWith pre row.1).take limit, ?_, ?_, ?_, fun iri => ?_⟩
  · unfold scanIriPrefix
    rw [scanRows_eq ?_ ?_ hlimit, nil_append, stringScan pre hsorted]
    · rfl
    · intro row hrow
      refine h.not_legacy row.1 ?_
      rw [hstored row (dropWhile_subset _ hrow)]
      exact Option.some_ne_none _
    · intro row hrow
      exact h.finite row.1 row.2 ((hmem row).1 (dropWhile_subset _ hrow))
  · exact pairwise_map.2 ((hfiltered.sublist (take_sublist _ _)).imp fun hlt => ne_of_lt hlt)
  · exact fun row hrow => hstored row (mem_filter.1 (mem_of_mem_take hrow)).1
  · rw [mem_map]
    simp only [mem_take_iff hfiltered, hrank, mem_filter]
    rw [← hperm.mem_iff, mem_map]
    constructor
    · rintro ⟨row, ⟨⟨hrow, hstarts⟩, hcount⟩, rfl⟩
      exact ⟨⟨row, hrow, rfl⟩, hstarts, hcount⟩
    · rintro ⟨⟨row, hrow, rfl⟩, hstarts, hcount⟩
      exact ⟨row, ⟨⟨hrow, hstarts⟩, hcount⟩, rfl⟩

/-! ### Runs -/

inductive MapOp
  | store (iri content : String)
  | retrieve (iri : String)
  | delete (iri : String)

def MapOp.call (env : L0Env) (now : ℤ) (s : L0Store) : MapOp → Except CoreError L0Store
  | store iri content => s.store env now iri content
  | retrieve iri => (·.2) <$> s.retrieve env now iri
  | delete iri => (·.2) <$> s.delete env iri

/-- The same on a map. -/
def MapOp.onMap (contents : String → Option String) : MapOp → String → Option String
  | store iri content => update contents iri (some content)
  | retrieve _ => contents
  | delete iri => update contents iri none

/-- **A run on a new store** succeeds, and leaves what it leaves of a map. -/
theorem represents_run (hmean : env.mean half half = half) {ops : List (ℤ × MapOp)}
    (hplain : ∀ now iri content, (now, .store iri content) ∈ ops → isLegacyUnscopedToolResultIri iri = false) :
    ∃ s, ops.foldlM (fun s op => op.2.call env op.1 s) (new true) = .ok s ∧
      Represents env s (ops.foldl (fun contents op => op.2.onMap contents) fun _ => none) := by
  induction ops using reverseRecOn with
  | nil => exact ⟨_, rfl, .new env⟩
  | append_singleton ops op ih =>
    obtain ⟨s, hrun, h⟩ := ih fun now iri content hop => hplain now iri content (mem_append_left _ hop)
    obtain ⟨now, op⟩ := op
    simp only [foldlM_append, foldl_append, hrun, foldlM_cons, foldlM_nil, foldl_cons, foldl_nil]
    cases op with
    | store iri content =>
      obtain ⟨s', hcall, h'⟩ := h.store hmean (hplain now iri content mem_concat_self) now content
      exact ⟨s', by simp [MapOp.call, hcall, bind, Except.bind, pure, Except.pure], h'⟩
    | retrieve iri =>
      obtain ⟨found, s', hcall, -, h'⟩ := h.retrieve hmean now iri
      exact ⟨s', by simp [MapOp.call, hcall, bind, Except.bind, pure, Except.pure], h'⟩
    | delete iri =>
      obtain ⟨s', hcall, h'⟩ := h.delete iri
      exact ⟨s', by simp [MapOp.call, hcall, bind, Except.bind, pure, Except.pure], h'⟩

theorem represents_run_one : ∃ s, [(0, MapOp.store "a" "b")].foldlM (fun s op => op.2.call sampleEnv op.1 s)
    (new true) =
      .ok s ∧ Represents sampleEnv s (update (fun _ => none) "a" (some "b")) :=
  represents_run rfl fun _ _ _ h => by
    cases mem_singleton.1 h
    decide +kernel

end WildAgentOs.Memory.L0Store
