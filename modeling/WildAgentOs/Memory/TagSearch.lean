import WildAgentOs.Lib.Result
import WildAgentOs.Lib.RunningMeet
import WildAgentOs.Memory.L0Store

/-!
# Search by tags

In every state the lists of the tag index hold exactly the carriers of their tags, legacy IRIs
apart.  The scan of the table therefore finds the entries that carry all tags.  The search over the
index intersects the lists of the tags one after the other, but takes an empty list of candidates
for none seen yet, and so starts over behind tags that have no common carrier.

* `Indexed`, `IsAnswer`;
* `StartsOver`: what goes wrong; `searchExact_iff`: nothing else does.
-/

namespace WildAgentOs.Memory

open RunningMeet List AList Except IriIndex

/-! ### Index tables -/

namespace IriIndex

variable {table : IriIndex} {key iri : String}

/-- The list under a key; a key that is not there has none. -/
def iris (table : IriIndex) (key : String) : List String := (table.lookup key).getD []

/-- Lists are not empty and name no IRI twice. -/
def Proper (table : IriIndex) : Prop := ∀ key iris, table.lookup key = some iris → iris ≠ [] ∧ iris.Nodup

theorem lookup_addIri (key' : String) : (table.addIri key iri).lookup key' =
    if key' = key then some (if iri ∈ table.iris key then table.iris key
      else table.iris key ++ [iri]) else table.lookup key' := by
  unfold addIri iris
  by_cases h : key' = key
  · rw [if_pos h, h]
    exact lookup_insert table
  · rw [if_neg h]
    exact lookup_insert_ne h

variable {key' iri' : String}

theorem mem_iris_addIri : iri' ∈ (table.addIri key iri).iris key' ↔
    (key' = key ∧ iri' = iri) ∨ iri' ∈ table.iris key' := by
  unfold iris
  rw [lookup_addIri]
  unfold iris
  by_cases h : key' = key
  · subst h
    rw [if_pos rfl, Option.getD_some]
    split_ifs with hiri
    · constructor
      · exact .inr
      · rintro (⟨-, rfl⟩ | h)
        · exact hiri
        · exact h
    · simp [or_comm]
  · rw [if_neg h]
    simp [h]

theorem Proper.addIri (h : table.Proper) (key iri : String) : (table.addIri key iri).Proper := by
  intro key' iris hlookup
  rw [lookup_addIri] at hlookup
  by_cases hkey : key' = key
  · rw [if_pos hkey] at hlookup
    cases hlookup
    have hnodup : (table.iris key).Nodup := by
      unfold iris
      cases hold : table.lookup key with
      | none => exact nodup_nil
      | some old => exact (h key old hold).2
    split_ifs with hiri
    · exact ⟨ne_nil_of_mem hiri, hnodup⟩
    · refine ⟨by simp, ?_⟩
      exact nodup_append.2 ⟨hnodup, nodup_singleton _, by
        rintro a ha b hb rfl
        exact hiri (mem_singleton.1 hb ▸ ha)⟩
  · rw [if_neg hkey] at hlookup
    exact h key' iris hlookup

theorem lookup_removeIri_ne {key' : String} (h : key' ≠ key) :
    (table.removeIri key iri).lookup key' = table.lookup key' := by
  unfold removeIri
  cases table.lookup key with
  | none => rfl
  | some iris =>
    simp only
    split_ifs
    · exact lookup_erase_ne h
    · exact lookup_insert_ne h

theorem iris_removeIri_self : (table.removeIri key iri).iris key = (table.iris key).filter (· ≠ iri) := by
  unfold removeIri iris
  cases hkey : table.lookup key with
  | none =>
    simp only [hkey]
    rfl
  | some iris =>
    simp only [Option.getD_some]
    split_ifs with hempty
    · rw [lookup_erase, hempty]
      rfl
    · rw [lookup_insert]
      rfl

theorem mem_iris_removeIri : iri' ∈ (table.removeIri key iri).iris key' ↔
    iri' ∈ table.iris key' ∧ ¬ (key' = key ∧ iri' = iri) := by
  by_cases h : key' = key
  · subst h
    rw [iris_removeIri_self, mem_filter]
    simp
  · unfold iris
    rw [lookup_removeIri_ne h]
    simp [h]

theorem Proper.removeIri (h : table.Proper) (key iri : String) : (table.removeIri key iri).Proper := by
  intro key' iris' hlookup
  by_cases hkey : key' = key
  · subst hkey
    unfold IriIndex.removeIri at hlookup
    cases hold : table.lookup key' with
    | none =>
      rw [hold] at hlookup
      simp only [hold] at hlookup
      cases hlookup
    | some old =>
      rw [hold] at hlookup
      simp only at hlookup
      split_ifs at hlookup with hempty
      · rw [lookup_erase] at hlookup
        cases hlookup
      · rw [lookup_insert] at hlookup
        cases hlookup
        exact ⟨hempty, (h key' old hold).2.filter _⟩
  · rw [lookup_removeIri_ne hkey] at hlookup
    exact h key' iris' hlookup

/-- A key is there exactly if its list is not empty. -/
theorem Proper.lookup_eq (h : table.Proper) (key : String) :
    table.lookup key = if table.iris key = [] then none else some (table.iris key) := by
  unfold iris
  cases hkey : table.lookup key with
  | none => rfl
  | some iris => rw [Option.getD_some, if_neg (h key iris hkey).1]

end IriIndex

namespace L0Store

variable {env : L0Env} {now : ℤ} {s s' : L0Store} {table : IriIndex}

theorem tagKey_injective : Function.Injective tagKey := by
  intro a b h
  unfold tagKey at h
  have hlist := congrArg String.toList h
  rw [String.toList_append, String.toList_append] at hlist
  exact String.toList_inj.1 (append_cancel_left hlist)

variable {iri : String} {iri' key : String}

/-- An IRI leaves the lists of several tags. -/
theorem mem_iris_removeTags (tags : List String) :
    iri' ∈ (tags.foldl (fun table tag => removeIri table (tagKey tag) iri) table).iris key ↔
      iri' ∈ table.iris key ∧ ¬ (iri' = iri ∧ ∃ tag ∈ tags, key = tagKey tag) := by
  induction tags generalizing table with
  | nil => simp
  | cons tag tags ih =>
    rw [foldl_cons, ih, mem_iris_removeIri]
    simp only [mem_cons, exists_eq_or_imp]
    generalize (∃ tag ∈ tags, key = tagKey tag) = other
    tauto

/-- An IRI enters the lists of several tags. -/
theorem mem_iris_addTags (tags : List String) :
    iri' ∈ (tags.foldl (fun table tag => addIri table (tagKey tag) iri) table).iris key ↔
      (iri' = iri ∧ ∃ tag ∈ tags, key = tagKey tag) ∨ iri' ∈ table.iris key := by
  induction tags generalizing table with
  | nil => simp
  | cons tag tags ih =>
    rw [foldl_cons, ih, mem_iris_addIri]
    simp only [mem_cons, exists_eq_or_imp]
    generalize (∃ tag ∈ tags, key = tagKey tag) = other
    tauto

theorem proper_removeTags (h : table.Proper) (iri : String) (tags : List String) :
    (tags.foldl (fun table tag => removeIri table (tagKey tag) iri) table).Proper := by
  induction tags generalizing table with
  | nil => exact h
  | cons tag tags ih => exact ih (h.removeIri (tagKey tag) iri)

theorem proper_addTags (h : table.Proper) (iri : String) (tags : List String) :
    (tags.foldl (fun table tag => addIri table (tagKey tag) iri) table).Proper := by
  induction tags generalizing table with
  | nil => exact h
  | cons tag tags ih => exact ih (h.addIri (tagKey tag) iri)

/-- The IRIs in the list of a tag. -/
def posting (s : L0Store) (tag : String) : List String := s.tagIndex.iris (tagKey tag)

/-- **The invariant**: entries lie under their IRIs, and, legacy IRIs apart, the list of a tag
holds its carriers. -/
structure Indexed (s : L0Store) : Prop where
  iri_eq : ∀ {iri entry}, s.entries.lookup iri = some entry → entry.iri = iri
  posting_iff : ∀ {iri}, isLegacyUnscopedToolResultIri iri = false → ∀ tag,
    iri ∈ s.posting tag ↔ ∃ entry, s.entries.lookup iri = some entry ∧ tag ∈ entry.tags
  proper : s.tagIndex.Proper

/-! ### Operations -/

variable {α : Type}

theorem getEntry_eq {field : L0Entry → α} {default value : α}
    (h : s.getEntry env iri field default = .ok value) : value = ((s.entries.lookup iri).map field).getD default := by
  unfold getEntry at h
  cases hlookup : s.entries.lookup iri with
  | none =>
    rw [hlookup] at h
    exact (ok.inj h).symm
  | some stored =>
    rw [hlookup] at h
    unfold fromSlice at h
    simp only at h
    split_ifs at h
    · exact (ok.inj h).symm
    · cases h

/-- A readable entry, or none, can be read. -/
theorem getEntry_ok (field : L0Entry → α) (default : α)
    (h : ∀ entry, s.entries.lookup iri = some entry → entry.importance.isFinite = true) :
    s.getEntry env iri field default = .ok (((s.entries.lookup iri).map field).getD default) := by
  unfold getEntry
  cases hlookup : s.entries.lookup iri with
  | none => rfl
  | some stored =>
    unfold fromSlice
    simp only
    rw [if_pos (h stored hlookup)]
    rfl

variable {existing : Option L0Entry}

theorem retrieveWithoutUpdate_eq (h : s.retrieveWithoutUpdate env iri = .ok existing) :
    existing = if isLegacyUnscopedToolResultIri iri then none else s.entries.lookup iri := by
  unfold retrieveWithoutUpdate at h
  split_ifs at h ⊢ with hlegacy
  · exact (ok.inj h).symm
  · rw [getEntry_eq h]
    cases s.entries.lookup iri <;> rfl

theorem mem_mergeLists {xs ys : List String} {x : String} : x ∈ mergeLists xs ys ↔ x ∈ xs ∨ x ∈ ys := by
  unfold mergeLists
  induction ys generalizing xs with
  | nil => simp
  | cons y ys ih =>
    rw [foldl_cons, ih]
    split_ifs with hy
    · simp only [mem_cons]
      constructor
      · rintro (h | h)
        · exact .inl h
        · exact .inr (.inr h)
      · rintro (h | rfl | h)
        · exact .inl h
        · exact .inl hy
        · exact .inr h
    · simp only [mem_append, mem_cons, or_assoc]
      simp

variable {content : String}

/-- What `store` writes. -/
theorem store_cases (h : s.store env now iri content = .ok s') :
    ∃ entry, s' = { s with entries := s.entries.insert iri entry } ∧
      entry = mergedEntry env now
        (if isLegacyUnscopedToolResultIri iri then none else s.entries.lookup iri)
        (plainEntry env now iri content) := by
  unfold store at h
  obtain ⟨-, -, h⟩ := bind_eq_ok_iff.1 h
  obtain ⟨existing, hexisting, h⟩ := bind_eq_ok_iff.1 h
  cases h
  exact ⟨_, rfl, by rw [← retrieveWithoutUpdate_eq hexisting]⟩

variable {entry : L0Entry}

/-- What `store_entry` writes. -/
theorem storeEntry_cases (h : s.storeEntry env now entry = .ok s') : ∃ contentHash merged, merged = mergedEntry env now
        (if isLegacyUnscopedToolResultIri entry.iri then none else s.entries.lookup entry.iri)
        { entry with contentHash } ∧
      s' = { s with
        tagIndex := updateTagIndex s.tagIndex merged.iri
          (((s.entries.lookup entry.iri).map L0Entry.tags).getD []) merged.tags
        namedGraphs := updateNamedGraphs s.namedGraphs merged.iri
          (((s.entries.lookup entry.iri).map L0Entry.namedGraph).getD none) merged.namedGraph
        entries := s.entries.insert merged.iri merged } := by
  unfold storeEntry at h
  obtain ⟨-, -, h⟩ := bind_eq_ok_iff.1 h
  obtain ⟨oldTags, htags, h⟩ := bind_eq_ok_iff.1 h
  obtain ⟨oldNamedGraph, hgraph, h⟩ := bind_eq_ok_iff.1 h
  obtain ⟨existing, hexisting, h⟩ := bind_eq_ok_iff.1 h
  cases h
  rw [getEntry_eq htags, getEntry_eq hgraph]
  exact ⟨_, _, by rw [← retrieveWithoutUpdate_eq hexisting], rfl⟩

theorem mergedEntry_iri (env : L0Env) (now : ℤ)
    (h : ∀ e, existing = some e → e.iri = entry.iri) : (mergedEntry env now existing entry).iri = entry.iri := by
  cases existing with
  | none => rfl
  | some e => exact h e rfl

theorem mem_mergedEntry_tags {tag : String} :
    tag ∈ (mergedEntry env now existing entry).tags ↔ (∃ e, existing = some e ∧ tag ∈ e.tags) ∨ tag ∈ entry.tags := by
  cases existing with
  | none => simp [mergedEntry]
  | some e =>
    show tag ∈ mergeLists e.tags entry.tags ↔ _
    simp [mem_mergeLists]

/-- What is merged with lies under the same IRI. -/
theorem Indexed.existing_iri (h : s.Indexed) (e : L0Entry)
    (he : (if isLegacyUnscopedToolResultIri iri then none else s.entries.lookup iri) = some e) : e.iri = iri := by
  split_ifs at he
  exact h.iri_eq he

theorem Indexed.new (writable : Bool) : (L0Store.new writable).Indexed where
  iri_eq := by
    intro iri entry h
    cases h
  posting_iff := by
    intro iri _ tag
    constructor
    · intro h
      cases h
    · rintro ⟨entry, h, -⟩
      cases h
  proper := by
    intro key iris h
    cases h

theorem Indexed.store (h : s.Indexed) (hstore : s.store env now iri content = .ok s') : s'.Indexed := by
  obtain ⟨entry, rfl, rfl⟩ := store_cases hstore
  have hiri : (mergedEntry env now _ (plainEntry env now iri content)).iri = iri :=
    mergedEntry_iri env now h.existing_iri
  refine ⟨?_, ?_, h.proper⟩
  · intro key e hlookup
    by_cases hkey : key = iri
    · rw [hkey, lookup_insert] at hlookup
      rw [← Option.some.inj hlookup, hkey]
      exact hiri
    · rw [lookup_insert_ne hkey] at hlookup
      exact h.iri_eq hlookup
  · intro key hlegacy tag
    refine (h.posting_iff hlegacy tag).trans ?_
    by_cases hkey : key = iri
    · -- The tags are those of the entry that was there.
      subst hkey
      simp only [lookup_insert, Option.some.injEq, exists_eq_left', mem_mergedEntry_tags, hlegacy]
      simp [plainEntry]
    · simp only [lookup_insert_ne hkey]

theorem Indexed.storeEntry (h : s.Indexed) (hstore : s.storeEntry env now entry = .ok s') : s'.Indexed := by
  obtain ⟨contentHash, merged, hmerged, rfl⟩ := storeEntry_cases hstore
  have hiri : merged.iri = entry.iri := by
    rw [hmerged]
    have hexisting : ∀ e : L0Entry, _ = some e → e.iri = { entry with contentHash }.iri := h.existing_iri
    exact mergedEntry_iri env now hexisting
  unfold updateTagIndex
  refine ⟨?_, ?_, proper_addTags (proper_removeTags h.proper _ _) _ _⟩
  · intro key e hlookup
    by_cases hkey : key = merged.iri
    · rw [hkey, lookup_insert] at hlookup
      rw [← Option.some.inj hlookup, hkey]
    · rw [lookup_insert_ne hkey] at hlookup
      exact h.iri_eq hlookup
  · intro key hlegacy tag
    show key ∈ iris _ (tagKey tag) ↔ _
    rw [mem_iris_addTags, mem_iris_removeTags]
    simp only [tagKey_injective.eq_iff, exists_eq_right']
    have hold : key ∈ s.tagIndex.iris (tagKey tag) ↔ _ := h.posting_iff hlegacy tag
    rw [hold]
    by_cases hkey : key = merged.iri
    · -- The IRI leaves the lists of its old tags, which are all that held it.
      rw [hkey, hiri] at *
      simp only [lookup_insert, Option.some.injEq, exists_eq_left']
      cases hlookup : s.entries.lookup entry.iri with
      | none => simp
      | some e => simp
    · simp only [lookup_insert_ne hkey]
      simp [hkey]

theorem Indexed.delete (h : s.Indexed) {removed : Bool}
    (hdelete : s.delete env iri = .ok (removed, s')) : s'.Indexed := by
  unfold L0Store.delete at hdelete
  obtain ⟨-, -, hdelete⟩ := bind_eq_ok_iff.1 hdelete
  obtain ⟨oldTags, htags, hdelete⟩ := bind_eq_ok_iff.1 hdelete
  obtain ⟨-, rfl⟩ := Prod.mk.inj (ok.inj hdelete)
  rw [getEntry_eq htags]
  refine ⟨?_, ?_, proper_removeTags h.proper _ _⟩
  · intro key e hlookup
    by_cases hkey : key = iri
    · rw [hkey, lookup_erase] at hlookup
      cases hlookup
    · rw [lookup_erase_ne hkey] at hlookup
      exact h.iri_eq hlookup
  · intro key hlegacy tag
    show key ∈ iris _ (tagKey tag) ↔ _
    rw [mem_iris_removeTags]
    simp only [tagKey_injective.eq_iff, exists_eq_right']
    have hold : key ∈ s.tagIndex.iris (tagKey tag) ↔ _ := h.posting_iff hlegacy tag
    rw [hold]
    by_cases hkey : key = iri
    · subst hkey
      simp only [lookup_erase]
      cases hlookup : s.entries.lookup key with
      | none => simp
      | some e => simp
    · simp only [lookup_erase_ne hkey]
      simp [hkey]

/-- What `retrieve` does: nothing, or an access that is stored. -/
theorem retrieve_cases {found : Option L0Entry} (h : s.retrieve env now iri = .ok (found, s')) :
    s' = s ∨ ∃ entry, s.storeEntry env now entry = .ok s' := by
  unfold retrieve at h
  by_cases hlegacy : isLegacyUnscopedToolResultIri iri = true
  · rw [if_pos hlegacy] at h
    exact .inl (Prod.mk.inj (ok.inj h)).2.symm
  · rw [if_neg hlegacy] at h
    cases hlookup : s.entries.lookup iri with
    | none =>
      rw [hlookup] at h
      exact .inl (Prod.mk.inj (ok.inj h)).2.symm
    | some stored =>
      rw [hlookup] at h
      obtain ⟨entry, -, h⟩ := bind_eq_ok_iff.1 h
      split_ifs at h
      · obtain ⟨s₁, hstore, h⟩ := bind_eq_ok_iff.1 h
        rw [← (Prod.mk.inj (ok.inj h)).2]
        exact .inr ⟨_, hstore⟩
      · exact .inl (Prod.mk.inj (ok.inj h)).2.symm

/-- **Every state is indexed.** -/
theorem Indexed.of_reachable (h : Reachable env s) : s.Indexed := by
  induction h with
  | new writable => exact .new writable
  | store now iri content h hstore ih => exact ih.store hstore
  | storeEntry now entry h hstore ih => exact ih.storeEntry hstore
  | retrieve now iri h hretrieve ih =>
    rcases retrieve_cases hretrieve with rfl | ⟨entry, hstore⟩
    · exact ih
    · exact ih.storeEntry hstore
  | delete iri h hdelete ih => exact ih.delete hdelete

/-! ### Searches -/

/-- The entry as it is stored, its access apart. -/
def Returned (s : L0Store) (found : L0Entry) : Prop :=
  ∃ entry, s.entries.lookup found.iri = some entry ∧
    { found with accessCount := entry.accessCount, lastAccessed := entry.lastAccessed } = entry

/-- The stored entries that carry all tags, each of them once. -/
structure IsAnswer (s : L0Store) (tags : List String) (found : List L0Entry) : Prop where
  nodup : (found.map L0Entry.iri).Nodup
  mem_iff : ∀ iri, iri ∈ found.map L0Entry.iri ↔ isLegacyUnscopedToolResultIri iri = false ∧
    ∃ entry, s.entries.lookup iri = some entry ∧ ∀ tag ∈ tags, tag ∈ entry.tags
  returned : ∀ entry ∈ found, s.Returned entry

/-- The search and the scan both give the entries that carry all tags. -/
def SearchExact (env : L0Env) (now : ℤ) (s : L0Store) (tags : List String) : Prop :=
  ∃ found s' scanned, s.searchByTags env now tags = .ok (found, s') ∧
    s.searchByTagsFallback env tags = .ok scanned ∧ s.IsAnswer tags found ∧ s.IsAnswer tags scanned

/-- Every entry can be read back. -/
def Readable (s : L0Store) : Prop := ∀ iri entry, s.entries.lookup iri = some entry → entry.importance.isFinite = true

/-- All tags have lists, the lists of the first of them use up all candidates, and some entry
carries the others. -/
def StartsOver (s : L0Store) (tags : List String) : Prop :=
  (∀ tag ∈ tags, s.posting tag ≠ []) ∧
    ∃ front back, tags = front ++ back ∧ front ≠ [] ∧ back ≠ [] ∧ Blocks (front.map s.posting) ∧
      ∃ iri entry, isLegacyUnscopedToolResultIri iri = false ∧
        s.entries.lookup iri = some entry ∧ ∀ tag ∈ back, tag ∈ entry.tags

/-- The loop over the index is a running intersection. -/
theorem candidateIris_eq (h : s.tagIndex.Proper) (tags candidates : List String) :
    candidateIris s.tagIndex tags candidates =
      if ∀ tag ∈ tags, s.posting tag ≠ [] then some ((tags.map s.posting).foldl step candidates)
      else none := by
  induction tags generalizing candidates with
  | nil => rfl
  | cons tag tags ih =>
    have hlookup : s.tagIndex.lookup (tagKey tag) = if s.posting tag = [] then none else some (s.posting tag) :=
      h.lookup_eq _
    unfold candidateIris
    by_cases hempty : s.posting tag = []
    · rw [if_pos hempty] at hlookup
      rw [hlookup, if_neg fun hall => hall tag mem_cons_self hempty]
    · rw [if_neg hempty] at hlookup
      simp only [hlookup, ih, forall_mem_cons, hempty, ne_eq, not_false_eq_true, true_and]
      rfl

theorem nodup_posting (h : s.tagIndex.Proper) (tag : String) : (s.posting tag).Nodup := by
  unfold posting iris
  cases hlookup : s.tagIndex.lookup (tagKey tag) with
  | none => exact nodup_nil
  | some iris => exact (h _ _ hlookup).2

theorem mapM_fromSlice (env : L0Env) (rows : List (Σ _ : String, L0Entry)) :
    (rows.mapM fun row => fromSlice env row.2) =
      if ∀ row ∈ rows, row.2.importance.isFinite = true then .ok (rows.map (·.2))
      else .error (.storageError ("Failed to deserialize entry: " ++ env.notAFloat)) := by
  induction rows with
  | nil => rfl
  | cons row rows ih =>
    rw [mapM_cons, ih]
    unfold fromSlice
    by_cases hrow : row.2.importance.isFinite = true
    · rw [if_pos hrow]
      simp only [forall_mem_cons, hrow, true_and]
      split_ifs
      · rfl
      · rfl
    · have hsome : ¬ ∀ row' ∈ row :: rows, row'.2.importance.isFinite = true := fun hall =>
        hrow (hall row mem_cons_self)
      rw [if_neg hrow, if_neg hsome]
      rfl

theorem readable_iff : s.Readable ↔ ∀ row ∈ s.entries.entries, row.2.importance.isFinite = true := by
  constructor
  · intro h row hrow
    exact h row.1 row.2 (mem_lookup_iff.2 hrow)
  · intro h iri entry hlookup
    exact h ⟨iri, entry⟩ (mem_lookup_iff.1 hlookup)

/-- **The scan** gives the answer, if all entries can be read. -/
theorem isAnswer_scan (h : s.Indexed) (tags : List String) :
    s.IsAnswer tags ((s.entries.entries.map (·.2)).filter fun entry =>
      !isLegacyUnscopedToolResultIri entry.iri && tags.all (· ∈ entry.tags)) := by
  have hiri : ∀ row ∈ s.entries.entries, row.2.iri = row.1 := fun row hrow =>
    h.iri_eq (mem_lookup_iff.2 hrow)
  refine ⟨?_, fun iri => ?_, fun entry hentry => ?_⟩
  · have hkeys : ((s.entries.entries.map (·.2)).map L0Entry.iri) = s.entries.keys := by
      rw [map_map]
      exact map_congr_left hiri
    refine List.Nodup.sublist (Sublist.map _ filter_sublist) ?_
    rw [hkeys]
    exact s.entries.nodupKeys
  · simp only [mem_map, mem_filter, Bool.and_eq_true, Bool.not_eq_true', all_eq_true, decide_eq_true_eq]
    constructor
    · rintro ⟨entry, ⟨⟨row, hrow, rfl⟩, hlegacy, hall⟩, rfl⟩
      refine ⟨hlegacy, row.2, ?_, hall⟩
      rw [hiri row hrow]
      exact mem_lookup_iff.2 hrow
    · rintro ⟨hlegacy, entry, hlookup, hall⟩
      have hentry := h.iri_eq hlookup
      refine ⟨entry, ⟨⟨⟨iri, entry⟩, mem_lookup_iff.1 hlookup, rfl⟩, ?_, hall⟩, hentry⟩
      rw [hentry]
      exact hlegacy
  · obtain ⟨row, hrow, rfl⟩ := mem_map.1 (mem_filter.1 hentry).1
    refine ⟨row.2, ?_, rfl⟩
    rw [hiri row hrow]
    exact mem_lookup_iff.2 hrow

theorem scan_eq (env : L0Env) (tags : List String) (h : s.Readable) :
    s.searchByTagsFallback env tags = .ok ((s.entries.entries.map (·.2)).filter fun entry =>
      !isLegacyUnscopedToolResultIri entry.iri && tags.all (· ∈ entry.tags)) := by
  unfold searchByTagsFallback
  rw [mapM_fromSlice, if_pos (readable_iff.1 h)]
  rfl

variable {tags : List String}

/-- A scan that is no error has read all entries. -/
theorem readable_of_scan {scanned : List L0Entry} (h : s.searchByTagsFallback env tags = .ok scanned) : s.Readable := by
  unfold searchByTagsFallback at h
  rw [mapM_fromSlice] at h
  split_ifs at h with hall
  · exact readable_iff.2 hall
  · cases h

/-- Storing an entry under a readable one succeeds, and touches no other. -/
theorem storeEntry_ok (env : L0Env) (now : ℤ) (entry : L0Entry) (hwritable : s.writable = true)
    (hindexed : s.Indexed) {stored : L0Entry} (hlookup : s.entries.lookup iri = some stored)
    (hreadable : stored.importance.isFinite = true) (hiri : entry.iri = iri)
    (hlegacy : isLegacyUnscopedToolResultIri iri = false) :
    ∃ s', s.storeEntry env now entry = .ok s' ∧ s'.writable = true ∧
      ∀ iri', iri' ≠ iri → s'.entries.lookup iri' = s.entries.lookup iri' := by
  subst hiri
  have hread : ∀ e, s.entries.lookup entry.iri = some e → e.importance.isFinite = true := by
    intro e he
    rw [hlookup] at he
    rw [← Option.some.inj he]
    exact hreadable
  have hmerged : ∀ contentHash, (mergedEntry env now (some stored) { entry with contentHash }).iri = entry.iri := by
    intro contentHash
    show stored.iri = entry.iri
    exact hindexed.iri_eq hlookup
  unfold storeEntry assertWritable getEntryTags getEntryNamedGraph retrieveWithoutUpdate
  rw [if_pos hwritable, getEntry_ok _ _ hread, getEntry_ok _ _ hread, getEntry_ok _ _ hread, hlegacy, hlookup]
  refine ⟨_, rfl, hwritable, fun iri' hne => ?_⟩
  show (insert _ _ s.entries).lookup iri' = _
  refine lookup_insert_ne ?_
  rw [show (some stored).map some = some (some stored) from rfl]
  simp only [Option.getD_some, hmerged]
  exact hne

/-- One candidate: an entry that is there is returned, and the others are left as they are. -/
theorem retrieve_ok (env : L0Env) (now : ℤ) (hindexed : s.Indexed)
    (hreadable : ∀ entry, s.entries.lookup iri = some entry → entry.importance.isFinite = true) :
    ∃ found s', s.retrieve env now iri = .ok (found, s') ∧
      (∀ iri', iri' ≠ iri → s'.entries.lookup iri' = s.entries.lookup iri') ∧
      (found.isSome = true ↔ isLegacyUnscopedToolResultIri iri = false ∧ ∃ entry, s.entries.lookup iri = some entry) ∧
      ∀ entry, found = some entry → entry.iri = iri ∧ s.Returned entry := by
  unfold retrieve
  by_cases hlegacy : isLegacyUnscopedToolResultIri iri = true
  · rw [if_pos hlegacy]
    exact ⟨none, s, rfl, fun _ _ => rfl, by simp [hlegacy], fun _ h => by cases h⟩
  · rw [if_neg hlegacy]
    rw [Bool.not_eq_true] at hlegacy
    cases hlookup : s.entries.lookup iri with
    | none => exact ⟨none, s, rfl, fun _ _ => rfl, by simp, fun _ h => by cases h⟩
    | some stored =>
      have hfinite := hreadable stored hlookup
      have hiri := hindexed.iri_eq hlookup
      have hsome : (true = true) ↔ isLegacyUnscopedToolResultIri iri = false ∧
          ∃ entry, some stored = some entry := by simp [hlegacy]
      have hstored : s.entries.lookup stored.iri = some stored := by
        rw [hiri]
        exact hlookup
      simp only [fromSlice, if_pos hfinite]
      by_cases hwritable : s.writable = true
      · let entry := { stored with accessCount := stored.accessCount + 1, lastAccessed := now }
        obtain ⟨s', hstore, -, hother⟩ := storeEntry_ok env now entry hwritable hindexed hlookup hfinite hiri hlegacy
        refine ⟨some entry, s', ?_, hother, hsome, ?_⟩
        · show (do
            if s.writable then return (some entry, ← s.storeEntry env now entry)
            else return (some stored, s)) = _
          rw [if_pos hwritable, hstore]
          rfl
        · rintro _ rfl'
          cases rfl'
          exact ⟨hiri, stored, hstored, rfl⟩
      · refine ⟨some stored, s, ?_, fun _ _ => rfl, hsome, ?_⟩
        · show (do
            if s.writable then
              return (some _, ← s.storeEntry env now _)
            else return (some stored, s)) = _
          rw [if_neg hwritable]
          rfl
        · rintro _ rfl'
          cases rfl'
          exact ⟨hiri, stored, hstored, rfl⟩

/-- All candidates, each of them once. -/
theorem retrieveAll_ok (env : L0Env) (now : ℤ) {iris : List String} (hindexed : s.Indexed) (hnodup : iris.Nodup)
    (hreadable : ∀ iri ∈ iris, ∀ entry, s.entries.lookup iri = some entry → entry.importance.isFinite = true) :
    ∃ found s', retrieveAll env now s iris = .ok (found, s') ∧ (found.map L0Entry.iri).Sublist iris ∧
      (∀ iri, iri ∈ found.map L0Entry.iri ↔ iri ∈ iris ∧
        isLegacyUnscopedToolResultIri iri = false ∧ ∃ entry, s.entries.lookup iri = some entry) ∧
      ∀ entry ∈ found, s.Returned entry := by
  induction iris generalizing s with
  | nil => exact ⟨[], s, rfl, .slnil, by simp, by simp⟩
  | cons iri iris ih =>
    obtain ⟨hnotMem, hnodup⟩ := nodup_cons.1 hnodup
    obtain ⟨first, s₁, hretrieve, hother, hsome, hfirst⟩ := retrieve_ok env now hindexed (hreadable iri mem_cons_self)
    have hindexed₁ : s₁.Indexed := by
      rcases retrieve_cases hretrieve with rfl | ⟨entry, hstore⟩
      · exact hindexed
      · exact hindexed.storeEntry hstore
    -- The others are as they were.
    have hsame : ∀ iri' ∈ iris, s₁.entries.lookup iri' = s.entries.lookup iri' := fun iri' hiri' =>
      hother iri' fun h => hnotMem (h ▸ hiri')
    obtain ⟨rest, s₂, hrest, hsub, hmem, hreturned⟩ := ih hindexed₁ hnodup fun iri' hiri' entry he =>
      hreadable iri' (mem_cons_of_mem iri hiri') entry (hsame iri' hiri' ▸ he)
    refine ⟨first.toList ++ rest, s₂, ?_, ?_, fun iri' => ?_, fun entry hentry => ?_⟩
    · unfold retrieveAll
      rw [hretrieve]
      exact congrArg (· >>= fun p : List L0Entry × L0Store => .ok (first.toList ++ p.1, p.2)) hrest
    · cases first with
      | none => exact hsub.cons iri
      | some entry =>
        have hiri := (hfirst entry rfl).1
        show (entry.iri :: rest.map L0Entry.iri).Sublist (iri :: iris)
        rw [hiri]
        exact hsub.cons_cons iri
    · rw [map_append, mem_append, hmem, mem_cons]
      constructor
      · rintro (hin | ⟨hin, hlegacy, hentry⟩)
        · cases first with
          | none => cases hin
          | some entry =>
            have hiri := (hfirst entry rfl).1
            have heq : iri' = entry.iri := by simpa using hin
            rw [heq, hiri]
            exact ⟨.inl rfl, hsome.1 rfl⟩
        · exact ⟨.inr hin, hlegacy, hsame iri' hin ▸ hentry⟩
      · rintro ⟨rfl | hin, hlegacy, hentry⟩
        · left
          obtain ⟨entry, hentry⟩ := Option.isSome_iff_exists.1 (hsome.2 ⟨hlegacy, hentry⟩)
          rw [hentry]
          simp [(hfirst entry hentry).1]
        · exact .inr ⟨hin, hlegacy, (hsame iri' hin).symm ▸ hentry⟩
    · rcases mem_append.1 hentry with hin | hin
      · exact (hfirst entry (Option.mem_toList.1 hin)).2
      · obtain ⟨stored, hstored, heq⟩ := hreturned entry hin
        have hiri : entry.iri ∈ iris := ((hmem entry.iri).1 (mem_map_of_mem hin)).1
        exact ⟨stored, hsame entry.iri hiri ▸ hstored, heq⟩

/-- A carrier of tags is in all their lists. -/
theorem inAll_posting (hindexed : s.Indexed) (hlegacy : isLegacyUnscopedToolResultIri iri = false)
    (hlookup : s.entries.lookup iri = some entry) (tags : List String) :
    InAll (tags.map s.posting) iri ↔ ∀ tag ∈ tags, tag ∈ entry.tags := by
  unfold InAll
  rw [forall_mem_map]
  refine forall₂_congr fun tag _ => ?_
  rw [hindexed.posting_iff hlegacy, hlookup]
  simp

/-- The search over the index, in a state whose entries can be read. -/
theorem searchWithIndex_eq (env : L0Env) (now : ℤ) (hindexed : s.Indexed) (hreadable : s.Readable)
    (htags : tags ≠ []) (hlists : ∀ tag ∈ tags, s.posting tag ≠ []) :
    ∃ found s', s.searchByTags env now tags = .ok (found, s') ∧ (found.map L0Entry.iri).Nodup ∧
      (∀ iri, iri ∈ found.map L0Entry.iri ↔ iri ∈ meet (tags.map s.posting) ∧
        isLegacyUnscopedToolResultIri iri = false ∧ ∃ entry, s.entries.lookup iri = some entry) ∧
      ∀ entry ∈ found, s.Returned entry := by
  have hnodup : (meet (tags.map s.posting)).Nodup :=
    nodup_meet (forall_mem_map.2 fun tag _ => nodup_posting hindexed.proper tag)
  obtain ⟨found, s', hfound, hsub, hmem, hreturned⟩ := retrieveAll_ok env now hindexed hnodup fun iri _ => hreadable iri
  refine ⟨found, s', ?_, hsub.nodup hnodup, hmem, hreturned⟩
  unfold searchByTags searchWithIndex
  rw [if_neg htags, candidateIris_eq hindexed.proper, if_pos hlists]
  exact hfound

/-- **Tag search is intersection exactly if it does not start over**, and if every entry can be
read. -/
theorem searchExact_iff (h : Reachable env s) {tags : List String} (htags : tags ≠ []) :
    SearchExact env now s tags ↔ s.Readable ∧ ¬ s.StartsOver tags := by
  have hindexed := Indexed.of_reachable h
  constructor
  · rintro ⟨found, s', scanned, hsearch, hscan, hfound, -⟩
    have hreadable := readable_of_scan hscan
    refine ⟨hreadable, ?_⟩
    rintro ⟨hlists, front, back, rfl, hfront, hback, hblocks, iri, entry, hlegacy, hlookup, hall⟩
    obtain ⟨found', s'', hsearch', -, hmem, -⟩ := searchWithIndex_eq env now hindexed hreadable htags hlists
    obtain ⟨rfl, -⟩ := Prod.mk.inj (Except.ok.inj (hsearch.symm.trans hsearch'))
    -- The entry is found, but does not carry the tags of the blocks.
    have hmeet : iri ∈ meet ((front ++ back).map s.posting) := by
      rw [map_append]
      refine mem_meet_of_blocks hblocks ?_ ((inAll_posting hindexed hlegacy hlookup back).2 hall)
      exact fun hnil => hback (map_eq_nil_iff.1 hnil)
    obtain ⟨-, entry', hlookup', hall'⟩ := (hfound.mem_iff iri).1 ((hmem iri).2 ⟨hmeet, hlegacy, entry, hlookup⟩)
    refine hblocks.disjoint (fun hnil => hfront (map_eq_nil_iff.1 hnil)) iri ?_
    exact (inAll_posting hindexed hlegacy hlookup' front).2 fun tag htag =>
      hall' tag (mem_append_left _ htag)
  · rintro ⟨hreadable, hstarts⟩
    have hscan := scan_eq env tags hreadable
    have hanswer := isAnswer_scan hindexed tags
    by_cases hlists : ∀ tag ∈ tags, s.posting tag ≠ []
    · obtain ⟨found, s', hsearch, hnodup, hmem, hreturned⟩ :=
        searchWithIndex_eq env now hindexed hreadable htags hlists
      refine ⟨found, s', _, hsearch, hscan, ⟨hnodup, fun iri => ?_, hreturned⟩, hanswer⟩
      rw [hmem]
      obtain ⟨front, back, hsplit, hblocks, hnil, hsome⟩ := exists_blocks (tags.map s.posting)
      obtain ⟨tags₁, tags₂, rfl, rfl, rfl⟩ := map_eq_append_iff.1 hsplit
      constructor
      · rintro ⟨hmeet, hlegacy, entry, hlookup⟩
        refine ⟨hlegacy, entry, hlookup, ?_⟩
        have hback : tags₂.map s.posting ≠ [] := by
          intro hempty
          rw [hnil hempty] at hmeet
          cases hmeet
        have hall := (inAll_posting hindexed hlegacy hlookup tags₂).1
          (((hsome hback).2 iri).1 hmeet)
        by_cases hfront : tags₁ = []
        · subst hfront
          exact hall
        · -- Behind blocks there is nothing to find.
          refine absurd ⟨hlists, tags₁, tags₂, rfl, hfront, ?_, hblocks, iri, entry, hlegacy, hlookup, hall⟩ hstarts
          exact fun hempty => hback (by rw [hempty]; rfl)
      · rintro ⟨hlegacy, entry, hlookup, hall⟩
        refine ⟨?_, hlegacy, entry, hlookup⟩
        have hin := (inAll_posting hindexed hlegacy hlookup (tags₁ ++ tags₂)).2 hall
        rw [map_append] at hin ⊢
        by_cases hfront : tags₁.map s.posting = []
        · rw [hfront, nil_append] at hin ⊢
          have hback : tags₂.map s.posting ≠ [] := by
            rw [map_eq_nil_iff] at hfront
            subst hfront
            exact fun hempty => htags (map_eq_nil_iff.1 hempty)
          have hmem₂ := (hsome hback).2 iri
          rw [map_append, hfront, nil_append] at hmem₂
          exact hmem₂.2 hin
        · refine absurd (fun l hl => hin l (mem_append_left _ hl)) (hblocks.disjoint hfront iri)
    · -- A tag without a list has no carrier: the table is scanned.
      refine ⟨_, s, _, ?_, hscan, hanswer, hanswer⟩
      unfold searchByTags searchWithIndex
      rw [if_neg htags, candidateIris_eq hindexed.proper, if_neg hlists, hscan]
      rfl

/-! ### Three tags, of which the first two have no common carrier -/

def sampleEnv : L0Env where
  computeContentHash := fun content => "sha256:" ++ content
  -- Of two equal floats.
  mean := fun a _ => a
  notAFloat := "invalid type: null, expected f32"

def sampleEntry (iri : String) (tags : List String) : L0Entry := { plainEntry sampleEnv 0 iri "content" with tags }

/-- One entry carries `a`, the other one `b` and `c`. -/
def sampleStore : Except CoreError L0Store := do
  let s ← (new true).storeEntry sampleEnv 0 (sampleEntry "iri://one" ["a"])
  s.storeEntry sampleEnv 0 (sampleEntry "iri://two" ["b", "c"])

theorem exists_sampleStore : ∃ s, sampleStore = .ok s ∧ Reachable sampleEnv s := by
  cases h : sampleStore with
  | error e =>
    have hok : sampleStore.toOption.isSome = true := by decide +kernel
    rw [h] at hok
    cases hok
  | ok s =>
    unfold sampleStore at h
    obtain ⟨s₁, hfirst, hsecond⟩ := bind_eq_ok_iff.1 h
    exact ⟨s, rfl, .storeEntry 0 _ (.storeEntry 0 _ (.new true) hfirst) hsecond⟩

/-- The search for all three tags finds the entry that carries two of them. -/
theorem not_searchExact_startsOver : ∃ (env : L0Env) (now : ℤ) (s : L0Store) (tags : List String),
      Reachable env s ∧ tags ≠ [] ∧ ¬ SearchExact env now s tags := by
  obtain ⟨s, hs, hreachable⟩ := exists_sampleStore
  refine ⟨sampleEnv, 1, s, ["a", "b", "c"], hreachable, by decide, ?_⟩
  rintro ⟨found, s', scanned, hsearch, -, hfound, -⟩
  have hiris : (sampleStore.bind fun s => s.searchByTags sampleEnv 1 ["a", "b", "c"]).map
      (fun r => r.1.map L0Entry.iri) = .ok ["iri://two"] := by
    decide +kernel
  have htags : sampleStore.map (fun s => (s.entries.lookup "iri://two").map L0Entry.tags) = .ok (some ["b", "c"]) := by
    decide +kernel
  rw [hs] at hiris htags
  have hmem : "iri://two" ∈ found.map L0Entry.iri := by
    have hsearch' : (s.searchByTags sampleEnv 1 ["a", "b", "c"]).map
        (fun r => r.1.map L0Entry.iri) = .ok ["iri://two"] := hiris
    rw [hsearch] at hsearch'
    have hlist : found.map L0Entry.iri = ["iri://two"] := Except.ok.inj hsearch'
    rw [hlist]
    exact mem_cons_self
  obtain ⟨-, entry, hlookup, hall⟩ := (hfound.mem_iff "iri://two").1 hmem
  have hentry : (s.entries.lookup "iri://two").map L0Entry.tags = some ["b", "c"] := Except.ok.inj htags
  rw [hlookup] at hentry
  have ha := hall "a" mem_cons_self
  rw [show entry.tags = ["b", "c"] from Option.some.inj hentry] at ha
  exact absurd ha (by decide)

/-- The theorem at the two tags that the second entry carries. -/
theorem searchExact_iff_twoTags : ∃ s : L0Store, sampleStore = .ok s ∧
      (SearchExact sampleEnv 1 s ["b", "c"] ↔ s.Readable ∧ ¬ s.StartsOver ["b", "c"]) := by
  obtain ⟨s, hs, hreachable⟩ := exists_sampleStore
  exact ⟨s, hs, searchExact_iff hreachable (by decide)⟩

end L0Store

end WildAgentOs.Memory
