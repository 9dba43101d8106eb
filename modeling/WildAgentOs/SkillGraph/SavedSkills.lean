import WildAgentOs.Memory.NamedGraphs
import WildAgentOs.SkillGraph.IndexScan

/-!
# Skills in L0

What `persist_skill_to_l0` and the deletions leave in the named graph of the skills, and what `hydrate_from_l0` reads
there.

* `Saved`, `Storable`, `Saved.persist`, `Saved.delete`, `Saved.parsed`.
-/

namespace WildAgentOs.SkillGraph

open Memory Function L0Store SkillGraphStore

/-- The IRIs that are listed in the graph of the skills. -/
def graphIris (l0 : L0Store) : List String := l0.namedGraphs.iris (L0Store.graphKey skillGraphNamedGraph)

/-- L0 holds, in the graph of the skills, the nodes that are not of a session, and no others. -/
structure Saved (env : SkillEnv) (look : Look) (l0 : L0Store) : Prop where
  indexed : l0.Indexed
  proper : l0.namedGraphs.Proper
  writable : ∀ iri skill, look iri = some skill → skill.storageTier ≠ .l1Session → l0.writable = true
  listed : ∀ iri entry, l0.entries.lookup iri = some entry → entry.namedGraph = some skillGraphNamedGraph →
    iri ∈ graphIris l0
  finite : ∀ iri ∈ graphIris l0, ∀ entry, l0.entries.lookup iri = some entry → entry.importance.isFinite = true
  sound : ∀ iri ∈ graphIris l0, ∀ entry, l0.entries.lookup iri = some entry →
    isLegacyUnscopedToolResultIri iri = false → ∀ skill, env.fromJson entry.content = some skill →
      look iri = some skill ∧ skill.storageTier ≠ .l1Session
  complete : ∀ iri skill, look iri = some skill → skill.storageTier ≠ .l1Session →
    iri ∈ graphIris l0 ∧ isLegacyUnscopedToolResultIri iri = false ∧
      ∃ entry, l0.entries.lookup iri = some entry ∧ env.fromJson entry.content = some skill

/-- The node is read back from what is written: from its JSON, under an IRI that L0 retrieves, with an importance that
can be read, and in the graph of the skills. -/
structure Written (env : SkillEnv) (now : ℤ) (l0 : L0Store) (skill : SkillGraphNode) : Prop where
  json : env.fromJson (env.toJson skill) = some skill
  legacy : isLegacyUnscopedToolResultIri skill.skillIri = false
  finite : (L0Store.mergedEntry env.l0 now (l0.entries.lookup skill.skillIri)
    (SkillGraphStore.skillEntry env now skill)).importance.isFinite = true
  graph : ∀ entry, l0.entries.lookup skill.skillIri = some entry →
    entry.namedGraph = none ∨ entry.namedGraph = some skillGraphNamedGraph

/-- A node of a session takes the place of no other, and any other is read back from what is written. -/
def Storable (env : SkillEnv) (now : ℤ) (look : Look) (l0 : L0Store) (skill : SkillGraphNode) : Prop :=
  if skill.storageTier = .l1Session then
    ∀ old, look skill.skillIri = some old → old.storageTier = .l1Session
  else Written env now l0 skill

/-! ### The table of the graphs -/

section

variable {table : IriIndex} {iri : String}

theorem proper_updateNamedGraphs (h : table.Proper) (old new : Option String) :
    (updateNamedGraphs table iri old new).Proper := by
  unfold updateNamedGraphs
  split_ifs
  · cases old with
    | none =>
      cases new with
      | none => exact h
      | some graph => exact h.addIri _ iri
    | some graph =>
      have hremoved := h.removeIri (graphKey graph) iri
      cases new with
      | none => exact hremoved
      | some graph => exact hremoved.addIri _ iri
  · exact h

/-- An entry of no graph, or of this one, comes into this graph. -/
theorem mem_updateNamedGraphs {graph : String} {old : Option String} (hold : old = none ∨ old = some graph)
    (hlisted : old = some graph → iri ∈ table.iris (graphKey graph)) {iri' : String} :
    iri' ∈ (updateNamedGraphs table iri old (some graph)).iris (graphKey graph) ↔
      iri' ∈ table.iris (graphKey graph) ∨ iri' = iri := by
  unfold updateNamedGraphs
  obtain rfl | rfl := hold
  · rw [if_pos (Option.some_ne_none graph).symm, IriIndex.mem_iris_addIri]
    simp [or_comm]
  · rw [if_neg (not_not.2 rfl)]
    refine (or_iff_left_of_imp ?_).symm
    rintro rfl
    exact hlisted rfl

end

/-! ### Writing -/

theorem writable_of_storeEntry {env : L0Env} {now : ℤ} {l0 l0' : L0Store} {entry : L0Entry}
    (h : l0.storeEntry env now entry = .ok l0') : l0.writable = true := by
  unfold storeEntry assertWritable at h
  obtain ⟨_, hwritable, -⟩ := Except.bind_eq_ok_iff.1 h
  by_contra hnot
  rw [if_neg hnot] at hwritable
  exact (nomatch hwritable)

namespace Saved

variable {env : SkillEnv} {now : ℤ} {look : Look} {l0 l0' : L0Store} {iri : String} {skill : SkillGraphNode}

section

variable (h : Saved env look l0)
include h

/-- A node of a session does not show in L0. -/
theorem session (hsession : skill.storageTier = .l1Session)
    (hold : ∀ old, look iri = some old → old.storageTier = .l1Session) :
    Saved env (update look iri (some skill)) l0 := by
  have hother : ∀ {iri' skill'}, update look iri (some skill) iri' = some skill' →
      skill'.storageTier ≠ .l1Session → look iri' = some skill' := by
    intro iri' skill' hlook hne
    by_cases heq : iri' = iri
    · subst heq
      rw [update_self] at hlook
      cases hlook
      exact absurd hsession hne
    · rwa [update_of_ne heq] at hlook
  refine
    { h with
      writable := fun iri' skill' hlook hne => h.writable iri' skill' (hother hlook hne) hne
      sound := fun iri' hin entry hentry hlegacy skill' hjson => ?_
      complete := fun iri' skill' hlook hne => h.complete iri' skill' (hother hlook hne) hne }
  · obtain ⟨hlook, hne⟩ := h.sound iri' hin entry hentry hlegacy skill' hjson
    refine ⟨?_, hne⟩
    rw [update_of_ne, hlook]
    rintro rfl
    exact hne (hold skill' hlook)

/-- What is in L0 after an entry has been stored. -/
theorem lookup_storeEntry (hlegacy : isLegacyUnscopedToolResultIri skill.skillIri = false)
    (hstore : l0.storeEntry env.l0 now (skillEntry env now skill) = .ok l0') :
    ∃ merged,
      (∀ iri', l0'.entries.lookup iri' = if iri' = skill.skillIri then some merged else l0.entries.lookup iri') ∧
      merged.content = env.toJson skill ∧
      merged.importance = (mergedEntry env.l0 now (l0.entries.lookup skill.skillIri)
        (skillEntry env now skill)).importance ∧
      merged.namedGraph = ((l0.entries.lookup skill.skillIri).bind L0Entry.namedGraph).or (some skillGraphNamedGraph) ∧
      l0'.namedGraphs = updateNamedGraphs l0.namedGraphs skill.skillIri
        ((l0.entries.lookup skill.skillIri).bind L0Entry.namedGraph) merged.namedGraph ∧
      l0'.writable = l0.writable := by
  obtain ⟨contentHash, merged, hmerged, rfl⟩ := storeEntry_cases hstore
  change merged = mergedEntry env.l0 now (if isLegacyUnscopedToolResultIri skill.skillIri then none else
    l0.entries.lookup skill.skillIri) _ at hmerged
  rw [hlegacy, if_neg Bool.false_ne_true] at hmerged
  have hiri : merged.iri = skill.skillIri := by
    rw [hmerged]
    exact mergedEntry_iri env.l0 now fun entry hentry => h.indexed.iri_eq hentry
  refine ⟨merged, fun iri' => ?_, ?_, ?_, ?_, ?_, rfl⟩
  · change (l0.entries.insert merged.iri merged).lookup iri' = _
    rw [hiri]
    split_ifs with heq
    · rw [heq, AList.lookup_insert]
    · rw [AList.lookup_insert_ne heq]
  · rw [hmerged]
    cases l0.entries.lookup skill.skillIri <;> rfl
  · rw [hmerged]
    cases l0.entries.lookup skill.skillIri <;> rfl
  · rw [hmerged, mergedEntry_namedGraph]
    rfl
  · change updateNamedGraphs l0.namedGraphs merged.iri
      (((l0.entries.lookup skill.skillIri).map L0Entry.namedGraph).getD none) merged.namedGraph = _
    rw [hiri]
    cases l0.entries.lookup skill.skillIri <;> rfl

theorem storeEntry (hne : skill.storageTier ≠ .l1Session) (hwritten : Written env now l0 skill)
    (hstore : l0.storeEntry env.l0 now (skillEntry env now skill) = .ok l0') :
    Saved env (update look skill.skillIri (some skill)) l0' := by
  obtain ⟨merged, hlookup, hcontent, himportance, hgraph, htable, hwritable⟩ :=
    h.lookup_storeEntry hwritten.legacy hstore
  set old := (l0.entries.lookup skill.skillIri).bind L0Entry.namedGraph with hold
  have hbefore : old = none ∨ old = some skillGraphNamedGraph := by
    rw [hold]
    cases hentry : l0.entries.lookup skill.skillIri with
    | none => exact .inl rfl
    | some entry => exact hwritten.graph entry hentry
  have hafter : merged.namedGraph = some skillGraphNamedGraph := by
    rw [hgraph]
    obtain hbefore | hbefore := hbefore <;> rw [hbefore] <;> rfl
  have hiris : ∀ iri', iri' ∈ graphIris l0' ↔ iri' ∈ graphIris l0 ∨ iri' = skill.skillIri := by
    intro iri'
    unfold graphIris
    rw [htable, hafter]
    refine mem_updateNamedGraphs hbefore fun hsome => ?_
    obtain ⟨entry, hentry, hentryGraph⟩ := Option.bind_eq_some_iff.1 (hold.symm.trans hsome)
    exact h.listed skill.skillIri entry hentry hentryGraph
  have hother : ∀ {iri'}, iri' ≠ skill.skillIri → l0'.entries.lookup iri' = l0.entries.lookup iri' := by
    intro iri' hne
    rw [hlookup, if_neg hne]
  have hself : l0'.entries.lookup skill.skillIri = some merged := by rw [hlookup, if_pos rfl]
  constructor
  · exact h.indexed.storeEntry hstore
  · rw [htable]
    exact proper_updateNamedGraphs h.proper _ _
  · rw [hwritable]
    exact fun _ _ _ _ => writable_of_storeEntry hstore
  · intro iri' entry hentry hgraph'
    rw [hiris]
    by_cases heq : iri' = skill.skillIri
    · exact .inr heq
    · exact .inl (h.listed iri' entry (hother heq ▸ hentry) hgraph')
  · intro iri' hin entry hentry
    by_cases heq : iri' = skill.skillIri
    · subst heq
      obtain rfl := Option.some.inj (hself.symm.trans hentry)
      rw [himportance]
      exact hwritten.finite
    · exact h.finite iri' (((hiris iri').1 hin).resolve_right heq) entry (hother heq ▸ hentry)
  · intro iri' hin entry hentry hlegacy skill' hjson
    by_cases heq : iri' = skill.skillIri
    · subst heq
      obtain rfl := Option.some.inj (hself.symm.trans hentry)
      rw [hcontent, hwritten.json] at hjson
      cases hjson
      rw [update_self]
      exact ⟨rfl, hne⟩
    · rw [update_of_ne heq]
      exact h.sound iri' (((hiris iri').1 hin).resolve_right heq) entry (hother heq ▸ hentry) hlegacy skill' hjson
  · intro iri' skill' hlook hne'
    by_cases heq : iri' = skill.skillIri
    · subst heq
      rw [update_self] at hlook
      cases hlook
      exact ⟨(hiris _).2 (.inr rfl), hwritten.legacy, merged, hself, hcontent ▸ hwritten.json⟩
    · rw [update_of_ne heq] at hlook
      obtain ⟨hin, hlegacy, entry, hentry, hjson⟩ := h.complete iri' skill' hlook hne'
      exact ⟨(hiris iri').2 (.inl hin), hlegacy, entry, (hother heq).trans hentry, hjson⟩

/-- An entry is deleted; its IRI stays in the list. -/
theorem delete {removed : Bool} (hdelete : l0.delete env.l0 iri = .ok (removed, l0')) :
    Saved env (update look iri none) l0' := by
  have hindexed := h.indexed.delete hdelete
  obtain ⟨tagIndex, rfl⟩ : ∃ tagIndex, l0' = { l0 with tagIndex, entries := l0.entries.erase iri } := by
    unfold L0Store.delete at hdelete
    obtain ⟨-, -, hdelete⟩ := Except.bind_eq_ok_iff.1 hdelete
    obtain ⟨oldTags, -, hdelete⟩ := Except.bind_eq_ok_iff.1 hdelete
    exact ⟨_, (Prod.mk.inj (Except.ok.inj hdelete)).2.symm⟩
  have hlookup : ∀ iri' entry, (l0.entries.erase iri).lookup iri' = some entry →
      iri' ≠ iri ∧ l0.entries.lookup iri' = some entry := by
    intro iri' entry hentry
    by_cases heq : iri' = iri
    · subst heq
      rw [AList.lookup_erase] at hentry
      exact (nomatch hentry)
    · rw [AList.lookup_erase_ne heq] at hentry
      exact ⟨heq, hentry⟩
  have hother : ∀ {iri' skill}, update look iri none iri' = some skill → iri' ≠ iri ∧ look iri' = some skill := by
    intro iri' skill hlook
    by_cases heq : iri' = iri
    · subst heq
      rw [update_self] at hlook
      exact (nomatch hlook)
    · rw [update_of_ne heq] at hlook
      exact ⟨heq, hlook⟩
  refine ⟨hindexed, h.proper, fun iri' skill hlook hne => h.writable iri' skill (hother hlook).2 hne,
    fun iri' entry hentry => h.listed iri' entry (hlookup iri' entry hentry).2,
    fun iri' hin entry hentry => h.finite iri' hin entry (hlookup iri' entry hentry).2,
    fun iri' hin entry hentry hlegacy skill hjson => ?_, fun iri' skill hlook hne => ?_⟩
  · obtain ⟨heq, hentry⟩ := hlookup iri' entry hentry
    rw [update_of_ne heq]
    exact h.sound iri' hin entry hentry hlegacy skill hjson
  · obtain ⟨heq, hlook⟩ := hother hlook
    obtain ⟨hin, hlegacy, entry, hentry, hjson⟩ := h.complete iri' skill hlook hne
    exact ⟨hin, hlegacy, entry, (AList.lookup_erase_ne heq).trans hentry, hjson⟩

end

/-! ### The store -/

variable {s s' : SkillGraphStore}

theorem persist (h : Saved env look l0) (hl0 : s.l0Store = some l0) (hstorable : Storable env now look l0 skill)
    (hpersist : s.persistSkillToL0 env now skill = .ok s') :
    ∃ l0', s'.l0Store = some l0' ∧ Saved env (update look skill.skillIri (some skill)) l0' := by
  unfold persistSkillToL0 at hpersist
  unfold Storable at hstorable
  rw [hl0] at hpersist
  simp only at hpersist
  split_ifs at hstorable hpersist with hsession
  · cases hpersist
    exact ⟨l0, hl0, h.session hsession hstorable⟩
  · split at hpersist
    · exact (nomatch hpersist)
    · next l0' hstore =>
      cases hpersist
      exact ⟨l0', rfl, h.storeEntry hsession hstorable hstore⟩

/-- A node that is stored can be persisted again, in another state. -/
theorem persist_ok (h : Saved env look l0) (hl0 : s.l0Store = some l0) {old : SkillGraphNode}
    (hold : look skill.skillIri = some old) (htier : skill.storageTier = old.storageTier) :
    ∃ s', s.persistSkillToL0 env now skill = .ok s' := by
  unfold persistSkillToL0
  rw [hl0]
  simp only
  split_ifs with hsession
  · exact ⟨s, rfl⟩
  · obtain ⟨hin, hlegacy, entry, hentry, -⟩ := h.complete skill.skillIri old hold (htier ▸ hsession)
    obtain ⟨l0', hstore, -⟩ := storeEntry_ok env.l0 now (skillEntry env now skill)
      (h.writable skill.skillIri old hold (htier ▸ hsession)) h.indexed hentry
      (h.finite skill.skillIri hin entry hentry) rfl hlegacy
    rw [hstore]
    exact ⟨_, rfl⟩

/-- The nodes that are read are the ones that are not of a session. -/
theorem parsed (h : Saved env look l0) (hiris : ∀ iri skill, look iri = some skill → skill.skillIri = iri) (now : ℤ) :
    ∃ entries l0', l0.queryByNamedGraph env.l0 now skillGraphNamedGraph = .ok (entries, l0') ∧
      ∀ skill, skill ∈ parsedSkills env entries ↔
        look skill.skillIri = some skill ∧ skill.storageTier ≠ .l1Session := by
  obtain ⟨entries, l0', hquery, -, hmem, hreturned⟩ := retrieveAll_ok env.l0 now h.indexed
    (nodup_iris h.proper _) h.finite
  refine ⟨entries, l0', ?_, fun skill => ?_⟩
  · rw [queryByNamedGraph_eq]
    exact hquery
  · unfold parsedSkills
    rw [List.mem_filterMap]
    constructor
    · rintro ⟨found, hfound, hjson⟩
      obtain ⟨hin, hlegacy, -⟩ := (hmem found.iri).1 (List.mem_map_of_mem hfound)
      obtain ⟨entry, hentry, heq⟩ := hreturned found hfound
      have hcontent : entry.content = found.content := by rw [← heq]
      obtain ⟨hlook, hne⟩ := h.sound found.iri hin entry hentry hlegacy skill (hcontent ▸ hjson)
      rw [hiris found.iri skill hlook]
      exact ⟨hlook, hne⟩
    · rintro ⟨hlook, hne⟩
      obtain ⟨hin, hlegacy, entry, hentry, hjson⟩ := h.complete skill.skillIri skill hlook hne
      obtain ⟨found, hfound, hiri⟩ := List.mem_map.1 ((hmem skill.skillIri).2 ⟨hin, hlegacy, entry, hentry⟩)
      obtain ⟨entry', hentry', heq⟩ := hreturned found hfound
      rw [hiri, hentry] at hentry'
      cases hentry'
      refine ⟨found, hfound, ?_⟩
      rw [← hjson, ← heq]

end Saved

end WildAgentOs.SkillGraph
