import WildAgentOs.Memory.TagSearch

/-!
# Named graphs

The table of the named graphs is kept by `store_entry` and by the deletion of a graph.  `delete` leaves
it as it is, so an IRI stays in the list of a graph that it has left, and a graph without entries stays
listed.

* `Op`, `run`;
* `LeftBehind`: what the table still lists, `GraphIndexed.of_run`;
* `MembershipExact`, `membershipExact_iff`.
-/

namespace WildAgentOs.Memory

open Json List Option Except AList L0Entry IriIndex

namespace L0Store

variable {env : L0Env} {toJson : Value → String} {now : ℤ} {s s' : L0Store} {table : IriIndex}

/-! ### Runs -/

/-- An operation, with its time. -/
inductive Op
  | store (now : ℤ) (iri content : String)
  | storeEntry (now : ℤ) (entry : L0Entry)
  | storeJsonldNode (now : ℤ) (node : Value)
  | updateMesiState (now : ℤ) (iri : String) (state : MesiState)
  | retrieve (now : ℤ) (iri : String)
  | queryByNamedGraph (now : ℤ) (graph : String)
  | delete (iri : String)
  | deleteNamedGraph (now : ℤ) (graph : String)

def Op.step (env : L0Env) (toJson : Value → String) (s : L0Store) : Op → Except CoreError L0Store
  | .store now iri content => s.store env now iri content
  | .storeEntry now entry => s.storeEntry env now entry
  | .storeJsonldNode now node => (·.2) <$> s.storeJsonldNode env toJson now node
  | .updateMesiState now iri state => s.updateMesiState env now iri state
  | .retrieve now iri => (·.2) <$> s.retrieve env now iri
  | .queryByNamedGraph now graph => (·.2) <$> s.queryByNamedGraph env now graph
  | .delete iri => (·.2) <$> s.delete env iri
  | .deleteNamedGraph now graph => (·.2) <$> s.deleteNamedGraph env now graph

/-- Operations on a new database, up to the first that fails. -/
def run (env : L0Env) (toJson : Value → String) (ops : List Op) : Except CoreError L0Store :=
  ops.foldlM (Op.step env toJson) (new true)

/-- The graph of a stored entry. -/
def graphOf (s : L0Store) (iri : String) : Option String := (s.entries.lookup iri).bind L0Entry.namedGraph

/-- The deletion of a graph itself. -/
def Op.DeletesGraph (graph : String) : Op → Prop
  | .deleteNamedGraph _ graph' => graph' = graph
  | _ => False

/-- The IRI has left the graph, other than by the deletion of the graph, and since then it has not come
back, nor has the graph been deleted. -/
inductive LeftBehind (env : L0Env) (toJson : Value → String) (graph iri : String) : List Op → Prop
  | leaves {before : List Op} {op : Op} {s s' : L0Store} : run env toJson before = .ok s →
      op.step env toJson s = .ok s' → s.graphOf iri = some graph → s'.graphOf iri ≠ some graph →
      ¬op.DeletesGraph graph → LeftBehind env toJson graph iri (before ++ [op])
  | stays {before : List Op} {op : Op} {s' : L0Store} : LeftBehind env toJson graph iri before →
      run env toJson (before ++ [op]) = .ok s' → s'.graphOf iri ≠ some graph →
      ¬op.DeletesGraph graph → LeftBehind env toJson graph iri (before ++ [op])

/-- IRIs that cannot be read are not stored in a named graph. -/
def Op.IsReadable : Op → Prop
  | .storeEntry _ entry =>
    entry.namedGraph ≠ none → isLegacyUnscopedToolResultIri entry.iri = false
  | _ => True

variable {ops : List Op} {op : Op}

theorem run_concat :
    run env toJson (ops ++ [op]) = .ok s' ↔ ∃ s, run env toJson ops = .ok s ∧ op.step env toJson s = .ok s' := by
  unfold run
  rw [foldlM_append]
  constructor
  · intro h
    obtain ⟨s, hs, h⟩ := bind_eq_ok_iff.1 h
    rw [foldlM_cons] at h
    obtain ⟨s₁, hop, h⟩ := bind_eq_ok_iff.1 h
    cases h
    exact ⟨s, hs, hop⟩
  · rintro ⟨s, hs, hop⟩
    refine bind_eq_ok_iff.2 ⟨s, hs, ?_⟩
    rw [foldlM_cons]
    exact bind_eq_ok_iff.2 ⟨s', hop, rfl⟩

variable {graph iri : String}

theorem leftBehind_concat (hrun : run env toJson ops = .ok s) (hstep : op.step env toJson s = .ok s') :
    LeftBehind env toJson graph iri (ops ++ [op]) ↔
      (s.graphOf iri = some graph ∨ LeftBehind env toJson graph iri ops) ∧
        s'.graphOf iri ≠ some graph ∧ ¬op.DeletesGraph graph := by
  constructor
  · intro h
    generalize hops : ops ++ [op] = all at h
    cases h with
    | leaves hrun' hstep' hin hout hdeletes =>
      obtain ⟨rfl, hop⟩ := append_inj' hops rfl
      obtain rfl := singleton_inj.1 hop
      obtain rfl := ok.inj (hrun.symm.trans hrun')
      obtain rfl := ok.inj (hstep.symm.trans hstep')
      exact ⟨.inl hin, hout, hdeletes⟩
    | stays h hrun' hout hdeletes =>
      obtain ⟨rfl, hop⟩ := append_inj' hops rfl
      obtain rfl := singleton_inj.1 hop
      obtain rfl := ok.inj ((run_concat.2 ⟨s, hrun, hstep⟩).symm.trans hrun')
      exact ⟨.inr h, hout, hdeletes⟩
  · rintro ⟨hin | h, hout, hdeletes⟩
    · exact .leaves hrun hstep hin hout hdeletes
    · exact .stays h (run_concat.2 ⟨s, hrun, hstep⟩) hout hdeletes

theorem not_leftBehind_nil : ¬LeftBehind env toJson graph iri [] := by
  intro h
  generalize hops : ([] : List Op) = ops at h
  cases h with
  | leaves => simp at hops
  | stays => simp at hops

/-! ### What operations do to the graphs -/

theorem graphKey_injective : Function.Injective graphKey := by
  intro a b h
  unfold graphKey at h
  have hlist := congrArg String.toList h
  rw [String.toList_append, String.toList_append] at hlist
  exact String.toList_inj.1 (append_cancel_left hlist)

/-- A step that stores: the graphs stay as they are, or an IRI enters one. -/
inductive Stores (s s' : L0Store) : Prop
  | same (hgraph : ∀ iri, s'.graphOf iri = s.graphOf iri) (htable : s'.namedGraphs = s.namedGraphs)
  | enters (iri graph : String) (hlegacy : isLegacyUnscopedToolResultIri iri = false)
      (hbefore : s.graphOf iri = none) (hafter : s'.graphOf iri = some graph)
      (hother : ∀ iri', iri' ≠ iri → s'.graphOf iri' = s.graphOf iri')
      (htable : s'.namedGraphs = s.namedGraphs.addIri (graphKey graph) iri)

/-- IRIs that cannot be read are in no graph. -/
def Plain (s : L0Store) : Prop := ∀ iri, isLegacyUnscopedToolResultIri iri = true → s.graphOf iri = none

variable {entry : L0Entry}

theorem graphOf_insert (iri' : String) : ({ s with entries := s.entries.insert iri entry } : L0Store).graphOf iri' =
      if iri' = iri then entry.namedGraph else s.graphOf iri' := by
  unfold graphOf
  split_ifs with h
  · subst h
    rw [lookup_insert]
    rfl
  · rw [lookup_insert_ne h]

variable {existing : Option L0Entry}

theorem mergedEntry_namedGraph :
    (mergedEntry env now existing entry).namedGraph = (existing.bind namedGraph).or entry.namedGraph := by
  cases existing <;> rfl

/-- The graph of what is merged with. -/
theorem Plain.existing_graph (hplain : s.Plain) (iri : String) :
    ((if isLegacyUnscopedToolResultIri iri then none else s.entries.lookup iri).bind
      namedGraph) = s.graphOf iri := by
  split_ifs with hlegacy
  · exact (hplain iri hlegacy).symm
  · rfl

theorem store_stores (hplain : s.Plain) {content : String}
    (h : s.store env now iri content = .ok s') : Stores s s' := by
  obtain ⟨entry, rfl, rfl⟩ := store_cases h
  refine .same (fun iri' => ?_) rfl
  rw [graphOf_insert, mergedEntry_namedGraph, hplain.existing_graph]
  split_ifs with heq
  · rw [heq]
    exact or_none
  · rfl

/-- What `store_entry` does to the graphs and to their table. -/
theorem storeEntry_graphs (hindexed : s.Indexed) (hplain : s.Plain) (h : s.storeEntry env now entry = .ok s') :
    (∀ iri, s'.graphOf iri = if iri = entry.iri then (s.graphOf entry.iri).or entry.namedGraph else s.graphOf iri) ∧
    s'.namedGraphs = updateNamedGraphs s.namedGraphs entry.iri (s.graphOf entry.iri)
      ((s.graphOf entry.iri).or entry.namedGraph) := by
  obtain ⟨contentHash, merged, hmerged, rfl⟩ := storeEntry_cases h
  have hexisting : ∀ e : L0Entry, _ = some e → e.iri = { entry with contentHash }.iri := hindexed.existing_iri
  have hiri : merged.iri = entry.iri := by
    rw [hmerged]
    exact mergedEntry_iri env now hexisting
  have hgraph : merged.namedGraph = (s.graphOf entry.iri).or entry.namedGraph := by
    rw [hmerged, mergedEntry_namedGraph, hplain.existing_graph]
  have hold : ((s.entries.lookup entry.iri).map namedGraph).getD none = s.graphOf entry.iri := by
    unfold graphOf
    cases s.entries.lookup entry.iri <;> rfl
  refine ⟨fun iri => ?_, ?_⟩
  · rw [← hgraph, ← hiri]
    exact graphOf_insert (s := { s with
      tagIndex := _
      namedGraphs := _ }) iri
  · rw [← hgraph, ← hold, ← hiri]

theorem storeEntry_stores (hindexed : s.Indexed) (hplain : s.Plain)
    (hentry : entry.namedGraph ≠ none → isLegacyUnscopedToolResultIri entry.iri = false)
    (h : s.storeEntry env now entry = .ok s') : Stores s s' := by
  obtain ⟨hgraph, htable⟩ := storeEntry_graphs hindexed hplain h
  cases hbefore : s.graphOf entry.iri with
  | some graph =>
    rw [hbefore, some_or] at hgraph htable
    refine .same (fun iri => ?_) ?_
    · rw [hgraph]
      split_ifs with heq
      · rw [heq, hbefore]
      · rfl
    · rw [htable]
      exact if_neg (not_not.2 rfl)
  | none =>
    rw [hbefore, none_or] at hgraph htable
    cases hafter : entry.namedGraph with
    | none =>
      rw [hafter] at hgraph htable
      refine .same (fun iri => ?_) ?_
      · rw [hgraph]
        split_ifs with heq
        · rw [heq, hbefore]
        · rfl
      · rw [htable]
        exact if_neg (not_not.2 rfl)
    | some graph =>
      rw [hafter] at hgraph htable
      refine .enters entry.iri graph (hentry (by rw [hafter]; exact some_ne_none graph))
        hbefore ?_ (fun iri hne => ?_) ?_
      · rw [hgraph, if_pos rfl]
      · rw [hgraph, if_neg hne]
      · rw [htable]
        exact if_pos (some_ne_none graph).symm

theorem storeEntry_entries (hindexed : s.Indexed) (h : s.storeEntry env now entry = .ok s') :
    ∃ merged, s'.entries = s.entries.insert entry.iri merged := by
  obtain ⟨contentHash, merged, hmerged, rfl⟩ := storeEntry_cases h
  have hexisting : ∀ e : L0Entry, _ = some e → e.iri = { entry with contentHash }.iri := hindexed.existing_iri
  refine ⟨merged, ?_⟩
  rw [← show merged.iri = entry.iri by rw [hmerged]; exact mergedEntry_iri env now hexisting]

/-- A step that changes no graph, and stores and deletes nothing. -/
structure Keeps (s s' : L0Store) : Prop where
  graph : ∀ iri, s'.graphOf iri = s.graphOf iri
  stored : ∀ iri, (s'.entries.lookup iri).isSome = (s.entries.lookup iri).isSome
  table : s'.namedGraphs = s.namedGraphs
  indexed : s'.Indexed
  writable : s'.writable = s.writable

theorem Keeps.refl (h : s.Indexed) : Keeps s s where
  graph _ := rfl
  stored _ := rfl
  table := rfl
  indexed := h
  writable := rfl

theorem Keeps.trans {s₁ s₂ s₃ : L0Store} (h₁ : Keeps s₁ s₂) (h₂ : Keeps s₂ s₃) : Keeps s₁ s₃ where
  graph iri := (h₂.graph iri).trans (h₁.graph iri)
  stored iri := (h₂.stored iri).trans (h₁.stored iri)
  table := h₂.table.trans h₁.table
  indexed := h₂.indexed
  writable := h₂.writable.trans h₁.writable

/-- Storing an entry over one of the same graph. -/
theorem storeEntry_keeps (hindexed : s.Indexed) (hplain : s.Plain) (hgraph : entry.namedGraph = s.graphOf entry.iri)
    (hstored : (s.entries.lookup entry.iri).isSome = true) (h : s.storeEntry env now entry = .ok s') : Keeps s s' := by
  obtain ⟨hgraphs, htable⟩ := storeEntry_graphs hindexed hplain h
  have hor : (s.graphOf entry.iri).or entry.namedGraph = s.graphOf entry.iri := by
    rw [hgraph]
    cases s.graphOf entry.iri <;> rfl
  rw [hor] at hgraphs htable
  refine ⟨fun iri => ?_, fun iri => ?_, ?_, hindexed.storeEntry h, ?_⟩
  · rw [hgraphs]
    split_ifs with heq
    · rw [heq]
    · rfl
  · obtain ⟨merged, hentries⟩ := storeEntry_entries hindexed h
    rw [hentries]
    by_cases heq : iri = entry.iri
    · rw [heq, lookup_insert, hstored]
      rfl
    · rw [lookup_insert_ne heq]
  · rw [htable]
    exact if_neg (not_not.2 rfl)
  · obtain ⟨contentHash, merged, -, rfl⟩ := storeEntry_cases h
    rfl

theorem fromSlice_eq {stored : L0Entry} (h : fromSlice env stored = .ok entry) : entry = stored := by
  unfold fromSlice at h
  split_ifs at h
  exact (ok.inj h).symm

theorem retrieve_keeps (hindexed : s.Indexed) (hplain : s.Plain) {found : Option L0Entry}
    (h : s.retrieve env now iri = .ok (found, s')) :
    Keeps s s' ∧ found.map L0Entry.iri =
      if isLegacyUnscopedToolResultIri iri = false ∧ (s.entries.lookup iri).isSome = true
      then some iri else none := by
  unfold retrieve at h
  by_cases hlegacy : isLegacyUnscopedToolResultIri iri = true
  · rw [if_pos hlegacy] at h
    cases h
    exact ⟨.refl hindexed, by simp [hlegacy]⟩
  · rw [if_neg hlegacy] at h
    cases hlookup : s.entries.lookup iri with
    | none =>
      rw [hlookup] at h
      cases h
      exact ⟨.refl hindexed, by simp⟩
    | some stored =>
      rw [hlookup] at h
      obtain ⟨entry, hread, haccess⟩ := bind_eq_ok_iff.1 h
      obtain rfl := fromSlice_eq hread
      have hiri := hindexed.iri_eq hlookup
      rw [if_pos ⟨by simpa using hlegacy, rfl⟩, ← hiri]
      split_ifs at haccess
      · obtain ⟨s₁, hstore, haccess⟩ := bind_eq_ok_iff.1 haccess
        cases haccess
        refine ⟨storeEntry_keeps hindexed hplain ?_ ?_ hstore, rfl⟩
        · show entry.namedGraph = s.graphOf entry.iri
          rw [hiri]
          unfold graphOf
          rw [hlookup]
          rfl
        · show (s.entries.lookup entry.iri).isSome = true
          rw [hiri, hlookup]
          rfl
      · cases haccess
        exact ⟨.refl hindexed, rfl⟩

/-- What is retrieved is all that changes. -/
theorem retrieve_other (hindexed : s.Indexed) {iri' : String} {found : Option L0Entry}
    (h : s.retrieve env now iri = .ok (found, s')) (hne : iri' ≠ iri) :
    s'.entries.lookup iri' = s.entries.lookup iri' := by
  unfold retrieve at h
  by_cases hlegacy : isLegacyUnscopedToolResultIri iri = true
  · rw [if_pos hlegacy] at h
    rw [(Prod.mk.inj (ok.inj h)).2]
  · rw [if_neg hlegacy] at h
    cases hlookup : s.entries.lookup iri with
    | none =>
      rw [hlookup] at h
      rw [(Prod.mk.inj (ok.inj h)).2]
    | some stored =>
      rw [hlookup] at h
      obtain ⟨entry, hread, haccess⟩ := bind_eq_ok_iff.1 h
      obtain rfl := fromSlice_eq hread
      split_ifs at haccess
      · obtain ⟨s₁, hstore, haccess⟩ := bind_eq_ok_iff.1 haccess
        rw [← (Prod.mk.inj (ok.inj haccess)).2]
        obtain ⟨merged, hentries⟩ := storeEntry_entries hindexed hstore
        rw [hentries]
        refine lookup_insert_ne ?_
        show iri' ≠ entry.iri
        rw [hindexed.iri_eq hlookup]
        exact hne
      · rw [(Prod.mk.inj (ok.inj haccess)).2]

theorem Keeps.plain (h : Keeps s s') (hplain : s.Plain) : s'.Plain := fun iri hlegacy =>
  (h.graph iri).trans (hplain iri hlegacy)

variable {found : List L0Entry} {iris : List String}

/-- What `query_by_named_graph` returns of the IRIs that are listed. -/
theorem retrieveAll_keeps (hindexed : s.Indexed) (hplain : s.Plain) (h : retrieveAll env now s iris = .ok (found, s')) :
    Keeps s s' ∧ found.map L0Entry.iri = iris.filter fun iri =>
      !isLegacyUnscopedToolResultIri iri && (s.entries.lookup iri).isSome := by
  induction iris generalizing s found with
  | nil =>
    cases h
    exact ⟨.refl hindexed, rfl⟩
  | cons iri iris ih =>
    unfold retrieveAll at h
    obtain ⟨⟨first, s₁⟩, hfirst, h⟩ := bind_eq_ok_iff.1 h
    obtain ⟨⟨rest, s₂⟩, hrest, h⟩ := bind_eq_ok_iff.1 h
    cases h
    obtain ⟨hkeeps, hiri⟩ := retrieve_keeps hindexed hplain hfirst
    obtain ⟨hkeeps', hiris⟩ := ih hkeeps.indexed (hkeeps.plain hplain) hrest
    refine ⟨hkeeps.trans hkeeps', ?_⟩
    have htoList : first.toList.map L0Entry.iri = (first.map L0Entry.iri).toList := by
      cases first <;> rfl
    rw [map_append, hiris, htoList, hiri, filter_cons]
    simp only [hkeeps.stored]
    split_ifs with h₁ h₂ h₂
    · rfl
    · exact absurd (by simpa using h₁) h₂
    · exact absurd (by simpa using h₂) h₁
    · rfl

theorem retrieveAll_other (hindexed : s.Indexed) (hplain : s.Plain) (h : retrieveAll env now s iris = .ok (found, s'))
    (hnotMem : iri ∉ iris) : s'.entries.lookup iri = s.entries.lookup iri := by
  induction iris generalizing s found with
  | nil => rw [(Prod.mk.inj (ok.inj h)).2]
  | cons first iris ih =>
    unfold retrieveAll at h
    obtain ⟨⟨entry, s₁⟩, hfirst, h⟩ := bind_eq_ok_iff.1 h
    obtain ⟨⟨rest, s₂⟩, hrest, h⟩ := bind_eq_ok_iff.1 h
    obtain ⟨-, rfl⟩ := Prod.mk.inj (ok.inj h)
    rw [mem_cons, not_or] at hnotMem
    obtain ⟨hne, hnotMem⟩ := hnotMem
    obtain ⟨hkeeps, -⟩ := retrieve_keeps hindexed hplain hfirst
    rw [ih hkeeps.indexed (hkeeps.plain hplain) hrest hnotMem, retrieve_other hindexed hfirst hne]

theorem delete_cases {removed : Bool} (h : s.delete env iri = .ok (removed, s')) :
    s'.entries = s.entries.erase iri ∧ s'.namedGraphs = s.namedGraphs ∧ s'.writable = s.writable := by
  unfold L0Store.delete at h
  obtain ⟨-, -, h⟩ := bind_eq_ok_iff.1 h
  obtain ⟨oldTags, -, h⟩ := bind_eq_ok_iff.1 h
  obtain ⟨-, rfl⟩ := Prod.mk.inj (ok.inj h)
  exact ⟨rfl, rfl, rfl⟩

theorem deleteAll_cases (hindexed : s.Indexed) (h : deleteAll env s found = .ok s') :
    s'.Indexed ∧ s'.namedGraphs = s.namedGraphs ∧ s'.writable = s.writable ∧
      ∀ iri, s'.entries.lookup iri = if iri ∈ found.map L0Entry.iri then none else s.entries.lookup iri := by
  induction found generalizing s with
  | nil =>
    cases h
    exact ⟨hindexed, rfl, rfl, fun iri => by simp⟩
  | cons entry found ih =>
    unfold deleteAll at h
    obtain ⟨⟨removed, s₁⟩, hdelete, h⟩ := bind_eq_ok_iff.1 h
    obtain ⟨hentries, htable, hwritable⟩ := delete_cases hdelete
    obtain ⟨hindexed', htable', hwritable', hlookup⟩ := ih (hindexed.delete hdelete) h
    refine ⟨hindexed', htable'.trans htable, hwritable'.trans hwritable, fun iri => ?_⟩
    rw [hlookup, hentries, map_cons]
    by_cases hin : iri ∈ found.map L0Entry.iri
    · rw [if_pos hin, if_pos (mem_cons_of_mem _ hin)]
    · rw [if_neg hin]
      by_cases heq : iri = entry.iri
      · rw [heq, lookup_erase, if_pos mem_cons_self]
      · rw [lookup_erase_ne heq, if_neg]
        rintro (⟨⟩ | ⟨_, htail⟩)
        · exact heq rfl
        · exact hin htail

/-! ### The table along a run -/

/-- What an operation does: it stores, IRIs are deleted, or a graph is. -/
inductive Op.Does (op : Op) (s s' : L0Store) : Prop
  | stores (h : Stores s s') (hdeletes : ∀ graph, ¬op.DeletesGraph graph)
  | drops (gone : List String)
      (hgraph : ∀ iri, s'.graphOf iri = if iri ∈ gone then none else s.graphOf iri)
      (htable : s'.namedGraphs = s.namedGraphs) (hdeletes : ∀ graph, ¬op.DeletesGraph graph)
  | dropsGraph (graph : String)
      (hgraph : ∀ iri, s'.graphOf iri = if iri ∈ s.namedGraphs.iris (graphKey graph) then none else s.graphOf iri)
      (htable : s'.namedGraphs = s.namedGraphs.erase (graphKey graph))
      (hdeletes : ∀ graph', op.DeletesGraph graph' ↔ graph' = graph)

theorem graphOf_of_lookup_none (h : (s.entries.lookup iri).isSome = false) : s.graphOf iri = none := by
  unfold graphOf
  rw [isSome_eq_false_iff, isNone_iff_eq_none] at h
  rw [h]
  rfl

theorem Keeps.stores (h : Keeps s s') : Stores s s' := .same h.graph h.table

theorem queryByNamedGraph_eq (graph : String) : s.queryByNamedGraph env now graph =
    retrieveAll env now s (s.namedGraphs.iris (graphKey graph)) := by
  unfold queryByNamedGraph iris
  cases s.namedGraphs.lookup (graphKey graph) <;> rfl

theorem queryByNamedGraph_keeps (hindexed : s.Indexed) (hplain : s.Plain)
    (h : s.queryByNamedGraph env now graph = .ok (found, s')) :
    Keeps s s' ∧ found.map L0Entry.iri = (s.namedGraphs.iris (graphKey graph)).filter fun iri =>
      !isLegacyUnscopedToolResultIri iri && (s.entries.lookup iri).isSome := by
  rw [queryByNamedGraph_eq] at h
  exact retrieveAll_keeps hindexed hplain h

variable {n : ℕ}

theorem deleteNamedGraph_steps (h : s.deleteNamedGraph env now graph = .ok (n, s')) :
    ∃ found s₁ s₂, s.queryByNamedGraph env now graph = .ok (found, s₁) ∧ deleteAll env s₁ found = .ok s₂ ∧
      s' = { s₂ with namedGraphs := s₂.namedGraphs.erase (graphKey graph) } := by
  unfold deleteNamedGraph at h
  obtain ⟨-, -, h⟩ := bind_eq_ok_iff.1 h
  obtain ⟨⟨found, s₁⟩, hquery, h⟩ := bind_eq_ok_iff.1 h
  obtain ⟨s₂, hdelete, h⟩ := bind_eq_ok_iff.1 h
  exact ⟨found, s₁, s₂, hquery, hdelete, (Prod.mk.inj (ok.inj h)).2.symm⟩

theorem deleteNamedGraph_cases (hindexed : s.Indexed) (hplain : s.Plain)
    (h : s.deleteNamedGraph env now graph = .ok (n, s')) :
    ∃ found s₁, s.queryByNamedGraph env now graph = .ok (found, s₁) ∧ Keeps s s₁ ∧
      s'.Indexed ∧ s'.namedGraphs = s.namedGraphs.erase (graphKey graph) ∧
      s'.writable = s.writable ∧ ∀ iri, s'.entries.lookup iri =
        if iri ∈ found.map L0Entry.iri then none else s₁.entries.lookup iri := by
  obtain ⟨found, s₁, s₂, hquery, hdelete, rfl⟩ := deleteNamedGraph_steps h
  obtain ⟨hkeeps, -⟩ := queryByNamedGraph_keeps hindexed hplain hquery
  obtain ⟨hindexed₂, htable, hwritable, hlookup⟩ := deleteAll_cases hkeeps.indexed hdelete
  refine ⟨found, s₁, hquery, hkeeps, ⟨hindexed₂.iri_eq, hindexed₂.posting_iff, hindexed₂.proper⟩, ?_,
    hwritable.trans hkeeps.writable, hlookup⟩
  show s₂.namedGraphs.erase (graphKey graph) = _
  rw [htable, hkeeps.table]

theorem deleteNamedGraph_graphOf (hindexed : s.Indexed) (hplain : s.Plain)
    (h : s.deleteNamedGraph env now graph = .ok (n, s')) (iri : String) :
    s'.graphOf iri = if iri ∈ s.namedGraphs.iris (graphKey graph) then none else s.graphOf iri := by
  obtain ⟨found, s₁, hquery, hkeeps, -, -, -, hlookup⟩ := deleteNamedGraph_cases hindexed hplain h
  obtain ⟨-, hfound⟩ := queryByNamedGraph_keeps hindexed hplain hquery
  rw [hfound] at hlookup
  have hbefore := hkeeps.graph iri
  unfold graphOf at hbefore ⊢
  rw [hlookup]
  by_cases hin : iri ∈ s.namedGraphs.iris (graphKey graph)
  · rw [if_pos hin]
    split_ifs with hboth
    · rfl
    · -- What is listed but not found is in no graph.
      rw [hbefore]
      have hnot : isLegacyUnscopedToolResultIri iri = true ∨ (s.entries.lookup iri).isSome = false := by
        by_contra hcontra
        rw [not_or, Bool.not_eq_true, Bool.not_eq_false] at hcontra
        exact hboth (mem_filter.2 ⟨hin, by simp [hcontra.1, hcontra.2]⟩)
      rcases hnot with hlegacy | hstored
      · exact hplain iri hlegacy
      · exact graphOf_of_lookup_none hstored
  · rw [if_neg hin, if_neg fun hboth => hin (mem_filter.1 hboth).1, hbefore]

/-- The invariant: the table lists what is in a graph, and what it has left behind. -/
structure GraphIndexed (env : L0Env) (toJson : Value → String) (ops : List Op) (s : L0Store) : Prop where
  indexed : s.Indexed
  plain : s.Plain
  mem_iff : ∀ graph iri, iri ∈ s.namedGraphs.iris (graphKey graph) ↔
    s.graphOf iri = some graph ∨ LeftBehind env toJson graph iri ops
  proper : s.namedGraphs.Proper
  not_legacy : ∀ graph iri, iri ∈ s.namedGraphs.iris (graphKey graph) → isLegacyUnscopedToolResultIri iri = false
  writable : s.writable = true

theorem storeJsonldNode_cases {node : Value} (h : s.storeJsonldNode env toJson now node = .ok (iri, s')) :
    ∃ members existing, s.retrieveWithoutUpdate env iri = .ok existing ∧
      s.storeEntry env now (documentEntry env toJson now existing iri members) = .ok s' := by
  unfold storeJsonldNode at h
  obtain ⟨-, -, h⟩ := bind_eq_ok_iff.1 h
  cases node with
  | object members =>
    simp only at h
    cases hid : (members.lookup "@id").bind Value.asStr with
    | none =>
      rw [hid] at h
      cases h
    | some iri' =>
      rw [hid] at h
      obtain ⟨existing, hexisting, h⟩ := bind_eq_ok_iff.1 h
      obtain ⟨s₁, hstore, h⟩ := bind_eq_ok_iff.1 h
      cases h
      exact ⟨members, existing, hexisting, hstore⟩
  | _ => cases h

theorem updateMesiState_cases {state : MesiState} (h : s.updateMesiState env now iri state = .ok s') :
    ∃ stored, s.entries.lookup iri = some stored ∧
      s.storeEntry env now { stored with mesiState := state } = .ok s' := by
  unfold updateMesiState at h
  obtain ⟨-, -, h⟩ := bind_eq_ok_iff.1 h
  cases hlookup : s.entries.lookup iri with
  | none =>
    rw [hlookup] at h
    cases h
  | some stored =>
    rw [hlookup] at h
    obtain ⟨entry, hread, hstore⟩ := bind_eq_ok_iff.1 h
    obtain rfl := fromSlice_eq hread
    exact ⟨entry, rfl, hstore⟩

theorem Indexed.retrieveAll (hindexed : s.Indexed) (h : retrieveAll env now s iris = .ok (found, s')) : s'.Indexed := by
  induction iris generalizing s found with
  | nil =>
    obtain ⟨-, rfl⟩ := Prod.mk.inj (ok.inj h)
    exact hindexed
  | cons iri iris ih =>
    unfold L0Store.retrieveAll at h
    obtain ⟨⟨first, s₁⟩, hfirst, h⟩ := bind_eq_ok_iff.1 h
    obtain ⟨⟨rest, s₂⟩, hrest, h⟩ := bind_eq_ok_iff.1 h
    obtain ⟨-, rfl⟩ := Prod.mk.inj (ok.inj h)
    rcases retrieve_cases hfirst with rfl | ⟨entry, hstore⟩
    · exact ih hindexed hrest
    · exact ih (hindexed.storeEntry hstore) hrest

theorem Indexed.step (hindexed : s.Indexed) (h : op.step env toJson s = .ok s') : s'.Indexed := by
  cases op with
  | store now iri content => exact hindexed.store h
  | storeEntry now entry => exact hindexed.storeEntry h
  | storeJsonldNode now node =>
    obtain ⟨iri, hstore⟩ := snd_map_eq_ok_iff.1 h
    obtain ⟨members, existing, -, hstore⟩ := storeJsonldNode_cases hstore
    exact hindexed.storeEntry hstore
  | updateMesiState now iri state =>
    obtain ⟨stored, -, hstore⟩ := updateMesiState_cases h
    exact hindexed.storeEntry hstore
  | retrieve now iri =>
    obtain ⟨found, hretrieve⟩ := snd_map_eq_ok_iff.1 h
    rcases retrieve_cases hretrieve with rfl | ⟨entry, hstore⟩
    · exact hindexed
    · exact hindexed.storeEntry hstore
  | queryByNamedGraph now graph =>
    obtain ⟨found, hquery⟩ := snd_map_eq_ok_iff.1 h
    rw [queryByNamedGraph_eq] at hquery
    exact hindexed.retrieveAll hquery
  | delete iri =>
    obtain ⟨removed, hdelete⟩ := snd_map_eq_ok_iff.1 h
    exact hindexed.delete hdelete
  | deleteNamedGraph now graph =>
    obtain ⟨n, hdelete⟩ := snd_map_eq_ok_iff.1 h
    obtain ⟨found, s₁, s₂, hquery, hdeleteAll, rfl⟩ := deleteNamedGraph_steps hdelete
    rw [queryByNamedGraph_eq] at hquery
    obtain ⟨hindexed', -⟩ := deleteAll_cases (hindexed.retrieveAll hquery) hdeleteAll
    exact ⟨hindexed'.iri_eq, hindexed'.posting_iff, hindexed'.proper⟩

/-- Every state is indexed, after any operations. -/
theorem Indexed.of_run (h : run env toJson ops = .ok s) : s.Indexed := by
  induction ops using reverseRecOn generalizing s with
  | nil =>
    cases h
    exact .new true
  | append_singleton ops op ih =>
    obtain ⟨s₁, hrun, hstep⟩ := run_concat.1 h
    exact (ih hrun).step hstep

variable {members : List (String × Value)}

theorem documentEntry_namedGraph :
    (documentEntry env toJson now existing iri members).namedGraph = existing.bind namedGraph := by
  cases existing <;> rfl

theorem documentEntry_iri : (documentEntry env toJson now existing iri members).iri = iri := by
  cases existing <;> rfl

/-- Storing an entry that keeps its graph. -/
theorem Op.does_of_storeEntry (hindexed : s.Indexed) (hplain : s.Plain)
    (hentry : entry.namedGraph ≠ none → isLegacyUnscopedToolResultIri entry.iri = false)
    (hdeletes : ∀ graph, ¬op.DeletesGraph graph) (h : s.storeEntry env now entry = .ok s') :
    op.Does s s' ∧ s'.Indexed ∧ s'.writable = s.writable := by
  refine ⟨.stores (storeEntry_stores hindexed hplain hentry h) hdeletes, hindexed.storeEntry h, ?_⟩
  obtain ⟨contentHash, merged, -, rfl⟩ := storeEntry_cases h
  rfl

theorem Plain.not_legacy (hplain : s.Plain) (h : s.graphOf iri ≠ none) : isLegacyUnscopedToolResultIri iri = false := by
  rw [Bool.eq_false_iff]
  exact fun hlegacy => h (hplain iri hlegacy)

theorem Op.does_of_step (hindexed : s.Indexed) (hplain : s.Plain) (hreadable : op.IsReadable)
    (h : op.step env toJson s = .ok s') : op.Does s s' ∧ s'.Indexed ∧ s'.writable = s.writable := by
  cases op with
  | store now iri content =>
    refine ⟨.stores (store_stores hplain h) fun _ => id, hindexed.store h, ?_⟩
    obtain ⟨entry, rfl, -⟩ := store_cases h
    rfl
  | storeEntry now entry => exact does_of_storeEntry hindexed hplain hreadable (fun _ => id) h
  | storeJsonldNode now node =>
    obtain ⟨iri, hnode⟩ := snd_map_eq_ok_iff.1 h
    obtain ⟨members, existing, hexisting, hstore⟩ := storeJsonldNode_cases hnode
    refine does_of_storeEntry hindexed hplain ?_ (fun _ => id) hstore
    rw [documentEntry_namedGraph, documentEntry_iri, retrieveWithoutUpdate_eq hexisting, hplain.existing_graph]
    exact hplain.not_legacy
  | updateMesiState now iri state =>
    obtain ⟨stored, hlookup, hstore⟩ := updateMesiState_cases h
    refine does_of_storeEntry hindexed hplain ?_ (fun _ => id) hstore
    show stored.namedGraph ≠ none → isLegacyUnscopedToolResultIri stored.iri = false
    rw [hindexed.iri_eq hlookup]
    intro hgraph
    apply hplain.not_legacy
    unfold graphOf
    rw [hlookup]
    exact hgraph
  | retrieve now iri =>
    obtain ⟨found, hretrieve⟩ := snd_map_eq_ok_iff.1 h
    obtain ⟨hkeeps, -⟩ := retrieve_keeps hindexed hplain hretrieve
    exact ⟨.stores hkeeps.stores fun _ => id, hkeeps.indexed, hkeeps.writable⟩
  | queryByNamedGraph now graph =>
    obtain ⟨found, hquery⟩ := snd_map_eq_ok_iff.1 h
    obtain ⟨hkeeps, -⟩ := queryByNamedGraph_keeps hindexed hplain hquery
    exact ⟨.stores hkeeps.stores fun _ => id, hkeeps.indexed, hkeeps.writable⟩
  | delete iri =>
    obtain ⟨removed, hdelete⟩ := snd_map_eq_ok_iff.1 h
    obtain ⟨hentries, htable, hwritable⟩ := delete_cases hdelete
    refine ⟨.drops [iri] (fun iri' => ?_) htable fun _ => id, hindexed.delete hdelete, hwritable⟩
    unfold graphOf
    rw [hentries]
    by_cases heq : iri' = iri
    · rw [heq, lookup_erase, if_pos (mem_singleton_self iri)]
      rfl
    · rw [lookup_erase_ne heq, if_neg (fun hin => heq (mem_singleton.1 hin))]
  | deleteNamedGraph now graph =>
    obtain ⟨n, hdelete⟩ := snd_map_eq_ok_iff.1 h
    obtain ⟨-, -, -, -, hindexed', htable, hwritable, -⟩ := deleteNamedGraph_cases hindexed hplain hdelete
    exact ⟨.dropsGraph graph (deleteNamedGraph_graphOf hindexed hplain hdelete) htable
      fun graph' => eq_comm, hindexed', hwritable⟩

/-- **One step** keeps the invariant. -/
theorem GraphIndexed.step {ops : List Op} (h : GraphIndexed env toJson ops s) (hrun : run env toJson ops = .ok s)
    (hreadable : op.IsReadable) (hstep : op.step env toJson s = .ok s') : GraphIndexed env toJson (ops ++ [op]) s' := by
  obtain ⟨hdoes, hindexed, hwritable⟩ := Op.does_of_step h.indexed h.plain hreadable hstep
  have hleft : ∀ graph iri, LeftBehind env toJson graph iri (ops ++ [op]) ↔ _ := fun _ _ => leftBehind_concat hrun hstep
  have hmem := h.mem_iff
  cases hdoes with
  | stores hstores hdeletes =>
    cases hstores with
    | same hgraph htable =>
      refine ⟨hindexed, fun iri hlegacy => ?_, fun graph iri => ?_, ?_, ?_, hwritable.trans h.writable⟩
      · rw [hgraph, h.plain iri hlegacy]
      · rw [hleft, hgraph, htable, hmem]
        have := hdeletes graph
        tauto
      · rw [htable]
        exact h.proper
      · rw [htable]
        exact h.not_legacy
    | enters iri graph hlegacy hbefore hafter hother htable =>
      refine ⟨hindexed, fun iri' hlegacy' => ?_, fun graph' iri' => ?_, ?_, ?_, hwritable.trans h.writable⟩
      · rw [hother iri' fun heq => ?_, h.plain iri' hlegacy']
        rw [heq, hlegacy] at hlegacy'
        cases hlegacy'
      · rw [hleft, htable, mem_iris_addIri, graphKey_injective.eq_iff, hmem]
        have hdelete := hdeletes graph'
        by_cases heq : iri' = iri
        · rw [heq, hbefore, hafter, ne_eq, some_inj, eq_comm (a := graph)]
          simp only [reduceCtorEq, false_or, and_true]
          tauto
        · rw [hother iri' heq]
          tauto
      · rw [htable]
        exact h.proper.addIri _ _
      · intro graph' iri' hin
        rw [htable, mem_iris_addIri] at hin
        rcases hin with ⟨-, rfl⟩ | hin
        · exact hlegacy
        · exact h.not_legacy graph' iri' hin
  | drops gone hgraph htable hdeletes =>
    refine ⟨hindexed, fun iri hlegacy => ?_, fun graph iri => ?_, ?_, ?_, hwritable.trans h.writable⟩
    · rw [hgraph, h.plain iri hlegacy, ite_self]
    · rw [hleft, hgraph, htable, hmem]
      have := hdeletes graph
      split_ifs
      · simp only [reduceCtorEq, ne_eq, not_false_eq_true, false_or, this, and_true]
      · tauto
    · rw [htable]
      exact h.proper
    · rw [htable]
      exact h.not_legacy
  | dropsGraph graph hgraph htable hdeletes =>
    refine ⟨hindexed, fun iri hlegacy => ?_, fun graph' iri => ?_, ?_, ?_, hwritable.trans h.writable⟩
    · rw [hgraph, h.plain iri hlegacy, ite_self]
    · rw [hleft, hgraph, htable, hdeletes]
      unfold iris at hmem ⊢
      by_cases heq : graph' = graph
      · subst heq
        rw [lookup_erase]
        split_ifs with hin
        · simp
        · rw [hmem] at hin
          simp only [getD_none, not_mem_nil, not_true_eq_false, and_false, or_false, false_iff]
          exact fun hgraph' => hin (.inl hgraph')
      · rw [lookup_erase_ne (fun hkey => heq (graphKey_injective hkey)), hmem]
        split_ifs
        · simp [heq]
        · tauto
    · intro key iris hkey
      rw [htable] at hkey
      by_cases heq : key = graphKey graph
      · rw [heq, lookup_erase] at hkey
        cases hkey
      · rw [lookup_erase_ne heq] at hkey
        exact h.proper key iris hkey
    · intro graph' iri hin
      apply h.not_legacy graph' iri
      rw [htable] at hin
      unfold iris at hin ⊢
      by_cases heq : graphKey graph' = graphKey graph
      · rw [heq, lookup_erase] at hin
        cases hin
      · rwa [lookup_erase_ne heq] at hin

/-- **Every run** keeps it. -/
theorem GraphIndexed.of_run (hops : ∀ op ∈ ops, op.IsReadable) (hrun : run env toJson ops = .ok s) :
    GraphIndexed env toJson ops s := by
  induction ops using reverseRecOn generalizing s with
  | nil =>
    cases hrun
    refine ⟨.new true, fun _ _ => rfl, fun graph iri => ?_, ?_, ?_, rfl⟩
    · have : ¬LeftBehind env toJson graph iri [] := not_leftBehind_nil
      constructor
      · intro hin
        cases hin
      · rintro (hin | hin)
        · cases hin
        · exact absurd hin this
    · intro key iris hkey
      cases hkey
    · intro graph iri hin
      cases hin
  | append_singleton ops op ih =>
    obtain ⟨s₁, hrun₁, hstep⟩ := run_concat.1 hrun
    refine (ih (fun op' hop' => hops op' ?_) hrun₁).step hrun₁ (hops op ?_) hstep
    · exact mem_append_left _ hop'
    · exact mem_append_right _ (mem_singleton_self op)

/-! ### Exact answers -/

/-- The access that a query stores: the importance of what it returns is averaged with itself. -/
theorem retrieve_importance (hindexed : s.Indexed) (hwritable : s.writable = true)
    (hlegacy : isLegacyUnscopedToolResultIri iri = false) {found : Option L0Entry}
    (h : s.retrieve env now iri = .ok (found, s')) :
    (∀ entry, s.entries.lookup iri = some entry → entry.importance.isFinite = true) ∧
      ∀ iri', (s'.entries.lookup iri').map importance =
        if iri' = iri then
          (s.entries.lookup iri').map fun entry => env.mean entry.importance entry.importance
        else (s.entries.lookup iri').map importance := by
  unfold retrieve at h
  rw [if_neg (by simp [hlegacy])] at h
  cases hlookup : s.entries.lookup iri with
  | none =>
    rw [hlookup] at h
    obtain ⟨-, rfl⟩ := Prod.mk.inj (ok.inj h)
    refine ⟨fun _ h => (nomatch h), fun iri' => ?_⟩
    split_ifs with heq
    · rw [heq, hlookup]
      rfl
    · rfl
  | some stored =>
    rw [hlookup] at h
    obtain ⟨entry, hread, haccess⟩ := bind_eq_ok_iff.1 h
    have hfinite : stored.importance.isFinite = true := by
      unfold fromSlice at hread
      split_ifs at hread with hfinite
      exact hfinite
    obtain rfl := fromSlice_eq hread
    obtain rfl := hindexed.iri_eq hlookup
    rw [if_pos hwritable] at haccess
    obtain ⟨s₁, hstore, haccess⟩ := bind_eq_ok_iff.1 haccess
    obtain ⟨-, rfl⟩ := Prod.mk.inj (ok.inj haccess)
    refine ⟨fun e he => some.inj he ▸ hfinite, fun iri' => ?_⟩
    obtain ⟨contentHash, merged, hmerged, rfl⟩ := storeEntry_cases hstore
    rw [if_neg (by simp [hlegacy]), hlookup] at hmerged
    show ((s.entries.insert merged.iri merged).lookup iri').map _ = _
    rw [show merged.iri = entry.iri by rw [hmerged]; rfl]
    split_ifs with heq
    · rw [heq, lookup_insert, hlookup, hmerged]
      rfl
    · rw [lookup_insert_ne heq]

theorem retrieveAll_importance (hindexed : s.Indexed) (hplain : s.Plain)
    (hwritable : s.writable = true) (hnodup : iris.Nodup)
    (hlegacy : ∀ iri ∈ iris, isLegacyUnscopedToolResultIri iri = false)
    (h : retrieveAll env now s iris = .ok (found, s')) :
    (∀ iri ∈ iris, ∀ entry, s.entries.lookup iri = some entry → entry.importance.isFinite = true) ∧
      ∀ iri, (s'.entries.lookup iri).map L0Entry.importance =
        if iri ∈ iris then
          (s.entries.lookup iri).map fun entry => env.mean entry.importance entry.importance
        else (s.entries.lookup iri).map L0Entry.importance := by
  induction iris generalizing s found with
  | nil =>
    obtain ⟨-, rfl⟩ := Prod.mk.inj (ok.inj h)
    exact ⟨fun iri hin => (nomatch hin), fun iri => by simp⟩
  | cons iri iris ih =>
    unfold retrieveAll at h
    obtain ⟨⟨first, s₁⟩, hfirst, h⟩ := bind_eq_ok_iff.1 h
    obtain ⟨⟨rest, s₂⟩, hrest, h⟩ := bind_eq_ok_iff.1 h
    obtain ⟨-, rfl⟩ := Prod.mk.inj (ok.inj h)
    obtain ⟨hnotMem, hnodup⟩ := nodup_cons.1 hnodup
    rw [forall_mem_cons] at hlegacy
    obtain ⟨hkeeps, -⟩ := retrieve_keeps hindexed hplain hfirst
    obtain ⟨hfinite, himportance⟩ := retrieve_importance hindexed hwritable hlegacy.1 hfirst
    obtain ⟨hfinite', himportance'⟩ := ih hkeeps.indexed (hkeeps.plain hplain)
      (hkeeps.writable.trans hwritable) hnodup hlegacy.2 hrest
    refine ⟨?_, fun iri' => ?_⟩
    · rintro iri' (⟨⟩ | ⟨_, hin⟩) entry hentry
      · exact hfinite entry hentry
      · have hne : iri' ≠ iri := fun heq => hnotMem (heq ▸ hin)
        have hsame := himportance iri'
        rw [if_neg hne, hentry] at hsame
        obtain ⟨entry', hentry', heq⟩ := map_eq_some_iff.1 hsame
        rw [← heq]
        exact hfinite' iri' hin entry' hentry'
    · rw [himportance']
      by_cases heq : iri' = iri
      · rw [if_neg (heq ▸ hnotMem), himportance, if_pos heq, if_pos (heq ▸ mem_cons_self)]
      · have hsame := himportance iri'
        rw [if_neg heq] at hsame
        have hmean := congrArg (Option.map fun x => env.mean x x) hsame
        rw [Option.map_map, Option.map_map] at hmean
        change (s₁.entries.lookup iri').map (fun entry => env.mean entry.importance entry.importance) =
          (s.entries.lookup iri').map _ at hmean
        rw [hmean, hsame]
        by_cases hin : iri' ∈ iris
        · rw [if_pos hin, if_pos (mem_cons_of_mem iri hin)]
          rfl
        · rw [if_neg hin, if_neg fun h => (mem_cons.1 h).elim heq hin]

theorem delete_ok_iff (hwritable : s.writable = true) : (∃ result, s.delete env iri = .ok result) ↔
      ∀ entry, s.entries.lookup iri = some entry → entry.importance.isFinite = true := by
  unfold L0Store.delete assertWritable
  rw [if_pos hwritable]
  constructor
  · rintro ⟨result, h⟩ entry hlookup
    obtain ⟨-, -, h⟩ := bind_eq_ok_iff.1 h
    obtain ⟨oldTags, htags, -⟩ := bind_eq_ok_iff.1 h
    unfold getEntryTags getEntry fromSlice at htags
    rw [hlookup] at htags
    by_contra hfinite
    simp only [if_neg hfinite] at htags
    cases htags
  · intro hfinite
    unfold getEntryTags
    rw [getEntry_ok _ _ hfinite]
    exact ⟨_, rfl⟩

theorem deleteAll_ok_iff (hindexed : s.Indexed) (hwritable : s.writable = true) :
    (∃ s', deleteAll env s found = .ok s') ↔ ∀ e ∈ found, ∀ entry,
      s.entries.lookup e.iri = some entry → entry.importance.isFinite = true := by
  induction found generalizing s with
  | nil => exact ⟨fun _ e hin => (nomatch hin), fun _ => ⟨s, rfl⟩⟩
  | cons first found ih =>
    unfold deleteAll
    have hfirst : (∃ result, s.delete env first.iri = .ok result) ↔ _ := delete_ok_iff hwritable
    rw [forall_mem_cons, ← hfirst]
    have hrest : ∀ removed s₁, s.delete env first.iri = .ok (removed, s₁) →
        ((∃ s', deleteAll env s₁ found = .ok s') ↔ ∀ e ∈ found, ∀ entry,
          s₁.entries.lookup e.iri = some entry → entry.importance.isFinite = true) := by
      intro removed s₁ hdelete
      obtain ⟨-, -, hwritable'⟩ := delete_cases hdelete
      exact ih (hindexed.delete hdelete) (hwritable'.trans hwritable)
    constructor
    · rintro ⟨s', h⟩
      obtain ⟨⟨removed, s₁⟩, hdelete, h⟩ := bind_eq_ok_iff.1 h
      refine ⟨⟨_, hdelete⟩, fun e he entry hentry => ?_⟩
      obtain ⟨hentries, -, -⟩ := delete_cases hdelete
      by_cases heq : e.iri = first.iri
      · exact (delete_ok_iff hwritable).1 ⟨_, hdelete⟩ entry (heq ▸ hentry)
      · refine (hrest removed s₁ hdelete).1 ⟨s', h⟩ e he entry ?_
        rw [hentries, lookup_erase_ne heq]
        exact hentry
    · rintro ⟨⟨⟨removed, s₁⟩, hdelete⟩, hfinite⟩
      obtain ⟨hentries, -, -⟩ := delete_cases hdelete
      obtain ⟨s', h⟩ := (hrest removed s₁ hdelete).2 fun e he entry hentry => by
        rw [hentries] at hentry
        by_cases heq : e.iri = first.iri
        · rw [heq, lookup_erase] at hentry
          cases hentry
        · rw [lookup_erase_ne heq] at hentry
          exact hfinite e he entry hentry
      exact ⟨s', bind_eq_ok_iff.2 ⟨_, hdelete, h⟩⟩

/-- Queries of graphs return their entries, the list names the graphs that have one, and the deletion
of a graph deletes its entries and no others. -/
structure MembershipExact (env : L0Env) (now : ℤ) (s : L0Store) : Prop where
  query : ∀ graph, ∃ found s', s.queryByNamedGraph env now graph = .ok (found, s') ∧ (found.map L0Entry.iri).Nodup ∧
    (∀ iri, iri ∈ found.map L0Entry.iri ↔ s.graphOf iri = some graph) ∧
    ∀ entry ∈ found, s.Returned entry
  list : s.listNamedGraphs.Nodup ∧ ∀ graph, graph ∈ s.listNamedGraphs ↔ ∃ iri, s.graphOf iri = some graph
  delete : ∀ graph, ∃ n s', s.deleteNamedGraph env now graph = .ok (n, s') ∧
    ∀ iri, if s.graphOf iri = some graph then s'.entries.lookup iri = none
      else s'.entries.lookup iri = s.entries.lookup iri

/-- The entries of named graphs can be read back, also after a query has stored the access. -/
def GraphsReadable (env : L0Env) (s : L0Store) : Prop :=
  ∀ iri entry, s.entries.lookup iri = some entry → entry.namedGraph ≠ none →
    entry.importance.isFinite = true ∧ (env.mean entry.importance entry.importance).isFinite = true

theorem graphOf_eq_some :
    s.graphOf iri = some graph ↔ ∃ entry, s.entries.lookup iri = some entry ∧ entry.namedGraph = some graph := by
  unfold graphOf
  rw [bind_eq_some_iff]

theorem graphOfKey_eq_some {key : String} : graphOfKey key = some graph ↔ key = graphKey graph := by
  unfold graphOfKey graphKey Text.stripStart
  rw [← String.toList_inj, String.toList_append]
  constructor
  · intro h
    split_ifs at h with hearlier
    · obtain ⟨rest, hrest⟩ := hearlier
      rw [← hrest, drop_left, map_some, some_inj] at h
      rw [← hrest, ← h]
      exact congrArg (_ ++ ·) String.toList_ofList.symm
    · cases h
  · intro h
    rw [h, if_pos (prefix_append _ _), drop_left, map_some, String.ofList_toList]

theorem mem_listNamedGraphs : graph ∈ s.listNamedGraphs ↔ s.namedGraphs.lookup (graphKey graph) ≠ none := by
  unfold listNamedGraphs
  simp only [mem_filterMap, mem_mergeSort, graphOfKey_eq_some, exists_eq_right]
  rw [← AList.mem_keys, ← lookup_isSome, isSome_iff_ne_none]

theorem nodup_listNamedGraphs : s.listNamedGraphs.Nodup := by
  unfold listNamedGraphs
  refine List.Nodup.filterMap (fun key key' graph h h' => ?_) ?_
  · rw [graphOfKey_eq_some.1 h, graphOfKey_eq_some.1 h']
  · rw [(mergeSort_perm _ _).nodup_iff]
    exact s.namedGraphs.nodupKeys

theorem LeftBehind.graphOf_ne (h : LeftBehind env toJson graph iri ops) (hrun : run env toJson ops = .ok s) :
    s.graphOf iri ≠ some graph := by
  cases h with
  | leaves hbefore hstep hin hout hdeletes =>
    obtain rfl := ok.inj (hrun.symm.trans (run_concat.2 ⟨_, hbefore, hstep⟩))
    exact hout
  | stays h hrun' hout hdeletes =>
    obtain rfl := ok.inj (hrun.symm.trans hrun')
    exact hout

theorem nodup_iris (h : table.Proper) (key : String) : (table.iris key).Nodup := by
  unfold iris
  cases hlookup : table.lookup key with
  | none => exact nodup_nil
  | some iris => exact (h _ _ hlookup).2

theorem GraphIndexed.mem_list (h : GraphIndexed env toJson ops s) :
    graph ∈ s.listNamedGraphs ↔ ∃ iri, s.graphOf iri = some graph ∨ LeftBehind env toJson graph iri ops := by
  rw [mem_listNamedGraphs, h.proper.lookup_eq]
  simp only [← h.mem_iff]
  split_ifs with hnil
  · simp [hnil]
  · exact iff_of_true (some_ne_none _) (exists_mem_of_ne_nil _ hnil)

/-- What a query of a graph finds. -/
theorem GraphIndexed.mem_query (h : GraphIndexed env toJson ops s)
    (hquery : s.queryByNamedGraph env now graph = .ok (found, s')) :
    iri ∈ found.map L0Entry.iri ↔
      (s.graphOf iri = some graph ∨ LeftBehind env toJson graph iri ops) ∧ s.entries.lookup iri ≠ none := by
  obtain ⟨-, hfound⟩ := queryByNamedGraph_keeps h.indexed h.plain hquery
  rw [hfound, mem_filter, ← h.mem_iff, Bool.and_eq_true, isSome_iff_ne_none]
  refine and_congr_right fun hin => ?_
  rw [h.not_legacy graph iri hin]
  simp

/-- **Membership is exact exactly if nothing that was left behind shows**: the IRI is not stored
again, and the graph has another entry. -/
theorem membershipExact_iff {ops : List Op} (hops : ∀ op ∈ ops, op.IsReadable)
    (hrun : run env toJson ops = .ok s) (now : ℤ) :
    MembershipExact env now s ↔ s.GraphsReadable env ∧
      ∀ graph iri, LeftBehind env toJson graph iri ops →
        s.entries.lookup iri = none ∧ ∃ iri', s.graphOf iri' = some graph := by
  have hinv := GraphIndexed.of_run hops hrun
  constructor
  · intro hexact
    refine ⟨fun iri entry hlookup hgraph => ?_, fun graph iri hleft => ⟨?_, ?_⟩⟩
    · obtain ⟨graph, hgraph⟩ := ne_none_iff_exists'.1 hgraph
      have hin : iri ∈ s.namedGraphs.iris (graphKey graph) :=
        (hinv.mem_iff graph iri).2 (.inl (graphOf_eq_some.2 ⟨entry, hlookup, hgraph⟩))
      obtain ⟨n, s', hdelete, -⟩ := hexact.delete graph
      obtain ⟨found, s₁, s₂, hquery, hdelete, -⟩ := deleteNamedGraph_steps hdelete
      have hall := hquery
      rw [queryByNamedGraph_eq] at hall
      obtain ⟨hkeeps, -⟩ := retrieveAll_keeps hinv.indexed hinv.plain hall
      obtain ⟨hfinite, himportance⟩ := retrieveAll_importance hinv.indexed hinv.plain hinv.writable
        (nodup_iris hinv.proper _) (hinv.not_legacy graph) hall
      refine ⟨hfinite iri hin entry hlookup, ?_⟩
      -- The deletion has read the entry with its access.
      have haccess := himportance iri
      rw [if_pos hin, hlookup] at haccess
      obtain ⟨accessed, haccessed, himportance⟩ := map_eq_some_iff.1 haccess
      obtain ⟨e, he, heiri⟩ := List.mem_map.1 ((hinv.mem_query hquery).2
        ⟨(hinv.mem_iff graph iri).1 hin, by rw [hlookup]; exact some_ne_none entry⟩)
      have := (deleteAll_ok_iff hkeeps.indexed (hkeeps.writable.trans hinv.writable)).1
        ⟨s₂, hdelete⟩ e he accessed (heiri ▸ haccessed)
      rwa [himportance] at this
    · by_contra hstored
      obtain ⟨found, s', hquery, -, hmem, -⟩ := hexact.query graph
      exact hleft.graphOf_ne hrun ((hmem iri).1 ((hinv.mem_query hquery).2 ⟨.inr hleft, hstored⟩))
    · exact (hexact.list.2 graph).1 (hinv.mem_list.2 ⟨iri, .inr hleft⟩)
  · rintro ⟨hreadable, hleft⟩
    have hread : ∀ graph, ∀ iri ∈ s.namedGraphs.iris (graphKey graph), ∀ entry,
        s.entries.lookup iri = some entry → entry.importance.isFinite = true ∧
          (env.mean entry.importance entry.importance).isFinite = true := by
      intro graph iri hin entry hlookup
      rcases (hinv.mem_iff graph iri).1 hin with hgraph | hbehind
      · obtain ⟨entry', hlookup', hgraph'⟩ := graphOf_eq_some.1 hgraph
        obtain rfl := some.inj (hlookup.symm.trans hlookup')
        exact hreadable iri entry hlookup (by rw [hgraph']; exact some_ne_none graph)
      · rw [(hleft graph iri hbehind).1] at hlookup
        cases hlookup
    have hquery : ∀ graph, ∃ found s', s.queryByNamedGraph env now graph = .ok (found, s') ∧
        (found.map L0Entry.iri).Nodup ∧
        (∀ iri, iri ∈ found.map L0Entry.iri ↔ s.graphOf iri = some graph) ∧
        ∀ entry ∈ found, s.Returned entry := by
      intro graph
      obtain ⟨found, s', hall, hsub, -, hreturned⟩ := retrieveAll_ok env now hinv.indexed
        (nodup_iris hinv.proper (graphKey graph)) fun iri hin entry hlookup =>
          (hread graph iri hin entry hlookup).1
      rw [← queryByNamedGraph_eq] at hall
      refine ⟨found, s', hall, hsub.nodup (nodup_iris hinv.proper _), fun iri => ?_, hreturned⟩
      rw [hinv.mem_query hall]
      constructor
      · rintro ⟨hgraph | hbehind, hstored⟩
        · exact hgraph
        · exact absurd (hleft graph iri hbehind).1 hstored
      · intro hgraph
        obtain ⟨entry, hlookup, -⟩ := graphOf_eq_some.1 hgraph
        exact ⟨.inl hgraph, by rw [hlookup]; exact some_ne_none entry⟩
    refine ⟨hquery, ⟨nodup_listNamedGraphs, fun graph => ?_⟩, fun graph => ?_⟩
    · rw [hinv.mem_list]
      constructor
      · rintro ⟨iri, hgraph | hbehind⟩
        · exact ⟨iri, hgraph⟩
        · exact (hleft graph iri hbehind).2
      · rintro ⟨iri, hgraph⟩
        exact ⟨iri, .inl hgraph⟩
    · obtain ⟨found, s₁, hfound, -, hmem, -⟩ := hquery graph
      have hall := hfound
      rw [queryByNamedGraph_eq] at hall
      obtain ⟨hkeeps, -⟩ := retrieveAll_keeps hinv.indexed hinv.plain hall
      obtain ⟨-, himportance⟩ := retrieveAll_importance hinv.indexed hinv.plain hinv.writable
        (nodup_iris hinv.proper _) (hinv.not_legacy graph) hall
      have hdeletes : (∃ s', deleteAll env s₁ found = .ok s') ↔ _ :=
        deleteAll_ok_iff hkeeps.indexed (hkeeps.writable.trans hinv.writable)
      obtain ⟨s₂, hdelete⟩ := hdeletes.2 fun e he entry hentry => by
          have hgraph := (hmem e.iri).1 (List.mem_map_of_mem he)
          have hin := (hinv.mem_iff graph e.iri).2 (.inl hgraph)
          have haccess := himportance e.iri
          rw [if_pos hin, hentry] at haccess
          obtain ⟨stored, hstored, heq⟩ := map_eq_some_iff.1 haccess.symm
          rw [← heq]
          exact (hread graph e.iri hin stored hstored).2
      have hok : s.deleteNamedGraph env now graph = .ok (found.length,
          { s₂ with namedGraphs := s₂.namedGraphs.erase (graphKey graph) }) := by
        unfold deleteNamedGraph assertWritable
        rw [if_pos hinv.writable, hfound]
        show (do
          let s ← deleteAll env s₁ found
          return (found.length, { s with namedGraphs := s.namedGraphs.erase (graphKey graph) })) = _
        rw [hdelete]
        rfl
      refine ⟨_, _, hok, fun iri => ?_⟩
      obtain ⟨-, -, -, hlookup⟩ := deleteAll_cases hkeeps.indexed hdelete
      show if s.graphOf iri = some graph then s₂.entries.lookup iri = none
        else s₂.entries.lookup iri = s.entries.lookup iri
      rw [hlookup]
      by_cases hgraph : s.graphOf iri = some graph
      · rw [if_pos hgraph, if_pos ((hmem iri).2 hgraph)]
      · rw [if_neg hgraph, if_neg fun hin => hgraph ((hmem iri).1 hin)]
        by_cases hin : iri ∈ s.namedGraphs.iris (graphKey graph)
        · -- Listed, but not stored.
          have hbehind := ((hinv.mem_iff graph iri).1 hin).resolve_left hgraph
          have hnone := (hleft graph iri hbehind).1
          have hstored := hkeeps.stored iri
          rw [hnone] at hstored ⊢
          exact isNone_iff_eq_none.1 (isSome_eq_false_iff.1 hstored)
        · exact retrieveAll_other hinv.indexed hinv.plain hall hin

/-! ### An IRI that comes back in another graph -/

/-- Stored in one graph, deleted, and stored in another one. -/
def movedOps : List Op :=
  [.storeEntry 0 { sampleEntry "iri://one" [] with namedGraph := some "g" }, .delete "iri://one",
    .storeEntry 1 { sampleEntry "iri://one" [] with namedGraph := some "h" }]

theorem exists_run_movedOps : ∃ s, run sampleEnv (fun _ => "") movedOps = .ok s := by
  cases h : run sampleEnv (fun _ => "") movedOps with
  | error e =>
    have hok : (run sampleEnv (fun _ => "") movedOps).toOption.isSome = true := by decide +kernel
    rw [h] at hok
    cases hok
  | ok s => exact ⟨s, rfl⟩

/-- The query of the first graph returns the entry of the second one. -/
theorem not_membershipExact_movedOps :
    ∃ (env : L0Env) (toJson : Value → String) (ops : List Op) (now : ℤ) (s : L0Store),
      run env toJson ops = .ok s ∧ ¬MembershipExact env now s := by
  obtain ⟨s, hs⟩ := exists_run_movedOps
  refine ⟨sampleEnv, fun _ => "", movedOps, 2, s, hs, fun hexact => ?_⟩
  have hiris : ((run sampleEnv (fun _ => "") movedOps).bind fun s =>
      s.queryByNamedGraph sampleEnv 2 "g").map (fun r => r.1.map L0Entry.iri) = .ok ["iri://one"] := by
    decide +kernel
  have hgraph : (run sampleEnv (fun _ => "") movedOps).map (fun s => s.graphOf "iri://one") = .ok (some "h") := by
    decide +kernel
  rw [hs] at hiris hgraph
  obtain ⟨found, s', hquery, -, hmem, -⟩ := hexact.query "g"
  have hfound : (s.queryByNamedGraph sampleEnv 2 "g").map (fun r => r.1.map L0Entry.iri) = .ok ["iri://one"] := hiris
  rw [hquery] at hfound
  have hin := (hmem "iri://one").1 (by
    rw [show found.map L0Entry.iri = ["iri://one"] from ok.inj hfound]
    exact mem_singleton_self _)
  rw [show s.graphOf "iri://one" = some "h" from ok.inj hgraph] at hin
  exact absurd hin (by decide)

theorem membershipExact_iff_movedOps : ∃ s, run sampleEnv (fun _ => "") movedOps = .ok s ∧
      (MembershipExact sampleEnv 2 s ↔ s.GraphsReadable sampleEnv ∧
        ∀ graph iri, LeftBehind sampleEnv (fun _ => "") graph iri movedOps →
          s.entries.lookup iri = none ∧ ∃ iri', s.graphOf iri' = some graph) := by
  obtain ⟨s, hs⟩ := exists_run_movedOps
  refine ⟨s, hs, membershipExact_iff ?_ hs 2⟩
  unfold movedOps
  simp only [forall_mem_cons, not_mem_nil, false_implies, implies_true, and_true]
  exact ⟨fun _ => by decide +kernel, trivial, fun _ => by decide +kernel⟩

end L0Store

end WildAgentOs.Memory
