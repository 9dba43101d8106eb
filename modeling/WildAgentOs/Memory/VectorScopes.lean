import WildAgentOs.Engine.CrashRecovery
import WildAgentOs.Memory.HyperspaceStore

/-!
# Scopes of the vector store

Histories of writes, deletes and searches with verified claims, from an empty store on.

* `KeepsIri`: a call on the engine leaves the entry of an IRI as it is;
* `VectorOp`, `History`: the histories in which the counter of the ids is not used up;
* `scopes_isolated`, `not_scopes_isolated`.
-/

namespace WildAgentOs.Memory

open Json Engine JsonLdMetadataIndex HyperspaceStore IsolationClaims List Option HyperspaceEngine IriRegistry

/-! ### What a call leaves alone -/

/-- The entry of an id is as before: its bytes, its node, its payload, its postings, and whether it is deleted. -/
structure KeepsEntry (fa : FloatArith) (m m' : EngineMemory) (id : UInt32) : Prop where
  bytes : m'.store.get id = m.store.get id
  vector : m'.index.vectorAt id = m.index.vectorAt id
  payload : m'.metadata.getPayload id = m.metadata.getPayload id
  deleted : id ∈ m'.metadata.deleted ↔ id ∈ m.metadata.deleted
  postings : ∀ payload, Reflects fa m.metadata id payload → Reflects fa m'.metadata id payload

/-- An IRI has the id it had, and the entry of the id is as before. -/
structure KeepsIri (fa : FloatArith) (m m' : EngineMemory) (iri : String) : Prop where
  resolve : m'.registry.resolve iri = m.registry.resolve iri
  entry : ∀ id, m.registry.resolve iri = some id → KeepsEntry fa m m' id

section
variable {fa : FloatArith} {m m' : EngineMemory} {iri : String}

/-- Only the index has changed, and not its vectors. -/
theorem KeepsIri.of_index (hvectors : m.index.SameVectors m'.index) (hstore : m'.store = m.store)
    (hmetadata : m'.metadata = m.metadata) (hregistry : m'.registry = m.registry) : KeepsIri fa m m' iri where
  resolve := by rw [hregistry]
  entry id _ :=
    { bytes := by rw [hstore]
      vector := hvectors id
      payload := by rw [hmetadata]
      deleted := by rw [hmetadata]
      postings := fun payload h => by rwa [hmetadata] }

end

variable {vector : EmbeddingVector} {op : UInt32 → String → WalOp} {jsonld : Value} {r : Except EngineError UInt32}

section
variable {env : EngineEnv} {e e' : HyperspaceEngine} {iri iri' : String} {io : Io}

theorem ne_register (hvalid : e.registry.Valid) (hne : iri' ≠ iri) {id : UInt32}
    (hres : e.registry.resolve iri' = some id) : id ≠ (e.registry.register iri).2 := by
  rintro rfl
  cases hiri : e.registry.resolve iri with
  | some id =>
    rw [register_of_resolve hiri] at hres
    exact hne (hvalid.resolve_injective hres hiri)
  | none =>
    rw [register_of_none hiri] at hres
    exact UInt32.lt_irrefl _ (hvalid.lt_nextId _ _ ((hvalid.lookup_iff _ _).2 hres))

/-- **A write leaves the entries of other IRIs as they are.** -/
theorem keepsIri_write (hvalid : e.registry.Valid) (hne : iri' ≠ iri)
    (h : write env op e iri vector jsonld io = some (e', r)) :
    KeepsIri env.fa e.toEngineMemory e'.toEngineMemory iri' := by
  have hregister : (e.registry.register iri).1.resolve iri' = e.registry.resolve iri' := by
    rw [resolve_register, if_neg hne]
  obtain ⟨wal, res, -, hcases⟩ := write_cases env h
  rcases hcases with ⟨_, -, -, rfl⟩ | ⟨_, -, -, -, rfl⟩ | ⟨store, index, health, -, hset, hinsert, -, rfl⟩
  · exact ⟨hregister, fun _ _ => ⟨rfl, rfl, rfl, Iff.rfl, fun _ h => h⟩⟩
  · exact ⟨hregister, fun _ _ => ⟨rfl, rfl, rfl, Iff.rfl, fun _ h => h⟩⟩
  · refine ⟨hregister, fun id hres => ?_⟩
    have hid := ne_register hvalid hne hres
    constructor
    · exact (VectorStore.get_set hset id).trans (if_neg hid)
    · exact (IncrementalHNSW.vectorAt_insert hinsert id).trans (if_neg hid)
    · exact (getPayload_undelete _ _ _).trans ((getPayload_index _ _ _ _ _).trans (if_neg hid))
    · show id ∈ (e.metadata.index env.fa _ jsonld).deleted.erase _ ↔ _
      rw [deleted_index, Finset.mem_erase]
      exact and_iff_right hid
    · exact fun payload h => (h.index_of_ne hid jsonld).with_deleted _

/-- **A delete leaves the entries of other IRIs as they are.** -/
theorem keepsIri_delete {r : Except EngineError Unit} (hvalid : e.registry.Valid) (hne : iri' ≠ iri)
    (h : delete env e iri io = (e', r)) : KeepsIri env.fa e.toEngineMemory e'.toEngineMemory iri' := by
  rcases delete_cases env h with ⟨-, rfl, -⟩ | ⟨id, wal, res, hiri, -, hcases⟩
  · exact ⟨rfl, fun _ _ => ⟨rfl, rfl, rfl, Iff.rfl, fun _ h => h⟩⟩
  · rcases hcases with ⟨_, -, -, rfl⟩ | ⟨health, -, -, rfl⟩
    · exact ⟨rfl, fun _ _ => ⟨rfl, rfl, rfl, Iff.rfl, fun _ h => h⟩⟩
    · refine ⟨rfl, fun j hres => ?_⟩
      have hj : j ≠ id := by
        rintro rfl
        exact hne (hvalid.resolve_injective hres hiri)
      constructor
      · exact (VectorStore.get_remove _ _ _).trans (if_neg hj)
      · exact (IncrementalHNSW.vectorAt_remove _ _ _).trans (if_neg hj)
      · exact (getPayload_remove _ _ _).trans (if_neg hj)
      · show j ∈ insert id e.metadata.deleted ↔ _
        rw [Finset.mem_insert]
        exact or_iff_right hj
      · exact fun payload h => h.remove_of_ne hj

end

/-! ### Names of scopes -/

variable {iri : String}

section
variable {a b c : IsolationClaims}

theorem toList_scopedIri (claims : IsolationClaims) (iri : String) : (scopedIri claims iri).toList =
      "vector://".toList ++ (claims.tenantId.toList ++ '/' :: (claims.projectId.toList ++ '#' :: iri.toList)) := by
  simp [scopedIri, vectorNamespace, String.toList_append]

theorem toList_namespace (claims : IsolationClaims) : (claims.vectorNamespace ++ "#").toList =
      "vector://".toList ++ (claims.tenantId.toList ++ '/' :: (claims.projectId.toList ++ '#' :: [])) := by
  simp [vectorNamespace, String.toList_append]

/-- An IRI of a scope is in the namespace of no other. -/
theorem sameScope_of_inNamespace (h : inNamespace a (scopedIri c iri) = true) : SameScope c a := by
  obtain ⟨rest, hrest⟩ := isSome_iff_exists.1 h
  rw [Text.stripStart_eq_some, toList_scopedIri, toList_namespace, append_assoc] at hrest
  have hrest := append_cancel_left hrest
  simp only [append_assoc, cons_append, nil_append] at hrest
  exact sameScope_of_append (by decide) hrest

/-- Two scopes have no engine IRI in common. -/
theorem sameScope_of_scopedIri_eq {iri iri' : String} (h : scopedIri a iri = scopedIri b iri') : SameScope a b := by
  have hlist := congrArg String.toList h
  rw [toList_scopedIri, toList_scopedIri] at hlist
  exact sameScope_of_append (by decide) (append_cancel_left hlist)

/-- No object key of a scope begins with the key of another. -/
theorem sameScope_of_objectKeyPrefix (h : a.objectKeyPrefix.toList <+: b.objectKeyPrefix.toList) : SameScope b a := by
  obtain ⟨rest, hrest⟩ := h
  have hlist : ∀ claims : IsolationClaims, claims.objectKeyPrefix.toList =
      claims.tenantId.toList ++ '/' :: (claims.projectId.toList ++ '/' :: []) := by
    intro claims
    simp [objectKeyPrefix, String.toList_append]
  rw [hlist, hlist] at hrest
  simp only [append_assoc, cons_append, nil_append] at hrest
  exact sameScope_of_append (by decide) hrest.symm

theorem sameScope_of_graphIri_eq (h : a.graphIri = b.graphIri) : SameScope a b := by
  have hlist : ∀ claims : IsolationClaims, (claims.graphIri ++ "#").toList = "graph://".toList ++
      (claims.tenantId.toList ++ '/' :: (claims.projectId.toList ++ '#' :: [])) := by
    intro claims
    simp [graphIri, String.toList_append]
  have heq : (a.graphIri ++ "#").toList = (b.graphIri ++ "#").toList := by rw [h]
  rw [hlist, hlist] at heq
  exact sameScope_of_append (by decide) (append_cancel_left heq)

end

/-! ### Histories -/

inductive VectorOp
  | upsert (claims : IsolationClaims) (iri text : String) (tags : List String) (importance : Option F32)
      (jsonldTypes : Option (List String)) (call : VectorCall)
  | delete (claims : IsolationClaims) (iri : String) (io : Io)
  | search (claims : IsolationClaims) (filter : HybridSearchFilter) (limit : ℕ) (call : VectorCall)

namespace VectorOp

def claims : VectorOp → IsolationClaims
  | upsert claims .. => claims
  | delete claims .. => claims
  | search claims .. => claims

section
variable (env : VectorEnv)

/-- The engine IRI and the payload of an upsert. -/
def stored : VectorOp → Option (String × Value)
  | upsert claims iri text tags importance jsonldTypes call =>
    some (scopedIri claims iri, payload env (scopedIri claims iri) text (scopedTags claims tags) importance jsonldTypes
      (some claims.vectorNamespace) call.now)
  | _ => none

/-- The engine after a call; `none` is a panic. -/
def step (e : HyperspaceEngine) : VectorOp → Option HyperspaceEngine
  | upsert claims iri text tags importance jsonldTypes call =>
    (upsertWithClaimsAndMetadata env e claims iri text tags importance jsonldTypes call).map Prod.fst
  | delete claims iri io => some (deleteWithClaims env e claims iri io).1
  | search claims filter limit call => (searchWithClaims env e claims filter limit call).map Prod.fst

/-- A new IRI finds an id that is not the last one. -/
def IdLeft (e : HyperspaceEngine) : VectorOp → Prop
  | upsert claims iri .. => e.registry.resolve (scopedIri claims iri) = none → e.registry.nextId ≠ 0xFFFFFFFF
  | _ => True

/-- The entry shows what an upsert has stored. -/
def Wrote (op : VectorOp) (entry : ScoredEntry) : Prop :=
  ∃ iri payload id score, op.stored env = some (iri, payload) ∧ entry = scoredEntry env ⟨id, iri, score, some payload⟩

end

end VectorOp

/-- A history on a store that was opened on an empty directory, and the engine after it. -/
inductive History (env : VectorEnv) : List VectorOp → HyperspaceEngine → Prop
  | opened : History env [] (CrashRun.start env.retrieval.engine).engine
  | step {ops : List VectorOp} {op : VectorOp} {e e' : HyperspaceEngine} (history : History env ops e)
      (idLeft : op.IdLeft e) (step : op.step env e = some e') : History env (ops ++ [op]) e'

variable {wal : EngineWal} {io : Io}

section
variable {env : VectorEnv} {ops : List VectorOp} {op : VectorOp} {e e' : HyperspaceEngine}

/-- Every payload is that of an upsert under the IRI of its id. -/
structure Scoped (env : VectorEnv) (ops : List VectorOp) (e : HyperspaceEngine) : Prop where
  valid : e.registry.Valid
  written : ∀ id payload, e.metadata.getPayload id = some payload →
    ∃ op ∈ ops, ∃ iri, op.stored env = some (iri, payload) ∧ e.registry.lookup id = some iri

variable {call : VectorCall} {tags : List String}

/-- What an upsert can do: nothing, or a write of the engine. -/
theorem upsert_cases {iri text : String} {importance : Option F32}
    {jsonldTypes : Option (List String)} {namedGraph : Option String}
    {r : Except VectorError UInt32}
    (h : upsertWithMetadataInner env e iri text tags importance jsonldTypes namedGraph call = some (e', r)) :
    e' = e ∨ ∃ vector r, e.upsert env.retrieval.engine iri vector
      (payload env iri text tags importance jsonldTypes namedGraph call.now) call.io = some (e', r) := by
  unfold upsertWithMetadataInner at h
  split_ifs at h
  · cases h
    exact .inl rfl
  · cases hembed : embed env call.embedding with
    | error error =>
      rw [hembed] at h
      cases h
      exact .inl rfl
    | ok vector =>
      rw [hembed] at h
      obtain ⟨⟨e₁, r₁⟩, hwrite, h⟩ := map_eq_some_iff.1 h
      cases h
      exact .inr ⟨vector, r₁, hwrite⟩

variable {filter : HybridSearchFilter}

theorem filters_ne_nil (h : filter.namedGraph.isSome) : filter.toJsonldFilters env.widen ≠ [] := by
  obtain ⟨graph, hgraph⟩ := isSome_iff_exists.1 h
  have hfilter : filter.isEmpty = false := by simp [HybridSearchFilter.isEmpty, hgraph]
  have hmust : (filter.mustChildren env.widen).isEmpty = false := by
    simp [HybridSearchFilter.mustChildren, hgraph]
  simp [HybridSearchFilter.toJsonldFilters, hfilter, hmust]

variable {limit : ℕ}

/-- A search changes the index alone, and finds hits of ids with a payload. -/
theorem search_cases {claims : IsolationClaims}
    {r : Except VectorError (List ScoredEntry)} (h : searchWithClaims env e claims filter limit call = some (e', r)) :
    (∃ index, e.index.SameVectors index ∧ e' = { e with index }) ∧
      ∀ entries, r = .ok entries → ∀ entry ∈ entries,
        inNamespace claims entry.iri = true ∧ ∃ hit, e.HitOf hit ∧ entry = scoredEntry env hit := by
  obtain ⟨⟨e₁, r₁⟩, hinner, h⟩ := map_eq_some_iff.1 h
  cases h
  unfold searchWithFilterInner at hinner
  split_ifs at hinner
  · cases hinner
    exact ⟨⟨_, .refl _, rfl⟩, fun entries h => (nomatch h)⟩
  · cases hembed : embed env call.embedding with
    | error error =>
      rw [hembed] at hinner
      cases hinner
      exact ⟨⟨_, .refl _, rfl⟩, fun entries h => (nomatch h)⟩
    | ok vector =>
      rw [hembed] at hinner
      obtain ⟨⟨e₂, found⟩, hsearch, hinner⟩ := map_eq_some_iff.1 hinner
      cases hinner
      obtain ⟨hindex, hhits⟩ := search_hits hsearch
      refine ⟨hindex, fun entries h => ?_⟩
      cases found with
      | error error => exact (nomatch h)
      | ok hits =>
        cases h
        intro entry hentry
        obtain ⟨hmem, hin⟩ := mem_filter.1 hentry
        obtain ⟨hit, hhit, rfl⟩ := List.mem_map.1 hmem
        exact ⟨hin, hit, hhits (filters_ne_nil rfl) hits rfl hit hhit, rfl⟩

section

variable (h : Scoped env ops e)
include h

theorem Scoped.mono (op : VectorOp) : Scoped env (ops ++ [op]) e where
  valid := h.valid
  written id payload hpayload := by
    obtain ⟨op', hop', hstored⟩ := h.written id payload hpayload
    exact ⟨op', mem_append_left _ hop', hstored⟩

/-- A new registration keeps what is written where it is. -/
theorem Scoped.stopped
    (hleft : e.registry.resolve iri = none → e.registry.nextId ≠ 0xFFFFFFFF) : Scoped env ops (e.stopped iri wal) where
  valid := h.valid.register hleft
  written id payload hpayload := by
    obtain ⟨op, hop, iri', hstored, hlookup⟩ := h.written id payload hpayload
    exact ⟨op, hop, iri', hstored, h.valid.extends_register iri id iri' hlookup⟩

theorem Scoped.write (hop : op.stored env = some (iri, jsonld))
    (hleft : e.registry.resolve iri = none → e.registry.nextId ≠ 0xFFFFFFFF)
    (hwrite : e.upsert env.retrieval.engine iri vector jsonld io = some (e', r)) : Scoped env (ops ++ [op]) e' := by
  obtain ⟨wal, res, -, hcases⟩ := write_cases env.retrieval.engine hwrite
  have hstopped : Scoped env (ops ++ [op]) (e.stopped iri wal) := (h.stopped hleft).mono op
  rcases hcases with ⟨_, -, -, rfl⟩ | ⟨_, -, -, -, rfl⟩ | ⟨store, index, health, -, -, -, -, rfl⟩
  · exact hstopped
  · exact hstopped
  · refine ⟨hstopped.valid, fun id payload hpayload => ?_⟩
    have hmetadata : ((e.metadata.index env.retrieval.engine.fa (e.registry.register iri).2 jsonld).undelete
        (e.registry.register iri).2).getPayload id = some payload := hpayload
    rw [getPayload_undelete, getPayload_index] at hmetadata
    split_ifs at hmetadata with hid
    · cases hmetadata
      refine ⟨op, mem_append_right _ mem_cons_self, iri, hop, ?_⟩
      exact (h.valid.lookup_register iri id).trans (if_pos hid)
    · exact hstopped.written id payload hmetadata

theorem Scoped.delete {r : Except EngineError Unit}
    (hdelete : e.delete env.retrieval.engine iri io = (e', r)) : Scoped env ops e' := by
  rcases delete_cases env.retrieval.engine hdelete with ⟨-, rfl, -⟩ | ⟨id, wal, res, -, -, hcases⟩
  · exact h
  · rcases hcases with ⟨_, -, -, rfl⟩ | ⟨health, -, -, rfl⟩
    · exact ⟨h.valid, h.written⟩
    · refine ⟨h.valid, fun j payload hpayload => ?_⟩
      have hmetadata : (e.metadata.remove id).getPayload j = some payload := hpayload
      rw [getPayload_remove] at hmetadata
      split_ifs at hmetadata
      exact h.written j payload hmetadata

end

/-- **The payloads of every history are those of its upserts.** -/
theorem scoped_of_history (h : History env ops e) : Scoped env ops e := by
  induction h with
  | opened => exact ⟨valid_new, fun id payload h => (nomatch h)⟩
  | @step ops op e e' history hleft hstep ih =>
    cases op with
    | upsert claims iri text tags importance jsonldTypes call =>
      obtain ⟨⟨e₁, r⟩, hupsert, rfl⟩ := map_eq_some_iff.1 hstep
      rcases upsert_cases hupsert with rfl | ⟨vector, r, hwrite⟩
      · exact ih.mono _
      · exact ih.write rfl hleft hwrite
    | delete claims iri io =>
      cases hstep
      exact (ih.delete rfl).mono _
    | search claims filter limit call =>
      obtain ⟨⟨e₁, r⟩, hsearch, rfl⟩ := map_eq_some_iff.1 hstep
      obtain ⟨⟨index, -, rfl⟩, -⟩ := search_cases hsearch
      exact ⟨ih.valid, (ih.mono _).written⟩

/-! ### Isolation -/

variable {a b : IsolationClaims}

/-- **A call of a scope leaves the entries of another as they are.** -/
theorem keepsIri_step (h : History env ops e) (hdiff : ¬SameScope op.claims b) (hstep : op.step env e = some e')
    (iri : String) : KeepsIri env.retrieval.engine.fa e.toEngineMemory e'.toEngineMemory (scopedIri b iri) := by
  have hvalid := (scoped_of_history h).valid
  have hne : ∀ iri', scopedIri b iri ≠ scopedIri op.claims iri' := fun iri' heq =>
    hdiff (sameScope_of_scopedIri_eq heq.symm)
  cases op with
  | upsert claims iri' text tags importance jsonldTypes call =>
    obtain ⟨⟨e₁, r⟩, hupsert, rfl⟩ := map_eq_some_iff.1 hstep
    rcases upsert_cases hupsert with rfl | ⟨vector, r, hwrite⟩
    · exact .of_index (.refl _) rfl rfl rfl
    · exact keepsIri_write hvalid (hne iri') hwrite
  | delete claims iri' io =>
    cases hstep
    exact keepsIri_delete hvalid (hne iri') rfl
  | search claims filter limit call =>
    obtain ⟨⟨e₁, r⟩, hsearch, rfl⟩ := map_eq_some_iff.1 hstep
    obtain ⟨⟨index, hindex, rfl⟩, -⟩ := search_cases hsearch
    exact .of_index hindex rfl rfl rfl

/-- The entry is one that the scope has written in the history, and no other scope has. -/
def WrittenBy (env : VectorEnv) (ops : List VectorOp) (a : IsolationClaims) (entry : ScoredEntry) : Prop :=
  (∃ op ∈ ops, SameScope op.claims a ∧ op.Wrote env entry) ∧ ∀ op : VectorOp, op.Wrote env entry → SameScope op.claims a

/-- A stored IRI is of the scope of its upsert. -/
theorem scopedIri_of_stored {payload : Value} (h : op.stored env = some (iri, payload)) :
    ∃ iri', iri = scopedIri op.claims iri' := by
  cases op with
  | upsert claims iri' text tags importance jsonldTypes call =>
    cases h
    exact ⟨iri', rfl⟩
  | delete claims iri' io => cases h
  | search claims filter limit call => cases h

/-- A hit in the namespace of a scope shows what the scope has written. -/
theorem writtenBy_hit (h : Scoped env ops e) {hit : SearchHit F32} (hhit : e.HitOf hit)
    (hin : inNamespace a hit.iri = true) : WrittenBy env ops a (scoredEntry env hit) := by
  obtain ⟨payload, hpayload⟩ := isSome_iff_exists.1 hhit.held
  obtain ⟨op, hop, iri, hstored, hlookup⟩ := h.written hit.id payload (hhit.payload.symm.trans hpayload)
  have hiri : hit.iri = iri := by rw [hhit.iri, hlookup, getD_some]
  have hscope : ∀ op : VectorOp, op.Wrote env (scoredEntry env hit) → SameScope op.claims a := by
    rintro op' ⟨iri', payload', id, score, hstored', hentry⟩
    obtain ⟨caller, rfl⟩ := scopedIri_of_stored hstored'
    have heq : hit.iri = scopedIri op'.claims caller := congrArg ScoredEntry.iri hentry
    rw [heq] at hin
    exact sameScope_of_inNamespace hin
  have hwrote : op.Wrote env (scoredEntry env hit) := by
    refine ⟨iri, payload, hit.id, hit.score, hstored, ?_⟩
    rw [← hiri, ← hpayload]
  exact ⟨⟨op, hop, hscope op hwrote, hwrote⟩, hscope⟩

variable {entries : List ScoredEntry}

theorem writtenBy_search (h : History env ops e)
    (hsearch : searchWithClaims env e a filter limit call = some (e', .ok entries)) :
    ∀ entry ∈ entries, WrittenBy env ops a entry := by
  intro entry hentry
  obtain ⟨hin, hit, hhit, rfl⟩ := (search_cases hsearch).2 entries rfl entry hentry
  exact writtenBy_hit (scoped_of_history h) hhit hin

theorem writtenBy_searchRequired (h : History env ops e)
    (hsearch : searchWithClaimsAndRequiredTags env e a tags limit call = some (e', .ok entries)) :
    ∀ entry ∈ entries, WrittenBy env ops a entry := by
  intro entry hentry
  obtain ⟨⟨e₁, r⟩, hinner, hsearch⟩ := map_eq_some_iff.1 hsearch
  cases r with
  | error error => exact (nomatch (Prod.mk.inj hsearch).2)
  | ok found =>
    cases hsearch
    exact writtenBy_search h hinner entry (mem_of_mem_filter (mem_of_mem_take hentry))

theorem writtenBy_exact (h : History env ops e) {tags tokens : List String} {result : ExactMatchResult}
    (hexact : exactMatchesWithClaimsAndRequiredTags env e a tags tokens limit = some (.ok result)) :
    ∀ entry ∈ result.entries, WrittenBy env ops a entry := by
  intro entry hentry
  unfold exactMatchesWithClaimsAndRequiredTags exactMatchesCapped at hexact
  split_ifs at hexact
  · cases hexact
    exact absurd hentry not_mem_nil
  · obtain ⟨found, hlist, hexact⟩ := map_eq_some_iff.1 hexact
    cases found with
    | error error => exact (nomatch hexact)
    | ok candidates =>
      cases hexact
      have hmem := mem_mergeSort.1 (mem_of_mem_take hentry)
      obtain ⟨hcut, hin⟩ := mem_filter.1 (mem_filter.1 hmem).1
      obtain ⟨hit, hhit, rfl⟩ := List.mem_map.1 (mem_of_mem_take hcut)
      rw [entryMatchesClaimsAndTags, Bool.and_eq_true] at hin
      exact writtenBy_hit (scoped_of_history h) (listFiltered_hits hlist hit hhit) hin.1

/-- **After every history, a call of a scope changes no entry of another scope, and its searches and exact matches return
what the scope itself has written.  The object keys of the two scopes do not begin with one another, and their graphs
are different.** -/
theorem scopes_isolated (hdiff : ¬SameScope a b) (h : History env ops e) :
    (∀ (op : VectorOp) (e' : HyperspaceEngine), SameScope op.claims a → op.step env e = some e' → ∀ iri,
      KeepsIri env.retrieval.engine.fa e.toEngineMemory e'.toEngineMemory (scopedIri b iri)) ∧
    (∀ filter limit call e' entries, searchWithClaims env e a filter limit call = some (e', .ok entries) →
      ∀ entry ∈ entries, WrittenBy env ops a entry) ∧
    (∀ tags limit call e' entries, searchWithClaimsAndRequiredTags env e a tags limit call = some (e', .ok entries) →
      ∀ entry ∈ entries, WrittenBy env ops a entry) ∧
    (∀ tags tokens limit result, exactMatchesWithClaimsAndRequiredTags env e a tags tokens limit = some (.ok result) →
      ∀ entry ∈ result.entries, WrittenBy env ops a entry) ∧
    ¬a.objectKeyPrefix.toList <+: b.objectKeyPrefix.toList ∧ a.graphIri ≠ b.graphIri := by
  refine ⟨?_, ?_, ?_, ?_, ?_, ?_⟩
  · intro op e' hop hstep iri
    exact keepsIri_step h (fun hb => hdiff (hop.symm.trans hb)) hstep iri
  · intro filter limit call e' entries hsearch
    exact writtenBy_search h hsearch
  · intro tags limit call e' entries hsearch
    exact writtenBy_searchRequired h hsearch
  · intro tags tokens limit result hexact
    exact writtenBy_exact h hexact
  · exact fun hkey => hdiff (sameScope_of_objectKeyPrefix hkey).symm
  · exact fun hgraph => hdiff (sameScope_of_graphIri_eq hgraph)

end

/-! ### Two projects of a tenant -/

/-- The engine of the plane, with the printer of payloads that have one tag and no strings to escape. -/
def planeVectors : VectorEnv where
  retrieval :=
    { engine :=
        { HyperspaceEngine.planeEnv with
          fa := ⟨fun | .float x => some x | _ => none, fun _ => 0⟩
          toJson
            | .object [("iri", .string iri), ("named_graph", .string graph), ("stored_at", .number (.float ⟨0⟩)),
                ("tags", .array [.string tag]), ("text", .string text)] =>
              "\x7b\"iri\":\"" ++ iri ++ "\",\"named_graph\":\"" ++ graph ++
                "\",\"stored_at\":0.0,\"tags\":[\"" ++ tag ++ "\"],\"text\":\"" ++ text ++ "\"\x7d"
            | _ => "null"
          syncMode := .batch 100 }
      addSquare := fun norm _ => norm
      score := fun _ => ⟨0⟩
      noScore := ⟨0⟩ }
  widen x := if x.bits = 0x3F800000 then ⟨0x3FF0000000000000⟩ else ⟨0⟩
  narrow _ := ⟨0⟩

/-- The project `a` of `acme`. -/
def shortProject : IsolationClaims := ⟨"acme", "a", "ann", tenant_safe_acme, rfl, actor_safe_ann⟩

/-- The project `ab` of `acme`. -/
def longProject : IsolationClaims := ⟨"acme", "ab", "ann", tenant_safe_acme, rfl, actor_safe_ann⟩

theorem not_sameScope_projects : ¬SameScope shortProject longProject := by
  rintro ⟨-, hproject⟩
  exact absurd hproject (by decide)

/-- An upsert of a text that the provider embeds as `(1, 0)`. -/
def unitUpsert (claims : IsolationClaims) (iri : String) (fault : IoFault) : VectorOp :=
  .upsert claims iri "t" [] none none ⟨.ok [⟨0x3F800000⟩, ⟨0⟩], ⟨0⟩, ⟨0, fault, 0⟩⟩

/-- The two projects write the same IRI, and then one deletes its entry. -/
theorem scopes_isolated_sameIri :
    ∃ e e', History planeVectors [unitUpsert shortProject "x" .none, unitUpsert longProject "x" .none] e ∧
      (VectorOp.delete shortProject "x" (HyperspaceEngine.quiet 0)).step planeVectors e = some e' ∧
      KeepsIri planeVectors.retrieval.engine.fa e.toEngineMemory e'.toEngineMemory (scopedIri longProject "x") := by
  have hrun : (((unitUpsert shortProject "x" .none).step planeVectors
      (CrashRun.start planeVectors.retrieval.engine).engine).bind fun e =>
        ((unitUpsert longProject "x" .none).step planeVectors e).map fun _ =>
          decide (e.registry.nextId = 2)) = some true := by decide +kernel
  obtain ⟨e₁, hfirst, hrun⟩ := bind_eq_some_iff.1 hrun
  obtain ⟨e₂, hsecond, hnext⟩ := map_eq_some_iff.1 hrun
  have hhistory : History planeVectors [unitUpsert shortProject "x" .none, unitUpsert longProject "x" .none] e₂ := by
    have hone : History planeVectors ([] ++ [unitUpsert shortProject "x" .none]) e₁ :=
      .step .opened (fun _ => by decide) hfirst
    refine hone.step ?_ hsecond
    intro _
    rw [of_decide_eq_true hnext]
    decide
  exact ⟨e₂, _, hhistory, rfl, (scopes_isolated not_sameScope_projects hhistory).1
    (.delete shortProject "x" (HyperspaceEngine.quiet 0)) _ ⟨rfl, rfl⟩ rfl "x"⟩

/-! ### A store that has used up its ids -/

/-- The caller's IRIs of the failing writes. -/
def fillIri (k : ℕ) : String := .ofList (List.replicate k 'x')

theorem fillIri_injective {k n : ℕ} (h : scopedIri longProject (fillIri k) = scopedIri longProject (fillIri n)) :
    k = n := by
  have hlist := congrArg String.toList h
  rw [toList_scopedIri, toList_scopedIri] at hlist
  simpa [fillIri] using congrArg List.length hlist

section
variable {e e₁ : HyperspaceEngine} {n : ℕ}

/-- The engine after `n` writes that fail at the log: each has taken an id. -/
structure Filled (e₁ : HyperspaceEngine) (n : ℕ) (e : HyperspaceEngine) : Prop where
  index : e.index = e₁.index
  store : e.store = e₁.store
  metadata : e.metadata = e₁.metadata
  noErrors : e.wal.ioErrorCount = 0
  mode : e.wal.syncMode = .batch 100
  nextId : e.registry.nextId = e₁.registry.nextId + UInt32.ofNat n
  unused : ∀ k, n ≤ k → e.registry.resolve (scopedIri longProject (fillIri k)) = none
  kept : e.registry.resolve (scopedIri shortProject "x") = some 1

/-- An append whose fsync fails is an error, and leaves the counter of the write errors at zero. -/
theorem append_sync (entry : Entry) (hnone : e.wal.ioErrorCount = 0) (hmode : e.wal.syncMode = .batch 100) :
    ∃ wal err, e.wal.append crc32 entry 0 (.sync "") = (wal, .error err) ∧ wal.ioErrorCount = 0 ∧
      wal.syncMode = .batch 100 := by
  have hsurged : e.wal.surged = false := by
    unfold EngineWal.surged
    rw [hnone]
    decide
  by_cases hrotates : e.wal.rotates crc32 entry = true <;>
    simp [EngineWal.append, hsurged, hrotates, EngineWal.write, EngineWal.rotate, WalSyncMode.syncInternal, hmode, hnone]

theorem append_quiet (entry : Entry) (hnone : e.wal.ioErrorCount = 0) (hmode : e.wal.syncMode = .batch 100) :
    ∃ wal, e.wal.append crc32 entry 0 .none = (wal, .ok ()) := by
  have hsurged : e.wal.surged = false := by
    unfold EngineWal.surged
    rw [hnone]
    decide
  by_cases hrotates : e.wal.rotates crc32 entry = true <;>
    simp [EngineWal.append, hsurged, hrotates, EngineWal.write, EngineWal.rotate, WalSyncMode.syncInternal, hmode]

/-- The payload of `unitUpsert`. -/
def unitPayload (claims : IsolationClaims) (iri : String) : Value :=
  payload planeVectors (scopedIri claims iri) "t" (scopedTags claims []) none none (some claims.vectorNamespace) ⟨0⟩

theorem step_unitUpsert (claims : IsolationClaims) (iri : String) (fault : IoFault) :
    (unitUpsert claims iri fault).step planeVectors e =
      (e.upsert planeVectors.retrieval.engine (scopedIri claims iri) unitX (unitPayload claims iri)
        ⟨0, fault, 0⟩).map Prod.fst := by
  have hembed : embed planeVectors (.ok [⟨0x3F800000⟩, ⟨0⟩]) = .ok unitX := rfl
  have htext : (Text.trim "t".toList).isEmpty = false := by decide
  show (upsertWithMetadataInner _ _ _ _ _ _ _ _ _).map _ = _
  unfold upsertWithMetadataInner
  rw [htext, if_neg Bool.false_ne_true]
  simp only [hembed, Option.map_map]
  rfl

variable {env : EngineEnv}

/-- A write whose append fails stops there. -/
theorem write_of_append {err : EngineError}
    (h : e.wal.append env.crc (writeEntry env op e iri vector jsonld) io.now io.fault =
      (wal, .error err)) :
    write env op e iri vector jsonld io = some (e.stopped iri wal, .error err) := by
  unfold write
  simp only [h]
  rfl

/-- A write that gets through at the log, the store and the index. -/
theorem write_of_ok {store : VectorStore} {index : IncrementalHNSW}
    (happend : e.wal.append env.crc (writeEntry env op e iri vector jsonld) io.now io.fault =
      (wal, .ok ()))
    (hset : e.store.set (e.registry.register iri).2 vector.asBytes = .ok store)
    (hinsert : e.index.insert env.hnsw (e.registry.register iri).2 vector io.level = some index) :
    ∃ health, write env op e iri vector jsonld io =
      some ({ written env e iri jsonld wal store index with health },
        .ok (e.registry.register iri).2) := by
  unfold write
  simp only [happend, hset, hinsert]
  exact ⟨_, rfl⟩

theorem Filled.step (h : Filled e₁ n e) :
    ∃ e', (unitUpsert longProject (fillIri n) (.sync "")).step planeVectors e = some e' ∧ Filled e₁ (n + 1) e' := by
  have hnew : e.registry.resolve (scopedIri longProject (fillIri n)) = none := h.unused n (Nat.le_refl n)
  obtain ⟨wal, err, happend, hnone, hmode⟩ := append_sync
    (writeEntry planeVectors.retrieval.engine .upsert e (scopedIri longProject (fillIri n))
      unitX (unitPayload longProject (fillIri n))) h.noErrors h.mode
  refine ⟨e.stopped (scopedIri longProject (fillIri n)) wal, ?_, ?_⟩
  · rw [step_unitUpsert]
    exact congrArg (Option.map Prod.fst) (write_of_append happend)
  · have hregister := register_of_none hnew
    constructor
    · exact h.index
    · exact h.store
    · exact h.metadata
    · exact hnone
    · exact hmode
    · show (e.registry.register _).1.nextId = _
      rw [hregister]
      show e.registry.nextId + 1 = _
      rw [h.nextId, UInt32.add_assoc, UInt32.ofNat_add]
      rfl
    · intro k hk
      show (e.registry.register _).1.resolve _ = none
      rw [resolve_register, if_neg, h.unused k (by omega)]
      intro heq
      have := fillIri_injective heq
      omega
    · exact resolve_register_of_some h.kept _

/-- The store after `n` failing writes. -/
theorem Filled.run (h : Filled e₁ 0 e₁) (n : ℕ) :
    ∃ e, (List.range n).foldlM (fun e k => (unitUpsert longProject (fillIri k) (.sync "")).step planeVectors e) e₁ =
      some e ∧ Filled e₁ n e := by
  induction n with
  | zero => exact ⟨e₁, rfl, h⟩
  | succ n ih =>
    obtain ⟨e, hrun, hfilled⟩ := ih
    obtain ⟨e', hstep, hfilled'⟩ := hfilled.step
    refine ⟨e', ?_, hfilled'⟩
    rw [range_succ, foldlM_append, hrun]
    simpa using hstep

end

/-- The IRI a payload names. -/
def payloadIri (e : HyperspaceEngine) (id : UInt32) : Option String :=
  ((e.metadata.getPayload id).bind (Value.get · "iri")).bind Value.asStr

theorem exists_filled :
    ∃ e, (unitUpsert shortProject "x" .none).step planeVectors (CrashRun.start planeVectors.retrieval.engine).engine =
        some e ∧ Filled e 0 e ∧ e.registry.nextId = 2 ∧ payloadIri e 1 = some (scopedIri shortProject "x") ∧
      (∃ store, e.store.set 1 unitX.asBytes = .ok store) ∧
      ∃ index, e.index.insert planeVectors.retrieval.engine.hnsw 1 unitX 0 = some index := by
  have hrun : ((unitUpsert shortProject "x" .none).step planeVectors
      (CrashRun.start planeVectors.retrieval.engine).engine).map (fun e =>
        decide (e.registry.resolve (scopedIri shortProject "x") = some 1 ∧ e.registry.nextId = 2 ∧
          e.wal.ioErrorCount = 0 ∧ e.wal.syncMode = .batch 100 ∧ payloadIri e 1 = some (scopedIri shortProject "x") ∧
          (e.store.set 1 unitX.asBytes).toOption.isSome ∧
          (e.index.insert planeVectors.retrieval.engine.hnsw 1 unitX 0).isSome)) = some true := by
    decide +kernel
  obtain ⟨e, hstep, hdecided⟩ := map_eq_some_iff.1 hrun
  obtain ⟨hres, hnext, hnone, hmode, hiri, hset, hinsert⟩ := of_decide_eq_true hdecided
  refine ⟨e, hstep, ⟨rfl, rfl, rfl, hnone, hmode, (UInt32.add_zero _).symm, ?_, hres⟩, hnext, hiri, ?_,
    isSome_iff_exists.1 hinsert⟩
  · intro k _
    have hdiff : ¬SameScope (unitUpsert shortProject "x" .none).claims longProject := not_sameScope_projects
    exact (keepsIri_step .opened hdiff hstep (fillIri k)).resolve
  · cases hstore : e.store.set 1 unitX.asBytes with
    | error err =>
      rw [hstore] at hset
      cases hset
    | ok store => exact ⟨store, rfl⟩

/-- **The graph of a project may begin with the graph of another, and where all the ids have been taken, by writes that
failed, a write of one project overwrites an entry of another.** -/
theorem not_scopes_isolated :
    (¬SameScope shortProject longProject ∧ shortProject.graphIri.toList <+: longProject.graphIri.toList) ∧
    ∃ (ops : List VectorOp) (op : VectorOp) (e e' : HyperspaceEngine),
      ops.foldlM (fun e op => op.step planeVectors e) (CrashRun.start planeVectors.retrieval.engine).engine = some e ∧
      SameScope op.claims longProject ∧ op.step planeVectors e = some e' ∧
      ¬KeepsIri planeVectors.retrieval.engine.fa e.toEngineMemory e'.toEngineMemory (scopedIri shortProject "x") := by
  refine ⟨⟨not_sameScope_projects, by decide⟩, ?_⟩
  obtain ⟨e₁, hfirst, hfilled, hnext, hiri, ⟨store, hset⟩, index, hinsert⟩ := exists_filled
  obtain ⟨e, hrun, h⟩ := hfilled.run 4294967295
  have hregister : (e.registry.register (scopedIri longProject (fillIri 4294967295))).2 = 1 := by
    rw [IriRegistry.register_of_none (h.unused _ (Nat.le_refl _)), h.nextId, hnext]
    rfl
  obtain ⟨wal, happend⟩ := append_quiet (HyperspaceEngine.writeEntry planeVectors.retrieval.engine .upsert e
    (scopedIri longProject (fillIri 4294967295)) HyperspaceEngine.unitX
    (unitPayload longProject (fillIri 4294967295))) h.noErrors h.mode
  rw [← h.store, ← hregister] at hset
  rw [← h.index, ← hregister] at hinsert
  obtain ⟨health, hwrite⟩ : ∃ health, HyperspaceEngine.write _ _ _ _ _ _ ⟨0, .none, 0⟩ = some (_, _) :=
    write_of_ok happend hset hinsert
  refine ⟨unitUpsert shortProject "x" .none ::
    (List.range 4294967295).map fun k => unitUpsert longProject (fillIri k) (.sync ""),
    unitUpsert longProject (fillIri 4294967295) .none, e, _, ?_, ⟨rfl, rfl⟩,
    (step_unitUpsert _ _ _).trans (congrArg (Option.map Prod.fst) hwrite), ?_⟩
  · rw [foldlM_cons, hfirst, bind_eq_bind, bind_some, foldlM_map]
    exact hrun
  · intro hkeeps
    have hwritten : ((e.metadata.index planeVectors.retrieval.engine.fa
        (e.registry.register (scopedIri longProject (fillIri 4294967295))).2
        (unitPayload longProject (fillIri 4294967295))).undelete
        (e.registry.register (scopedIri longProject (fillIri 4294967295))).2).getPayload 1 = e.metadata.getPayload 1 :=
      (hkeeps.entry 1 h.kept).payload
    rw [getPayload_undelete, getPayload_index, hregister, if_pos rfl, h.metadata] at hwritten
    have hother : payloadIri e₁ 1 = some (scopedIri longProject (fillIri 4294967295)) := by
      unfold payloadIri
      rw [← hwritten]
      rfl
    exact not_sameScope_projects (sameScope_of_scopedIri_eq (some.inj (hiri.symm.trans hother)))

end WildAgentOs.Memory
