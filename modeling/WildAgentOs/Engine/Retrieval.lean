import WildAgentOs.Engine.Filter
import WildAgentOs.Engine.HnswVectors
import WildAgentOs.Engine.HyperspaceEngine

/-!
# Retrieval from the vector engine

`search`, `list_filtered` and `count` of `engine.rs`.  What comes back of an id is the IRI the registry has for it and
its payload.

* `HyperspaceEngine.search`, `HyperspaceEngine.listFiltered`;
* `HyperspaceEngine.HitOf`, `search_hits`, `listFiltered_hits`.
-/

namespace WildAgentOs.Engine

open Json List Option IncrementalHNSW

def F64.isFinite (x : F64) : Bool := decide (x.magnitude < 0x7FF0000000000000)

structure SearchHit (Score : Type*) where
  id : UInt32
  iri : String
  score : Score
  payload : Option Value

/-- What retrieval uses besides: `norm + c * c`, the score of a distance, and the score of what is only listed. -/
structure RetrievalEnv (Score : Type*) where
  engine : EngineEnv
  addSquare : F64 → F64 → F64
  score : F64 → Score
  noScore : Score

variable {Score : Type*} (env : RetrievalEnv Score)

/-- The loop of `validate_search_query`. -/
def squaredNorm (norm : F64) : List F64 → Except EngineError F64
  | [] => .ok norm
  | coordinate :: coords =>
    if F64.isFinite coordinate then squaredNorm (env.addSquare norm coordinate) coords
    else .error (.invalidVector "Search query coordinates must be finite")

def validateSearchQuery (query : EmbeddingVector) : Except EngineError Unit :=
  match squaredNorm env ⟨0⟩ query.coords with
  | .error e => .error e
  | .ok norm =>
    if !F64.isFinite norm || norm.magnitude == 0 then
      .error (.invalidVector "Search query must have a finite, non-zero norm")
    else .ok ()

namespace HyperspaceEngine

/-- The hit of an id. -/
def hitOf (e : HyperspaceEngine) (id : UInt32) (score : Score) : SearchHit Score :=
  ⟨id, (e.registry.lookup id).getD "", score, e.metadata.getPayload id⟩

/-- `search`; `none` is a panic. -/
def search (e : HyperspaceEngine) (query : EmbeddingVector) (topK : ℕ) (filters : List JsonLdFilter) :
    Option (HyperspaceEngine × Except EngineError (List (SearchHit Score))) :=
  match validateSearchQuery env query with
  | .error error => some (e, .error error)
  | .ok () =>
    match evaluateFilters env.engine.fa e.metadata filters with
    | .error _ => none
    | .ok allowed =>
      if filters ≠ [] ∧ allowed.isNone then some (e, .ok [])
      else (e.index.searchWithFilter env.engine.hnsw query topK allowed).map fun (results, index) =>
        ({ e with index }, .ok (results.map fun result => e.hitOf result.1 (env.score result.2)))

/-- The ids that are listed, in their order. -/
def listedIds (e : HyperspaceEngine) (filters : List JsonLdFilter) : Option (List UInt32) :=
  if filters.isEmpty then some e.metadata.allIds
  else
    match evaluateFilters env.engine.fa e.metadata filters with
    | .error _ => none
    | .ok ids => some ((ids.map fun ids => ids.sort (· ≤ ·)).getD [])

/-- The hit of an id that has an IRI. -/
def listedHit (e : HyperspaceEngine) (id : UInt32) : Except EngineError (SearchHit Score) :=
  match e.registry.lookup id with
  | some iri => .ok ⟨id, iri, env.noScore, e.metadata.getPayload id⟩
  | none => .error (.internal ("missing IRI registry entry for filtered ID " ++ toString id.toNat))

/-- `list_filtered`; `none` is a panic. -/
def listFiltered (e : HyperspaceEngine) (filters : List JsonLdFilter) (limit : ℕ) :
    Option (Except EngineError (List (SearchHit Score))) :=
  (e.listedIds env filters).map fun ids =>
    (ids.mapM (e.listedHit env)).map fun hits =>
      (hits.mergeSort fun left right =>
        decide (left.iri < right.iri ∨ left.iri = right.iri ∧ left.id ≤ right.id)).take limit

def count (e : HyperspaceEngine) : ℕ := (e.metadata.forward.keys.filter (· ∉ e.metadata.deleted)).length

end HyperspaceEngine

/-! ### Bitmaps of filters -/

variable {filters : List JsonLdFilter} {id : UInt32}

section
variable {fa : FloatArith} {m : JsonLdMetadataIndex}

theorem evaluateAnd_subset {conds : List CompiledFilter} :
    ∀ {result found : Bitmap}, CompiledFilter.evaluateAnd fa m result conds = .ok (some found) → found ⊆ result := by
  induction conds with
  | nil =>
    intro result found h
    obtain rfl := some.inj (Except.ok.inj h)
    exact Finset.Subset.refl result
  | cons cond conds ih =>
    intro result found h
    obtain ⟨first, -, h⟩ := Except.bind_eq_ok_iff.1 h
    cases first with
    | none =>
      obtain rfl := some.inj (Except.ok.inj h)
      exact Finset.empty_subset result
    | some first =>
      simp only at h
      split_ifs at h
      · obtain rfl := some.inj (Except.ok.inj h)
        exact Finset.empty_subset result
      · exact (ih h).trans Finset.inter_subset_left

/-- What filters allow has a payload and is not deleted. -/
theorem evaluateFilters_subset {allowed : Bitmap}
    (h : evaluateFilters fa m filters = .ok (some allowed)) : ∀ id ∈ allowed, id ∈ m.allIds := by
  unfold evaluateFilters at h
  split_ifs at h with hempty
  · cases h
  · exact fun id hid => mem_toFinset.1 (evaluateAnd_subset h hid)

theorem getPayload_of_mem_allIds (h : id ∈ m.allIds) : (m.getPayload id).isSome := by
  unfold JsonLdMetadataIndex.getPayload
  rw [AList.lookup_isSome]
  exact (JsonLdMetadataIndex.mem_allIds.1 h).1

end

section
variable {env : HnswEnv} {idx idx' : IncrementalHNSW} {query : EmbeddingVector} {topK : ℕ} {allowed : Option Bitmap}
  {results : List (UInt32 × F64)}

/-- What the graph search finds is filtered and cut, and the nodes stay as they are. -/
theorem graph_of_search
    (hmany : (allowed.filter fun allowed => allowed.card ≤ exactFilteredSearchLimit) = none)
    (h : idx.searchWithFilter env query topK allowed = some (results, idx')) :
    idx.SameVectors idx' ∧ ∀ result ∈ results, ∀ ids ∈ allowed, result.1 ∈ ids := by
  have hentered : idx.SameVectors
      (if idx.entryPoint ≠ noEntry ∧ ¬idx.contains idx.entryPoint = true then idx.fixEntryPoint else idx) := by
    split_ifs
    · exact sameVectors_of_nodes rfl
    · exact .refl idx
  unfold searchWithFilter at h
  rw [hmany] at h
  simp only at h
  generalize (if idx.entryPoint ≠ noEntry ∧ ¬idx.contains idx.entryPoint = true then idx.fixEntryPoint else idx) =
    entered at h hentered
  split_ifs at h
  · cases h
    exact ⟨hentered, fun result hresult => absurd hresult not_mem_nil⟩
  · obtain ⟨entry, -, h⟩ := bind_eq_some_iff.1 h
    obtain ⟨⟨found, searched⟩, hsearched, h⟩ := bind_eq_some_iff.1 h
    cases h
    refine ⟨hentered.trans (relinked_searchLayer hsearched).sameVectors, ?_⟩
    intro result hresult ids hids
    rw [mem_def.1 hids] at hresult
    exact of_decide_eq_true (mem_filter.1 (mem_of_mem_take hresult)).2

/-- Few allowed nodes are all compared. -/
theorem mem_exactFilteredSearch {ids : Bitmap} (h : idx.exactFilteredSearch env query topK ids = some results) :
    ∀ result ∈ results, result.1 ∈ ids := by
  intro result hresult
  obtain ⟨compared, hcompared, h⟩ := bind_eq_some_iff.1 h
  cases h
  have hmem := (mem_insertionSort _).1 (mem_of_mem_take hresult)
  obtain ⟨p, hp, hd⟩ := exists_of_mem_mapM hcompared result hmem
  obtain ⟨d, -, hd⟩ := bind_eq_some_iff.1 hd
  cases hd
  obtain ⟨i, hi, hnode⟩ := mem_filterMap.1 hp
  obtain ⟨node, -, rfl⟩ := map_eq_some_iff.1 hnode
  exact (Finset.mem_sort _).1 hi

/-- A search leaves the nodes as they are and returns allowed ids. -/
theorem of_searchWithFilter (h : idx.searchWithFilter env query topK allowed = some (results, idx')) :
    idx.SameVectors idx' ∧ ∀ result ∈ results, ∀ ids ∈ allowed, result.1 ∈ ids := by
  cases hfew : allowed.filter fun allowed => decide (allowed.card ≤ exactFilteredSearchLimit) with
  | none => exact graph_of_search hfew h
  | some few =>
    obtain ⟨hallowed, -⟩ := filter_eq_some_iff.1 hfew
    unfold searchWithFilter at h
    rw [hfew] at h
    obtain ⟨found, hfound, h⟩ := bind_eq_some_iff.1 h
    cases h
    refine ⟨.refl idx, ?_⟩
    intro result hresult ids hids
    obtain rfl : few = ids := some.inj (hallowed.symm.trans hids)
    exact mem_exactFilteredSearch hfound result hresult

end

namespace HyperspaceEngine

variable {Score : Type*} {env : RetrievalEnv Score} {e e' : HyperspaceEngine}

/-! ### Hits -/

/-- The hit of an id, with its IRI and its payload. -/
structure HitOf (e : HyperspaceEngine) (hit : SearchHit Score) : Prop where
  iri : hit.iri = (e.registry.lookup hit.id).getD ""
  payload : hit.payload = e.metadata.getPayload hit.id
  held : hit.payload.isSome

theorem hitOf_hitOf {score : Score} (h : id ∈ e.metadata.allIds) : e.HitOf (e.hitOf id score) :=
  ⟨rfl, rfl, getPayload_of_mem_allIds h⟩

/-- A search changes the index alone, and a filtered one has hits of ids with a payload. -/
theorem search_hits {query : EmbeddingVector} {topK : ℕ}
    {result : Except EngineError (List (SearchHit Score))} (h : e.search env query topK filters = some (e', result)) :
    (∃ index, e.index.SameVectors index ∧ e' = { e with index }) ∧
      (filters ≠ [] → ∀ hits, result = .ok hits → ∀ hit ∈ hits, e.HitOf hit) := by
  unfold search at h
  cases hvalid : validateSearchQuery env query with
  | error error =>
    rw [hvalid] at h
    cases h
    exact ⟨⟨e.index, .refl _, rfl⟩, fun _ hits h => (nomatch h)⟩
  | ok =>
    simp only [hvalid] at h
    cases hallowed : evaluateFilters env.engine.fa e.metadata filters with
    | error panic =>
      rw [hallowed] at h
      cases h
    | ok allowed =>
      simp only [hallowed] at h
      split_ifs at h with hnone
      · cases h
        refine ⟨⟨e.index, .refl _, rfl⟩, fun _ hits h hit hhit => ?_⟩
        rw [← Except.ok.inj h] at hhit
        exact absurd hhit not_mem_nil
      · obtain ⟨⟨results, index⟩, hsearch, h⟩ := map_eq_some_iff.1 h
        cases h
        refine ⟨⟨index, (of_searchWithFilter hsearch).1, rfl⟩, fun hfilters hits h hit hhit => ?_⟩
        rw [← Except.ok.inj h] at hhit
        obtain ⟨result, hresult, rfl⟩ := mem_map.1 hhit
        cases allowed with
        | none => exact absurd ⟨hfilters, rfl⟩ hnone
        | some allowed =>
          exact hitOf_hitOf (evaluateFilters_subset hallowed _ ((of_searchWithFilter hsearch).2 result hresult _ rfl))

theorem mem_listedIds {ids : List UInt32} (h : e.listedIds env filters = some ids) :
    ∀ id ∈ ids, id ∈ e.metadata.allIds := by
  intro id hid
  unfold listedIds at h
  split_ifs at h
  · cases h
    exact hid
  · cases hallowed : evaluateFilters env.engine.fa e.metadata filters with
    | error panic =>
      rw [hallowed] at h
      cases h
    | ok allowed =>
      rw [hallowed] at h
      cases allowed with
      | none =>
        cases h
        exact absurd hid not_mem_nil
      | some allowed =>
        cases h
        exact evaluateFilters_subset hallowed id ((Finset.mem_sort _).1 hid)

theorem hitOf_listedHit {hit : SearchHit Score} (h : e.listedHit env id = .ok hit)
    (hid : id ∈ e.metadata.allIds) : e.HitOf hit := by
  unfold listedHit at h
  cases hlookup : e.registry.lookup id with
  | none =>
    rw [hlookup] at h
    cases h
  | some iri =>
    rw [hlookup] at h
    cases h
    exact ⟨by rw [hlookup, getD_some], rfl, getPayload_of_mem_allIds hid⟩

theorem listFiltered_hits {limit : ℕ} {hits : List (SearchHit Score)}
    (h : e.listFiltered env filters limit = some (.ok hits)) : ∀ hit ∈ hits, e.HitOf hit := by
  unfold listFiltered at h
  obtain ⟨ids, hids, h⟩ := map_eq_some_iff.1 h
  cases hmap : ids.mapM (e.listedHit env) with
  | error error =>
    rw [hmap] at h
    cases h
  | ok all =>
    rw [hmap] at h
    cases h
    intro hit hhit
    have hall : hit ∈ all := mem_mergeSort.1 (mem_of_mem_take hhit)
    obtain ⟨id, hid, hlisted⟩ := Except.exists_of_mem_mapM hmap hit hall
    exact hitOf_listedHit hlisted (mem_listedIds hids id hid)

end HyperspaceEngine

end WildAgentOs.Engine
