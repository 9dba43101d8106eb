import WildAgentOs.Memory.Blackboard

/-!
# Projections

`memory/l3_projection.rs`: the cache of materialized views, with the index of the nodes they depend on.

* `MaterializedView`, `ProjectionCache`;
* `invalidateByNode`, `invalidateView`, `invalidateCacheForTask`, `cleanupInvalid`, `clearCache`;
* `CacheRun`, `Covers`, `servesNone_invalidateByNode`: a node change reaches every view that depends on the node.
-/

namespace WildAgentOs.Memory

open AList List

structure MaterializedView where
  cacheKey : String
  resultJson : String
  dependentNodes : List String
  isValid : Bool
  deriving DecidableEq

structure ProjectionCache where
  materializedCache : AList fun _ : String => MaterializedView
  reverseIndex : String → List String

namespace ProjectionCache

def new : ProjectionCache where
  materializedCache := ∅
  reverseIndex _ := []

/-- The view under a key is no longer valid. -/
def invalidateKey (cache : AList fun _ : String => MaterializedView) (key : String) :
    AList fun _ : String => MaterializedView :=
  match cache.lookup key with
  | some view => cache.insert key { view with isValid := false }
  | none => cache

def invalidateByNode (c : ProjectionCache) (nodeIri : String) : ProjectionCache :=
  { c with materializedCache := (c.reverseIndex nodeIri).foldl invalidateKey c.materializedCache }

/-- The parts of a key, from the right. -/
def keyParts (key : String) : List String := (key.toList.splitOn '\x1f').reverse.map String.ofList

def invalidateView (c : ProjectionCache) (frameName taskIri : String) : ProjectionCache :=
  let keys := c.materializedCache.keys.filter fun key =>
    (keyParts key)[0]? = some taskIri ∧ (keyParts key)[1]? = some frameName
  { c with materializedCache := keys.foldl invalidateKey c.materializedCache }

def invalidateCacheForTask (c : ProjectionCache) (taskIri : String) : ProjectionCache :=
  let keys := c.materializedCache.keys.filter fun key => (keyParts key)[0]? = some taskIri
  { c with materializedCache := keys.foldl invalidateKey c.materializedCache }

def rebuildReverseIndex (cache : AList fun _ : String => MaterializedView) (nodeIri : String) : List String :=
  cache.entries.flatMap fun entry => (entry.2.dependentNodes.filter (· = nodeIri)).map fun _ => entry.1

def cleanupInvalid (c : ProjectionCache) : ProjectionCache :=
  let invalid := c.materializedCache.entries.filterMap fun entry => if entry.2.isValid then none else some entry.1
  if invalid = [] then c
  else
    let cache := invalid.foldl (fun cache key => cache.erase key) c.materializedCache
    { materializedCache := cache, reverseIndex := rebuildReverseIndex cache }

def clearCache (_ : ProjectionCache) : ProjectionCache := new

/-- A view is inserted, and its key listed under its nodes. -/
def insertView (c : ProjectionCache) (view : MaterializedView) : ProjectionCache where
  materializedCache := c.materializedCache.insert view.cacheKey view
  reverseIndex nodeIri :=
    c.reverseIndex nodeIri ++ (view.dependentNodes.filter (· = nodeIri)).map fun _ => view.cacheKey

/-- Views keep their nodes, and those under the keys are invalid. -/
theorem lookup_invalidateKeys {cache : AList fun _ : String => MaterializedView} {keys : List String} {key : String}
    {view : MaterializedView} (h : (keys.foldl invalidateKey cache).lookup key = some view) :
    ∃ old, cache.lookup key = some old ∧ old.dependentNodes = view.dependentNodes ∧
      (old.isValid = false ∨ key ∈ keys → view.isValid = false) := by
  induction keys generalizing cache with
  | nil => exact ⟨view, h, rfl, fun hkey => hkey.resolve_right not_mem_nil⟩
  | cons k keys ih =>
    obtain ⟨old, hold, hnodes, hvalid⟩ := ih h
    unfold invalidateKey at hold
    cases hk : cache.lookup k with
    | none =>
      have hne : key ≠ k := by
        rintro rfl
        simp [hk] at hold
      exact ⟨old, by rwa [hk] at hold, hnodes, by simpa [hne] using hvalid⟩
    | some stored =>
      rw [hk] at hold
      by_cases hne : key = k
      · rw [hne, lookup_insert] at hold
        cases hold
        exact ⟨stored, hne ▸ hk, hnodes, fun _ => hvalid (.inl rfl)⟩
      · rw [lookup_insert_ne hne] at hold
        exact ⟨old, hold, hnodes, by simpa [hne] using hvalid⟩

end ProjectionCache

/-! ### Runs -/

/-- The calls on the cache; `project` stores a view and lists it in two steps. -/
inductive CacheStep
  | storeView (view : MaterializedView)
  | listView (i : ℕ)
  | invalidateByNode (nodeIri : String)
  | invalidateView (frameName taskIri : String)
  | invalidateCacheForTask (taskIri : String)
  | cleanupInvalid
  | clearCache

/-- The cache, and the views that are stored and not yet listed under their nodes. -/
structure CacheRun where
  cache : ProjectionCache
  pending : List MaterializedView

namespace CacheRun

def step (r : CacheRun) : CacheStep → CacheRun
  | .storeView view =>
    ⟨{ r.cache with materializedCache := r.cache.materializedCache.insert view.cacheKey view }, view :: r.pending⟩
  | .listView i =>
    match r.pending[i]? with
    | some view =>
      ⟨{ r.cache with reverseIndex := (r.cache.insertView view).reverseIndex }, r.pending.eraseIdx i⟩
    | none => r
  | .invalidateByNode nodeIri => { r with cache := r.cache.invalidateByNode nodeIri }
  | .invalidateView frameName taskIri => { r with cache := r.cache.invalidateView frameName taskIri }
  | .invalidateCacheForTask taskIri => { r with cache := r.cache.invalidateCacheForTask taskIri }
  | .cleanupInvalid => { r with cache := r.cache.cleanupInvalid }
  | .clearCache => { r with cache := r.cache.clearCache }

def run (steps : List CacheStep) : CacheRun := steps.foldl step ⟨.new, []⟩

variable {r : CacheRun} {nodeIri : String}

/-- A view of the node is about to be listed. -/
def Awaits (r : CacheRun) (nodeIri key : String) : Prop :=
  ∃ view ∈ r.pending, view.cacheKey = key ∧ nodeIri ∈ view.dependentNodes

/-- Each view is listed under the nodes it depends on, or about to be. -/
def Covers (r : CacheRun) : Prop :=
  ∀ key view, r.cache.materializedCache.lookup key = some view → ∀ nodeIri ∈ view.dependentNodes,
    key ∈ r.cache.reverseIndex nodeIri ∨ r.Awaits nodeIri key

/-- No valid view depends on the node, apart from those about to be listed. -/
def ServesNone (r : CacheRun) (nodeIri : String) : Prop :=
  ∀ key view, r.cache.materializedCache.lookup key = some view → nodeIri ∈ view.dependentNodes →
    view.isValid = false ∨ r.Awaits nodeIri key

theorem Covers.invalidateKeys (h : r.Covers) (keys : List String) :
    Covers { r with cache := { r.cache with
      materializedCache := keys.foldl ProjectionCache.invalidateKey r.cache.materializedCache } } := by
  intro key view hview nodeIri hnode
  obtain ⟨old, hold, hnodes, -⟩ := ProjectionCache.lookup_invalidateKeys hview
  exact h key old hold nodeIri (hnodes ▸ hnode)

theorem Covers.step (h : r.Covers) (st : CacheStep) : (r.step st).Covers := by
  cases st with
  | storeView view =>
    intro key view' hview nodeIri hnode
    simp only [CacheRun.step] at hview
    by_cases hkey : key = view.cacheKey
    · rw [hkey, lookup_insert] at hview
      cases hview
      exact .inr ⟨view, mem_cons_self, hkey.symm, hnode⟩
    · rw [lookup_insert_ne hkey] at hview
      refine (h key view' hview nodeIri hnode).imp_right ?_
      exact fun ⟨p, hp, hsame⟩ => ⟨p, mem_cons_of_mem _ hp, hsame⟩
  | listView i =>
    simp only [CacheRun.step]
    cases hi : r.pending[i]? with
    | none => exact h
    | some listed =>
      intro key view hview nodeIri hnode
      rcases h key view hview nodeIri hnode with hindex | ⟨p, hp, rfl, hpnode⟩
      · exact .inl (mem_append_left _ hindex)
      · -- The view that is listed now, or one that still waits.
        obtain ⟨j, hj⟩ := getElem?_of_mem hp
        by_cases hij : i = j
        · obtain rfl : listed = p := Option.some.inj (hi.symm.trans (hij ▸ hj))
          refine .inl (mem_append_right _ (mem_map_of_mem (mem_filter.2 ⟨hpnode, ?_⟩)))
          exact decide_eq_true rfl
        · exact .inr ⟨p, mem_eraseIdx_iff_getElem?.2 ⟨j, Ne.symm hij, hj⟩, rfl, hpnode⟩
  | invalidateByNode | invalidateView | invalidateCacheForTask => exact h.invalidateKeys _
  | cleanupInvalid =>
    simp only [CacheRun.step, ProjectionCache.cleanupInvalid]
    split_ifs
    · exact h
    · -- The index is made anew from the views that are left.
      intro key view hview nodeIri hnode
      refine .inl (mem_flatMap.2 ⟨⟨key, view⟩, mem_lookup_iff.1 hview, mem_map.2 ⟨nodeIri, ?_, rfl⟩⟩)
      exact mem_filter.2 ⟨hnode, decide_eq_true rfl⟩
  | clearCache => exact fun _ _ hview => nomatch hview

theorem covers_run (steps : List CacheStep) : (run steps).Covers := by
  induction steps using reverseRecOn with
  | nil => exact fun _ _ hview => nomatch hview
  | append_singleton steps st ih =>
    unfold run at ih ⊢
    rw [foldl_append]
    exact ih.step st

/-- **A change of a node** leaves no valid view that depends on it, after any calls. -/
theorem servesNone_invalidateByNode (steps : List CacheStep) (nodeIri : String) :
    ((run steps).step (.invalidateByNode nodeIri)).ServesNone nodeIri := by
  intro key view hview hnode
  obtain ⟨old, hold, hnodes, hvalid⟩ := ProjectionCache.lookup_invalidateKeys hview
  exact (covers_run steps key old hold nodeIri (hnodes ▸ hnode)).imp_left fun hkey => hvalid (.inr hkey)

end CacheRun

end WildAgentOs.Memory
