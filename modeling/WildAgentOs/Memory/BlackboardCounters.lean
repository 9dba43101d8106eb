import WildAgentOs.Lib.Tally
import WildAgentOs.Memory.Scheduler

/-!
# The counters of the blackboard

`memory/l2_blackboard.rs`: `node_count` and `total_bytes`, which each call that caches or drops a node changes
by itself.

* `Counters`, `Counters.add`, `Counters.remove`: they wrap;
* `Op.count`: the counters after a call, read off beside `Op.step`;
* `Exact`, `Op.drift`, `exact_step_iff`, `allExact_iff`.
-/

namespace WildAgentOs.Memory.Blackboard

open Json Tally List Option

/-! ### Counters -/

structure Counters where
  nodeCount : UInt64
  totalBytes : UInt64
  /-- A subtraction has gone below zero. -/
  wrapped : Bool
  deriving DecidableEq

def Counters.zero : Counters := ⟨0, 0, false⟩

/-- A node of this size is cached. -/
def Counters.add (c : Counters) (isUpdate : Bool) (size : ℕ) : Counters :=
  { c with
    nodeCount := if isUpdate then c.nodeCount else c.nodeCount + 1
    totalBytes := c.totalBytes + UInt64.ofNat size }

/-- A node of this size is dropped. -/
def Counters.remove (c : Counters) (size : ℕ) : Counters where
  nodeCount := c.nodeCount - 1
  totalBytes := c.totalBytes - UInt64.ofNat size
  wrapped := c.wrapped || decide (c.nodeCount < 1) || decide (c.totalBytes < UInt64.ofNat size)

/-! ### The counters after a call -/

variable (env : BlackboardEnv)

/-- The checks of `write_node`. -/
def acceptsNode (s : Blackboard) (nodeIri jsonLd : String) : Bool :=
  match checkDocument env jsonLd "JSON parse error: " with
  | .error _ => false
  | .ok _ => ((guardedTaskIri nodeIri).filter fun owner => s.taskRecordIsClosed env owner).isNone

/-- The checks of `write_node_to_graph`. -/
def acceptsDocument (jsonLd : String) : Bool :=
  match checkDocument env jsonLd "JSON parse error: " with
  | .error _ => false
  | .ok _ => true

/-- A document is cached under an IRI. -/
def countWrite (s : Blackboard) (nodeIri : String) (size : ℕ) (c : Counters) : Counters :=
  c.add (s.nodeCache.lookup nodeIri).isSome size

/-- What a batch caches, one item after the other, and the state in which it starts to. -/
def acceptedBatch (s : Blackboard) (nodes : List (String × String × Option String)) :
    Option (Blackboard × List (String × String × Value × Option String)) :=
  match checkBatch env 0 nodes with
  | .error _ => none
  | .ok validated =>
    match s.syncBatch env validated with
    | .error _ => none
    | .ok s => some (s, validated)

/-- The items of a batch, each cached by a function. -/
def countItems (cache : Blackboard → String × String × Value × Option String → Blackboard) :
    Blackboard → List (String × String × Value × Option String) → Counters → Counters
  | _, [], c => c
  | s, item :: items, c => countItems cache (cache s item) items (s.countWrite item.1 item.2.1.utf8ByteSize c)

/-- `remember_task_document`. -/
def countRemembered (s : Blackboard) (now : ℤ) (taskIri : String) (doc : Value) (c : Counters) : Counters :=
  if isTaskDocument doc then
    match s.nodeCache.lookup taskIri with
    | some _ => c
    | none => c.add false (nodeFromDocument env now taskIri doc).size
  else c

/-- `evict_node` and `delete_node`. -/
def countRemoval (s : Blackboard) (nodeIri : String) (c : Counters) : Counters :=
  match s.nodeCache.lookup nodeIri with
  | some node => c.remove node.size
  | none => c

/-- Nodes that are dropped one after the other. -/
def countRemovals (drop : Blackboard → String → Blackboard) : Blackboard → List String → Counters → Counters
  | _, [], c => c
  | s, iri :: iris, c => countRemovals drop (drop s iri) iris (s.countRemoval iri c)

/-- `evict_subtree` and `release_subtree`. -/
def countSubtree (drop : Blackboard → String → Blackboard) (fuel : ℕ) (s : Blackboard) (taskIri : String)
    (c : Counters) : Option Counters :=
  (s.tasksToRelease fuel taskIri).map fun tasks => countRemovals drop s (tasks.flatMap s.nodesOf) c

/-- `gc_completed_tasks`. -/
def countCompleted (fuel : ℕ) : Blackboard → List String → Counters → Option Counters
  | _, [], c => some c
  | s, task :: tasks, c => do
    let c ← countSubtree (evictNode env) fuel s task c
    let s ← s.evictSubtree env fuel task
    countCompleted fuel s tasks c

/-- The counters after a call. -/
def Op.count (s : Blackboard) (c : Counters) : Op → Option Counters
  | .writeNode _ nodeIri jsonLd =>
    some (if s.acceptsNode env nodeIri jsonLd then s.countWrite nodeIri jsonLd.utf8ByteSize c else c)
  | .writeNodeToGraph _ nodeIri jsonLd _ =>
    some (if acceptsDocument env jsonLd then s.countWrite nodeIri jsonLd.utf8ByteSize c else c)
  | .writeNodesBatch now nodes =>
    match s.acceptedBatch env (nodes.map fun node => (node.1, node.2, none)) with
    | some (s, items) => some (countItems (cacheBatchNode now) s items c)
    | none => some c
  | .writeBatchToGraphs now nodes =>
    match s.acceptedBatch env (nodes.map fun node => (node.1, node.2.1, some node.2.2)) with
    | some (s, items) => some (countItems (cacheGraphNode now) s items c)
    | none => some c
  | .readNode now nodeIri =>
    match s.nodeCache.lookup nodeIri, s.persistedTaskDocument env nodeIri with
    | none, some doc => some (s.countRemembered env now nodeIri doc c)
    | _, _ => some c
  | .rememberTaskDocument now taskIri doc => some (s.countRemembered env now taskIri doc c)
  | .deleteNode nodeIri | .evictNode nodeIri => some (s.countRemoval nodeIri c)
  | .evictSubtree fuel taskIri => countSubtree (Blackboard.evictNode env) fuel s taskIri c
  | .releaseSubtree fuel taskIri => countSubtree (Blackboard.deleteNode env) fuel s taskIri c
  | .gcCompletedTasks fuel => countCompleted env fuel s s.completedTasks c
  | .discardRecordedNodes recorded => some (countRemovals (Blackboard.deleteNode env) s recorded c)
  | .registerTask _ _ | .completeTask _ _ | .markDirty _ | .flushNodes _ _ _ _ | .archiveCompletedTask _ _
  | .flushOxigraph _ | .runSync _ => some c

/-- `clear`; the store may refuse to drop the triples of a graph. -/
def clear (drops : Option String → Bool) (s : Blackboard) : Blackboard where
  nodeCache := ∅
  taskNodes := ∅
  taskTree := ∅
  roleIndex _ := []
  cycleIndex _ := []
  typeIndex _ := []
  store graph nodeIri :=
    if graph ∈ [none, some taskArchiveGraph, some taskRecordGraph] ∧ drops graph then [] else s.store graph nodeIri
  pendingSyncs := s.pendingSyncs
  serverTaskIris := []

/-- A call, or `clear`. -/
inductive CountedOp
  | call (op : Op)
  | clear (drops : Option String → Bool)

def CountedOp.step : Blackboard × Counters → CountedOp → Option (Blackboard × Counters)
  | (s, c), .call op => do
    let s' ← op.step env s
    let c' ← op.count env s c
    return (s', c')
  | (s, _), .clear drops => some (s.clear drops, .zero)

def countedRun (sc : Blackboard × Counters) (ops : List CountedOp) : Option (Blackboard × Counters) :=
  ops.foldlM (CountedOp.step env) sc

/-! ### Exactness -/

/-- The number of cached nodes. -/
def cached (s : Blackboard) : ℕ := total (fun _ => 1) s.nodeCache

/-- The sum of their sizes. -/
def cachedBytes (s : Blackboard) : ℕ := total Node.size s.nodeCache

/-- The counters are those of the cache, and have never gone below zero. -/
structure Exact (s : Blackboard) (c : Counters) : Prop where
  nodeCount : c.nodeCount.toNat = s.cached
  totalBytes : c.totalBytes.toNat = s.cachedBytes
  kept : c.wrapped = false

/-- The numbers of the cache are numbers of 64 bits. -/
def Fits (s : Blackboard) : Prop := s.cached < 2 ^ 64 ∧ s.cachedBytes < 2 ^ 64

/-- The sizes of the nodes that the items of a batch replace. -/
def replacedBytes (cache : Blackboard → String × String × Value × Option String → Blackboard) :
    Blackboard → List (String × String × Value × Option String) → ℕ
  | _, [] => 0
  | s, item :: items => sizeAt Node.size s.nodeCache item.1 + replacedBytes cache (cache s item) items

/-- The bytes that an archive takes from the node. -/
def archiveDrift (s : Blackboard) (now : ℤ) (taskIri : String) : ℤ :=
  match s.nodeCache.lookup taskIri with
  | none => 0
  | some node =>
    match env.fromStr node.jsonLd, (s.archiveCompletedTask env now taskIri).2 with
    | .ok doc, .ok true => node.size - (env.toString (archivedDocument env now taskIri doc)).utf8ByteSize
    | _, _ => 0

/-- The bytes that a call adds to the counter and not to the cache: those of the nodes that it replaces. -/
def Op.drift (s : Blackboard) : Op → ℤ
  | .writeNode _ nodeIri jsonLd =>
    if s.acceptsNode env nodeIri jsonLd then sizeAt Node.size s.nodeCache nodeIri else 0
  | .writeNodeToGraph _ nodeIri jsonLd _ =>
    if acceptsDocument env jsonLd then sizeAt Node.size s.nodeCache nodeIri else 0
  | .writeNodesBatch now nodes =>
    match s.acceptedBatch env (nodes.map fun node => (node.1, node.2, none)) with
    | some (s, items) => replacedBytes (cacheBatchNode now) s items
    | none => 0
  | .writeBatchToGraphs now nodes =>
    match s.acceptedBatch env (nodes.map fun node => (node.1, node.2.1, some node.2.2)) with
    | some (s, items) => replacedBytes (cacheGraphNode now) s items
    | none => 0
  | .archiveCompletedTask now taskIri => s.archiveDrift env now taskIri
  | _ => 0

/-- The call replaces no bytes, and what it leaves fits. -/
def CountedOp.Clean (s : Blackboard) : CountedOp → Prop
  | .call op => ∀ s', op.step env s = some s' → (2 ^ 64 : ℤ) ∣ op.drift env s ∧ Fits s'
  | .clear _ => True

/-- In each state that is reached, the counters are exact. -/
def AllExact (sc : Blackboard × Counters) (ops : List CountedOp) : Prop :=
  ∀ before, before <+: ops → ∀ s c, countedRun env sc before = some (s, c) → Exact s c

/-- Each call is clean in the state in which it is made. -/
def AllClean (sc : Blackboard × Counters) (ops : List CountedOp) : Prop :=
  ∀ before op, before ++ [op] <+: ops → ∀ s c, countedRun env sc before = some (s, c) → op.Clean env s

/-! ### What a change of the cache does to the balance -/

/-- The counters are those of the cache, up to some bytes and to the width of the counters. -/
structure Balanced (s : Blackboard) (c : Counters) (d : ℤ) : Prop where
  nodeCount : c.nodeCount.toNat = s.cached % 2 ^ 64
  totalBytes : (c.totalBytes.toNat : ℤ) = (s.cachedBytes + d) % 2 ^ 64
  kept : c.wrapped = false

variable {env} {s s' : Blackboard} {c c' : Counters} {d : ℤ}

theorem Exact.fits (h : Exact s c) : Fits s :=
  ⟨h.nodeCount ▸ c.nodeCount.toNat_lt, h.totalBytes ▸ c.totalBytes.toNat_lt⟩

theorem Exact.balanced (h : Exact s c) : Balanced s c 0 where
  nodeCount := by rw [h.nodeCount, Nat.mod_eq_of_lt h.fits.1]
  totalBytes := by
    have hfits := h.fits.2
    rw [h.totalBytes]
    omega
  kept := h.kept

/-- **Balanced counters are exact** if nothing is added and the numbers fit. -/
theorem Balanced.exact_iff_dvd (h : Balanced s c d) : Exact s c ↔ (2 ^ 64 : ℤ) ∣ d ∧ Fits s := by
  have hcount := h.nodeCount
  have hbytes := h.totalBytes
  constructor
  · intro hexact
    have hfits := hexact.fits.2
    rw [hexact.totalBytes] at hbytes
    exact ⟨by omega, hexact.fits⟩
  · rintro ⟨hd, hfits⟩
    refine ⟨by rw [hcount, Nat.mod_eq_of_lt hfits.1], ?_, h.kept⟩
    have hbound := hfits.2
    omega

theorem Balanced.congr (h : Balanced s c d) (hcached : s'.cached = s.cached)
    (hbytes : s'.cachedBytes = s.cachedBytes) : Balanced s' c d :=
  ⟨hcached ▸ h.nodeCount, hbytes ▸ h.totalBytes, h.kept⟩

theorem Balanced.of_nodeCache (h : Balanced s c d) (hcache : s'.nodeCache = s.nodeCache) : Balanced s' c d :=
  h.congr (by rw [cached, cached, hcache]) (by rw [cachedBytes, cachedBytes, hcache])

variable {nodeIri : String}

/-- **A node is cached**: the bytes of the one that it replaces stay in the counter. -/
theorem Balanced.add (h : Balanced s c d) {node : Node} (hcache : s'.nodeCache = s.nodeCache.insert nodeIri node) :
    Balanced s' (s.countWrite nodeIri node.size c) (d + sizeAt Node.size s.nodeCache nodeIri) := by
  have hcount := total_insert_add (fun _ : Node => 1) s.nodeCache nodeIri node
  have hbytes := total_insert_add Node.size s.nodeCache nodeIri node
  have hbalanced := h.nodeCount
  have htotal := h.totalBytes
  refine ⟨?_, ?_, h.kept⟩
  · unfold countWrite Counters.add cached at *
    rw [hcache]
    cases hold : s.nodeCache.lookup nodeIri with
    | none =>
      rw [sizeAt_of_lookup_eq_none hold] at hcount
      simp only [isSome_none, Bool.false_eq_true, if_false, UInt64.toNat_add, UInt64.reduceToNat]
      omega
    | some old =>
      rw [sizeAt_of_lookup hold] at hcount
      simp only [isSome_some, if_true]
      omega
  · unfold countWrite Counters.add cachedBytes at *
    rw [hcache]
    simp only [UInt64.toNat_add, UInt64.toNat_ofNat']
    omega

/-- **A node is dropped**: no counter goes below zero. -/
theorem Exact.removal (h : Exact s c) (hcache : s'.nodeCache = s.nodeCache.erase nodeIri) :
    Exact s' (s.countRemoval nodeIri c) := by
  have hcount := total_erase_add (fun _ : Node => 1) s.nodeCache nodeIri
  have hbytes := total_erase_add Node.size s.nodeCache nodeIri
  unfold countRemoval
  cases hold : s.nodeCache.lookup nodeIri with
  | none =>
    rw [sizeAt_of_lookup_eq_none hold, add_zero] at hcount hbytes
    refine ⟨?_, ?_, h.kept⟩
    · rw [h.nodeCount, cached, cached, hcache, hcount]
    · rw [h.totalBytes, cachedBytes, cachedBytes, hcache, hbytes]
  | some node =>
    rw [sizeAt_of_lookup hold] at hcount hbytes
    have hfits := h.fits
    have hnodes := h.nodeCount
    have htotal := h.totalBytes
    unfold Fits cached cachedBytes at hfits
    unfold cached at hnodes
    unfold cachedBytes at htotal
    unfold Counters.remove
    refine ⟨?_, ?_, ?_⟩
    · rw [UInt64.toNat_sub, cached, hcache, show (1 : UInt64).toNat = 1 from rfl]
      omega
    · rw [UInt64.toNat_sub, cachedBytes, hcache, UInt64.toNat_ofNat']
      omega
    · simp only [h.kept, Bool.false_or, Bool.or_eq_false_iff, decide_eq_false_iff_not, UInt64.lt_iff_toNat_lt,
      UInt64.toNat_ofNat', UInt64.reduceToNat]
      omega

/-! ### What each call does to the cache -/

theorem nodeCache_trackIndexed (s : Blackboard) (nodeIri : String) (parsed : Value) :
    (s.trackIndexed nodeIri parsed).nodeCache = s.nodeCache := by
  unfold trackIndexed
  cases extractTaskIri nodeIri <;> rfl

theorem Syncs.nodeCache (h : Syncs s s') : s'.nodeCache = s.nodeCache := by
  obtain ⟨_, _, _, rfl⟩ := h
  rfl

/-- A document with this text is cached under an IRI, if it is taken. -/
def Caches (s : Blackboard) (accepted : Bool) (nodeIri jsonLd : String) (s' : Blackboard) : Prop :=
  if accepted then ∃ node : Node, node.size = jsonLd.utf8ByteSize ∧ s'.nodeCache = s.nodeCache.insert nodeIri node
  else s'.nodeCache = s.nodeCache

theorem caches_writeNode (env : BlackboardEnv) (s : Blackboard) (now : ℤ) (nodeIri jsonLd : String) :
    Caches s (s.acceptsNode env nodeIri jsonLd) nodeIri jsonLd (s.writeNode env now nodeIri jsonLd).1 := by
  unfold writeNode acceptsNode Caches
  cases hcheck : checkDocument env jsonLd "JSON parse error: " with
  | error e => rfl
  | ok parsed =>
    simp only
    cases hguard : (guardedTaskIri nodeIri).filter fun owner => s.taskRecordIsClosed env owner with
    | some owner => rfl
    | none =>
      simp only [isNone_none, if_true]
      let node := s.nodeOf now nodeIri jsonLd parsed (textMember parsed "named_graph")
      have hcache : (((s.cacheNode node).writeSync env none nodeIri parsed).trackIndexed nodeIri parsed).nodeCache =
          s.nodeCache.insert nodeIri node := by
        rw [nodeCache_trackIndexed, (syncs_writeSync _ none nodeIri parsed).nodeCache]
        rfl
      refine ⟨node, rfl, ?_⟩
      split_ifs
      · cases hpersist : persistServerTaskRecord env _ nodeIri parsed with
        | error e => exact hcache
        | ok s'' => exact (syncs_persistServerTaskRecord hpersist).nodeCache.trans hcache
      · exact hcache

theorem caches_writeNodeToGraph (env : BlackboardEnv) (s : Blackboard) (now : ℤ) (nodeIri jsonLd graphName : String) :
    Caches s (acceptsDocument env jsonLd) nodeIri jsonLd (s.writeNodeToGraph env now nodeIri jsonLd graphName).1 := by
  unfold writeNodeToGraph acceptsDocument Caches
  cases hcheck : checkDocument env jsonLd "JSON parse error: " with
  | error e => rfl
  | ok parsed =>
    refine ⟨s.nodeOf now nodeIri jsonLd parsed (some graphName), rfl, ?_⟩
    show (trackIndexed _ nodeIri parsed).nodeCache = _
    rw [nodeCache_trackIndexed, (syncs_writeSync _ (some graphName) nodeIri parsed).nodeCache]
    rfl

theorem Balanced.caches (h : Balanced s c d) {accepted : Bool} {nodeIri jsonLd : String}
    (hcaches : Caches s accepted nodeIri jsonLd s') :
    Balanced s' (if accepted then s.countWrite nodeIri jsonLd.utf8ByteSize c else c)
      (d + if accepted then (sizeAt Node.size s.nodeCache nodeIri : ℤ) else 0) := by
  unfold Caches at hcaches
  split_ifs at hcaches ⊢ with haccepted
  · obtain ⟨node, hsize, hcache⟩ := hcaches
    exact hsize ▸ h.add hcache
  · rw [add_zero]
    exact h.of_nodeCache hcaches

/-- A function that caches an item of a batch. -/
def CachesItems (cache : Blackboard → String × String × Value × Option String → Blackboard) : Prop :=
  ∀ s item, Caches s true item.1 item.2.1 (cache s item)

theorem cachesItems_cacheBatchNode (now : ℤ) : CachesItems (cacheBatchNode now) := by
  intro s item
  refine ⟨s.nodeOf now item.1 item.2.1 item.2.2.1 (textMember item.2.2.1 "named_graph"), rfl, ?_⟩
  unfold cacheBatchNode trackNode
  cases extractTaskIri item.1 <;> rfl

theorem cachesItems_cacheGraphNode (now : ℤ) : CachesItems (cacheGraphNode now) := by
  intro s item
  refine ⟨s.nodeOf now item.1 item.2.1 item.2.2.1 item.2.2.2, rfl, ?_⟩
  unfold cacheGraphNode
  rw [nodeCache_trackIndexed]
  rfl

variable {cache : Blackboard → String × String × Value × Option String → Blackboard}

/-- A batch of items, one after the other. -/
theorem Balanced.items (h : Balanced s c d)
    (hcache : CachesItems cache) (items : List (String × String × Value × Option String)) :
    Balanced (items.foldl cache s) (countItems cache s items c) (d + replacedBytes cache s items) := by
  induction items generalizing s c d with
  | nil =>
    rw [replacedBytes, Nat.cast_zero, add_zero]
    exact h
  | cons item items ih =>
    have hitem := ih (h.caches (hcache s item))
    rw [if_pos rfl, if_pos rfl, add_assoc, ← Nat.cast_add] at hitem
    exact hitem

/-- A batch that is taken goes on from a state with the same cache. -/
theorem acceptedBatch_spec {nodes : List (String × String × Option String)} {s₁ : Blackboard}
    {items : List (String × String × Value × Option String)} (h : s.acceptedBatch env nodes = some (s₁, items)) :
    s₁.nodeCache = s.nodeCache := by
  unfold acceptedBatch at h
  cases hcheck : checkBatch env 0 nodes with
  | error e => simp [hcheck] at h
  | ok validated =>
    cases hsync : s.syncBatch env validated with
    | error e => simp [hcheck, hsync] at h
    | ok s₂ =>
      simp only [hcheck, hsync, some.injEq, Prod.mk.injEq] at h
      exact h.1 ▸ (syncs_syncBatch hsync).nodeCache

/-- The end of a batch, whichever way its items are cached. -/
theorem batch_eq (nodes : List (String × String × Option String))
    (cache : Blackboard → String × String × Value × Option String → Blackboard) :
    (match (do
        let validated ← checkBatch env 0 nodes
        let s ← s.syncBatch env validated
        return validated.foldl cache s : Except BlackboardError Blackboard) with
      | .error e => (s, Except.error e)
      | .ok s' => (s', .ok ())).1 =
    match s.acceptedBatch env nodes with
    | some (s₁, items) => items.foldl cache s₁
    | none => s := by
  unfold acceptedBatch
  cases hcheck : checkBatch env 0 nodes with
  | error e => rfl
  | ok validated =>
    simp only [bind, Except.bind]
    cases hsync : s.syncBatch env validated with
    | error e => rfl
    | ok s₁ => rfl

theorem Balanced.batch (h : Balanced s c d) (hcache : CachesItems cache)
    (nodes : List (String × String × Option String)) :
    ∀ c', (match s.acceptedBatch env nodes with
      | some (s₁, items) => some (countItems cache s₁ items c)
      | none => some c) = some c' →
    Balanced (match s.acceptedBatch env nodes with
      | some (s₁, items) => items.foldl cache s₁
      | none => s) c'
      (d + match s.acceptedBatch env nodes with
        | some (s₁, items) => (replacedBytes cache s₁ items : ℤ)
        | none => 0) := by
  intro c' hc'
  cases hbatch : s.acceptedBatch env nodes with
  | none =>
    rw [hbatch] at hc'
    cases hc'
    simpa using h
  | some pair =>
    obtain ⟨s₁, items⟩ := pair
    rw [hbatch] at hc'
    cases hc'
    exact (h.of_nodeCache (acceptedBatch_spec hbatch)).items hcache items

/-! ### Nodes that are dropped -/

/-- A function that drops a node from the cache. -/
def Erases (drop : Blackboard → String → Blackboard) : Prop := ∀ s iri, (drop s iri).nodeCache = s.nodeCache.erase iri

theorem erase_of_lookup_eq_none (h : s.nodeCache.lookup nodeIri = none) : s.nodeCache.erase nodeIri = s.nodeCache :=
  AList.ext (kerase_of_notMem_keys (mt AList.mem_keys.2 (AList.lookup_eq_none.1 h)))

theorem erases_evictNode (env : BlackboardEnv) : Erases (evictNode env) := by
  intro s iri
  unfold evictNode
  cases hnode : s.nodeCache.lookup iri with
  | none => exact (erase_of_lookup_eq_none hnode).symm
  | some node => exact (unindexNode_nodeCache _ iri node).1

theorem erases_deleteNode (env : BlackboardEnv) : Erases (deleteNode env) := by
  intro s iri
  unfold deleteNode
  cases hnode : s.nodeCache.lookup iri with
  | none => exact (erase_of_lookup_eq_none hnode).symm
  | some node => exact (unindexNode_nodeCache _ iri node).1.trans (syncs_dropTriples _ _ iri).nodeCache

variable {drop : Blackboard → String → Blackboard}

theorem Exact.removals (h : Exact s c) (hdrop : Erases drop)
    (iris : List String) : Exact (iris.foldl drop s) (countRemovals drop s iris c) := by
  induction iris generalizing s c with
  | nil => exact h
  | cons iri iris ih => exact ih (h.removal (hdrop s iri))

theorem Exact.of_nodeCache (h : Exact s c) (hcache : s'.nodeCache = s.nodeCache) : Exact s' c :=
  ⟨by rw [h.nodeCount, cached, cached, hcache], by rw [h.totalBytes, cachedBytes, cachedBytes, hcache], h.kept⟩

variable {fuel : ℕ} {taskIri : String} {tasks : List String}

theorem Exact.subtree (h : Exact s c) (hdrop : Erases drop) (hcount : countSubtree drop fuel s taskIri c = some c')
    (htasks : s.tasksToRelease fuel taskIri = some tasks)
    (hcache : s'.nodeCache = ((tasks.flatMap s.nodesOf).foldl drop s).nodeCache) : Exact s' c' := by
  unfold countSubtree at hcount
  rw [htasks] at hcount
  cases hcount
  exact (h.removals hdrop _).of_nodeCache hcache

theorem Exact.evictSubtree (h : Exact s c) (hstep : s.evictSubtree env fuel taskIri = some s')
    (hcount : countSubtree (evictNode env) fuel s taskIri c = some c') : Exact s' c' := by
  obtain ⟨tasks, htasks, hstep⟩ := bind_eq_some_iff.1 hstep
  cases hstep
  exact h.subtree (erases_evictNode env) hcount htasks rfl

theorem Exact.releaseSubtree (h : Exact s c) (hstep : s.releaseSubtree env fuel taskIri = some s')
    (hcount : countSubtree (deleteNode env) fuel s taskIri c = some c') : Exact s' c' := by
  obtain ⟨tasks, htasks, hstep⟩ := bind_eq_some_iff.1 hstep
  cases hstep
  exact h.subtree (erases_deleteNode env) hcount htasks rfl

theorem Exact.completed (h : Exact s c) (hstep : tasks.foldlM (Blackboard.evictSubtree env fuel) s = some s')
    (hcount : countCompleted env fuel s tasks c = some c') : Exact s' c' := by
  induction tasks generalizing s c with
  | nil =>
    cases hstep
    cases hcount
    exact h
  | cons task tasks ih =>
    obtain ⟨s₁, hfirst, hstep⟩ := bind_eq_some_iff.1 hstep
    obtain ⟨c₁, hcountFirst, hcount⟩ := bind_eq_some_iff.1 hcount
    obtain ⟨s₂, hfirst', hcount⟩ := bind_eq_some_iff.1 hcount
    obtain rfl := some.inj (hfirst.symm.trans hfirst')
    exact ih (h.evictSubtree hfirst hcountFirst) hstep hcount

/-! ### Records that are read back, flags and the archive -/

theorem Balanced.remembered (h : Balanced s c d) (now : ℤ) (taskIri : String) (doc : Value) :
    Balanced (s.rememberTaskDocument env now taskIri doc).1 (s.countRemembered env now taskIri doc c) d := by
  unfold rememberTaskDocument countRemembered
  split_ifs with htask
  · simp only
    cases hnode : s.nodeCache.lookup taskIri with
    | some node => exact h.of_nodeCache rfl
    | none =>
      generalize hnew : nodeFromDocument env now taskIri doc = node
      obtain rfl : node.iri = taskIri := hnew ▸ rfl
      have hcache : ((cacheNode { s with serverTaskIris := s.serverTaskIris.insert node.iri } node).trackTaskIndexes
          node.iri doc).nodeCache = s.nodeCache.insert node.iri node := by
        unfold trackTaskIndexes
        cases extractTaskIri node.iri with
        | none => rfl
        | some task => exact completeTask_nodeCache _ _ _
      have hadd := h.add hcache
      unfold countWrite at hadd
      rw [sizeAt_of_lookup_eq_none hnode, Nat.cast_zero, add_zero, hnode] at hadd
      exact hadd
  · exact h

/-- The cache has as many nodes and bytes as before. -/
def SameNumbers (s s' : Blackboard) : Prop := s'.cached = s.cached ∧ s'.cachedBytes = s.cachedBytes

/-- A node is changed and keeps its size. -/
theorem sameNumbers_insert {iri : String} {node node' : Node} (h : s.nodeCache.lookup iri = some node)
    (hsize : node'.size = node.size) : SameNumbers s { s with nodeCache := s.nodeCache.insert iri node' } :=
  ⟨total_insert_of_size_eq (fun _ => 1) h rfl, total_insert_of_size_eq Node.size h hsize⟩

theorem sameNumbers_markDirty (s : Blackboard) (nodeIri : String) : SameNumbers s (s.markDirty nodeIri) := by
  unfold markDirty
  cases hnode : s.nodeCache.lookup nodeIri with
  | none => exact ⟨rfl, rfl⟩
  | some node => exact sameNumbers_insert hnode rfl

theorem sameNumbers_flushNodes (l0env : L0Env) (now : ℤ) (s : Blackboard) (l0 : L0Store) (iris : List String) :
    SameNumbers s (s.flushNodes l0env now l0 iris).1.1 :=
  flushNodes_rel (fun _ => ⟨rfl, rfl⟩) (fun h h' => ⟨h'.1.trans h.1, h'.2.trans h.2⟩)
    (fun hnode => sameNumbers_insert hnode rfl) l0env now s l0 iris

/-- An archive leaves the cache as it is, or puts another text in the place of the one that was there. -/
theorem archive_cases (s : Blackboard) (now : ℤ) (taskIri : String) :
    (s.archiveCompletedTask env now taskIri).1.nodeCache = s.nodeCache ∧
        (s.archiveCompletedTask env now taskIri).2 ≠ .ok true ∨
      ∃ node doc, s.nodeCache.lookup taskIri = some node ∧ env.fromStr node.jsonLd = .ok doc ∧
        (s.archiveCompletedTask env now taskIri).2 = .ok true ∧
        ∃ node' : Node, node'.size = (env.toString (archivedDocument env now taskIri doc)).utf8ByteSize ∧
          (s.archiveCompletedTask env now taskIri).1.nodeCache = s.nodeCache.insert taskIri node' := by
  unfold archiveCompletedTask
  cases hnode : s.nodeCache.lookup taskIri with
  | none => exact .inl ⟨rfl, nofun⟩
  | some node =>
    cases hparse : env.fromStr node.jsonLd with
    | error e =>
      simp only [hparse]
      exact .inl ⟨trivial, nofun⟩
    | ok doc =>
      simp only [hparse]
      split_ifs with hrecord hsubject
      · exact .inl ⟨rfl, nofun⟩
      · exact .inl ⟨rfl, nofun⟩
      cases hdefault : s.sync env none taskIri (archivedDocument env now taskIri doc) with
      | error e => exact .inl ⟨rfl, nofun⟩
      | ok s₁ =>
        have h₁ : Syncs s s₁ := syncs_sync hdefault
        cases hpersist : s₁.persistServerTaskRecord env taskIri (archivedDocument env now taskIri doc) with
        | error e =>
          simp only [hpersist]
          exact .inl ⟨h₁.nodeCache, nofun⟩
        | ok s₂ =>
          have h₂ : Syncs s s₂ := h₁.trans (syncs_persistServerTaskRecord hpersist)
          cases harchive :
            s₂.syncNamedTaskGraph env taskArchiveGraph taskIri (archivedDocument env now taskIri doc) with
          | error e =>
            simp only [hpersist, harchive]
            exact .inl ⟨h₂.nodeCache, nofun⟩
          | ok s₃ =>
            have hcache := (h₂.trans (syncs_syncNamedTaskGraph harchive)).nodeCache
            have hcached : s₃.nodeCache.lookup taskIri = some node := hcache ▸ hnode
            simp only [hpersist, harchive, hcached]
            exact .inr ⟨node, doc, rfl, hparse, trivial, _, rfl, by rw [hcache]⟩

theorem Balanced.archived (h : Balanced s c d) (now : ℤ) (taskIri : String) :
    Balanced (s.archiveCompletedTask env now taskIri).1 c (d + s.archiveDrift env now taskIri) := by
  rcases @archive_cases env s now taskIri with ⟨hcache, hnot⟩ | ⟨node, doc, hnode, hparse, hdone, node', hsize, hcache⟩
  · have hdrift : s.archiveDrift env now taskIri = 0 := by
      unfold archiveDrift
      cases s.nodeCache.lookup taskIri with
      | none => rfl
      | some node =>
        simp only
        split
        · next hdone => exact absurd hdone hnot
        · rfl
    rw [hdrift, add_zero]
    exact h.of_nodeCache hcache
  · have hdrift : s.archiveDrift env now taskIri = node.size - node'.size := by
      unfold archiveDrift
      simp only [hnode, hparse, hdone, hsize]
    have hcount := total_insert_add (fun _ : Node => 1) s.nodeCache taskIri node'
    have hbytes := total_insert_add Node.size s.nodeCache taskIri node'
    rw [sizeAt_of_lookup hnode] at hcount hbytes
    have htotal := h.totalBytes
    refine ⟨?_, ?_, h.kept⟩
    · rw [h.nodeCount, cached, cached, hcache]
      omega
    · rw [hdrift, cachedBytes, hcache]
      unfold cachedBytes at htotal
      omega

/-! ### Calls and runs -/

/-- **What a call leaves of exact counters.** -/
theorem Exact.step (h : Exact s c) {op : Op} (hstep : op.step env s = some s') (hcount : op.count env s c = some c') :
    Balanced s' c' (op.drift env s) := by
  have hbalanced := h.balanced
  cases op with
  | writeNode now nodeIri jsonLd =>
    cases hstep
    cases hcount
    have hcaches := hbalanced.caches (caches_writeNode env s now nodeIri jsonLd)
    rw [zero_add] at hcaches
    exact hcaches
  | writeNodeToGraph now nodeIri jsonLd graphName =>
    cases hstep
    cases hcount
    have hcaches := hbalanced.caches (caches_writeNodeToGraph env s now nodeIri jsonLd graphName)
    rw [zero_add] at hcaches
    exact hcaches
  | writeNodesBatch now nodes =>
    cases hstep
    have hbatch := hbalanced.batch (cachesItems_cacheBatchNode now) _ c' hcount
    rw [zero_add] at hbatch
    rw [show (s.writeNodesBatch env now nodes).1 = _ from batch_eq _ _]
    exact hbatch
  | writeBatchToGraphs now nodes =>
    cases hstep
    have hbatch := hbalanced.batch (cachesItems_cacheGraphNode now) _ c' hcount
    rw [zero_add] at hbatch
    rw [show (s.writeBatchToGraphs env now nodes).1 = _ from batch_eq _ _]
    exact hbatch
  | registerTask taskIri parent =>
    cases hstep
    cases hcount
    exact hbalanced.of_nodeCache (registerTask_nodeCache s taskIri parent)
  | completeTask taskIri status =>
    cases hstep
    cases hcount
    exact hbalanced.of_nodeCache (completeTask_nodeCache s taskIri status)
  | markDirty nodeIri =>
    cases hstep
    cases hcount
    have hsame := sameNumbers_markDirty s nodeIri
    exact hbalanced.congr hsame.1 hsame.2
  | readNode now nodeIri =>
    cases hstep
    unfold Op.count at hcount
    unfold readNode
    cases hnode : s.nodeCache.lookup nodeIri with
    | some node =>
      simp only [hnode] at hcount
      exact some.inj hcount ▸ hbalanced
    | none =>
      cases hdoc : s.persistedTaskDocument env nodeIri with
      | none =>
        simp only [hnode, hdoc] at hcount
        exact some.inj hcount ▸ hbalanced
      | some doc =>
        simp only [hnode, hdoc] at hcount
        exact some.inj hcount ▸ hbalanced.remembered now nodeIri doc
  | rememberTaskDocument now taskIri doc =>
    cases hstep
    cases hcount
    exact hbalanced.remembered now taskIri doc
  | deleteNode nodeIri =>
    cases hstep
    cases hcount
    exact (h.removal (erases_deleteNode env s nodeIri)).balanced
  | evictNode nodeIri =>
    cases hstep
    cases hcount
    exact (h.removal (erases_evictNode env s nodeIri)).balanced
  | evictSubtree fuel taskIri => exact (h.evictSubtree hstep hcount).balanced
  | releaseSubtree fuel taskIri => exact (h.releaseSubtree hstep hcount).balanced
  | gcCompletedTasks fuel => exact (h.completed hstep hcount).balanced
  | flushNodes l0env now l0 iris =>
    cases hstep
    cases hcount
    have hsame := sameNumbers_flushNodes l0env now s l0 iris
    exact hbalanced.congr hsame.1 hsame.2
  | archiveCompletedTask now taskIri =>
    cases hstep
    cases hcount
    have harchived := @Balanced.archived env _ _ _ hbalanced now taskIri
    rw [zero_add] at harchived
    exact harchived
  | discardRecordedNodes recorded =>
    cases hstep
    cases hcount
    have hdropped : Exact (s.discardRecordedNodes env recorded) (countRemovals (Blackboard.deleteNode env) s recorded c) :=
      (h.removals (erases_deleteNode env) recorded).of_nodeCache rfl
    exact hdropped.balanced
  | flushOxigraph order =>
    cases hstep
    cases hcount
    exact hbalanced.of_nodeCache (syncs_flushOxigraph s order).nodeCache
  | runSync i =>
    cases hstep
    cases hcount
    exact hbalanced.of_nodeCache (syncs_runSync s i).nodeCache

/-- A call is counted whenever it ends. -/
theorem exists_count {op : Op} (hstep : op.step env s = some s') (c : Counters) : ∃ c', op.count env s c = some c' := by
  cases op with
  | evictSubtree fuel taskIri =>
    obtain ⟨tasks, htasks, -⟩ := bind_eq_some_iff.1 hstep
    exact ⟨_, map_eq_some_iff.2 ⟨tasks, htasks, rfl⟩⟩
  | releaseSubtree fuel taskIri =>
    obtain ⟨tasks, htasks, -⟩ := bind_eq_some_iff.1 hstep
    exact ⟨_, map_eq_some_iff.2 ⟨tasks, htasks, rfl⟩⟩
  | gcCompletedTasks fuel =>
    unfold Op.step gcCompletedTasks at hstep
    unfold Op.count
    simp only at hstep ⊢
    generalize s.completedTasks = tasks at hstep
    induction tasks generalizing s c with
    | nil => exact ⟨c, rfl⟩
    | cons task tasks ih =>
      obtain ⟨s₁, hevict, hstep⟩ := bind_eq_some_iff.1 hstep
      obtain ⟨released, htasks, -⟩ := bind_eq_some_iff.1 hevict
      obtain ⟨c', hc'⟩ := ih (countRemovals (Blackboard.evictNode env) s (released.flatMap s.nodesOf) c) hstep
      refine ⟨c', ?_⟩
      unfold countCompleted countSubtree
      rw [htasks, hevict]
      exact hc'
  | writeNodesBatch now nodes =>
    unfold Op.count
    simp only
    cases s.acceptedBatch env (nodes.map fun node => (node.1, node.2, none)) <;> exact ⟨_, rfl⟩
  | writeBatchToGraphs now nodes =>
    unfold Op.count
    simp only
    cases s.acceptedBatch env (nodes.map fun node => (node.1, node.2.1, some node.2.2)) <;> exact ⟨_, rfl⟩
  | readNode now nodeIri =>
    unfold Op.count
    simp only
    cases s.nodeCache.lookup nodeIri <;> cases s.persistedTaskDocument env nodeIri <;> exact ⟨_, rfl⟩
  | _ => exact ⟨_, rfl⟩

/-- **One call keeps the counters exact** exactly if it is clean. -/
theorem exact_step_iff (h : Exact s c) {op : CountedOp} (hstep : op.step env (s, c) = some (s', c')) :
    Exact s' c' ↔ op.Clean env s := by
  cases op with
  | call op =>
    obtain ⟨s₁, hs₁, hstep⟩ := bind_eq_some_iff.1 hstep
    obtain ⟨c₁, hc₁, hstep⟩ := bind_eq_some_iff.1 hstep
    obtain ⟨rfl, rfl⟩ := Prod.ext_iff.1 (some.inj hstep)
    rw [(h.step hs₁ hc₁).exact_iff_dvd]
    refine ⟨fun hclean s₂ hs₂ => ?_, fun hclean => hclean _ hs₁⟩
    exact some.inj (hs₁.symm.trans hs₂) ▸ hclean
  | clear drops =>
    obtain ⟨rfl, rfl⟩ := Prod.ext_iff.1 (some.inj hstep)
    exact iff_of_true ⟨rfl, rfl, rfl⟩ trivial

theorem countedRun_concat (sc : Blackboard × Counters) (ops : List CountedOp) (op : CountedOp) :
    countedRun env sc (ops ++ [op]) = (countedRun env sc ops).bind fun sc => op.step env sc := by
  unfold countedRun
  rw [foldlM_append]
  refine congrArg _ (funext fun sc => ?_)
  exact bind_pure _

/-- **The counters of a run**, from an empty cache on any store: they are exact in all states that are reached
exactly if each call is clean. -/
theorem allExact_iff (env : BlackboardEnv) (store : Option String → String → List Value) (ops : List CountedOp) :
    AllExact env (withStore store, .zero) ops ↔ AllClean env (withStore store, .zero) ops := by
  constructor
  · intro h before op hwithin s c hrun
    have hexact := h before ((prefix_append before [op]).trans hwithin) s c hrun
    cases op with
    | clear drops => trivial
    | call op =>
      intro s' hs'
      obtain ⟨c', hc'⟩ := exists_count hs' c
      have hstep : (CountedOp.call op).step env (s, c) = some (s', c') :=
        bind_eq_some_iff.2 ⟨s', hs', bind_eq_some_iff.2 ⟨c', hc', rfl⟩⟩
      refine (exact_step_iff hexact hstep).1 (h _ hwithin s' c' ?_) s' hs'
      rw [countedRun_concat, hrun]
      exact hstep
  · intro h before hwithin s c hrun
    induction before using reverseRecOn generalizing s c with
    | nil =>
      obtain ⟨rfl, rfl⟩ := Prod.ext_iff.1 (some.inj hrun)
      exact ⟨rfl, rfl, rfl⟩
    | append_singleton before op ih =>
      rw [countedRun_concat] at hrun
      obtain ⟨⟨s₁, c₁⟩, hbefore, hstep⟩ := bind_eq_some_iff.1 hrun
      have hexact := ih ((prefix_append before [op]).trans hwithin) s₁ c₁ hbefore
      exact (exact_step_iff hexact hstep).2 (h before op hwithin s₁ c₁ hbefore)

/-! ### Calls that are not clean -/

/-- A task record, and its text before and after the archive. -/
def recordDocument : Value :=
  .object [("@type", .string "Task"), ("project_id", .string "p"), ("tenant_id", .string "t")]

def recordText : String := "\x7b\"@type\":\"Task\",\"project_id\":\"p\",\"tenant_id\":\"t\"\x7d"

def archivedText : String :=
  "\x7b\"@id\":\"iri://task/a\",\"@type\":\"Task\",\"archived_at\":\"2026-01-02T03:04:05+00:00\"," ++
    "\"project_id\":\"p\",\"read_only\":true,\"status\":\"completed\",\"tenant_id\":\"t\"\x7d"

def recordBoard : BlackboardEnv :=
  { sampleBoard with
    fromStr := fun text => if text = recordText then .ok recordDocument else .error "expected value"
    toString := fun _ => archivedText
    toRfc3339 := fun _ => "2026-01-02T03:04:05+00:00" }

/-- A node that is written twice is counted with both sizes, and an eviction after an archive takes more bytes
away than were added. -/
theorem not_allExact : ¬AllExact recordBoard (withStore fun _ _ => [], .zero)
        [.call (.writeNode 0 "iri://task/a" recordText), .call (.writeNode 1 "iri://task/a" recordText)] ∧
      ¬AllExact recordBoard (withStore fun _ _ => [], .zero)
        [.call (.writeNode 0 "iri://task/a" recordText), .call (.archiveCompletedTask 1 "iri://task/a"),
          .call (.evictNode "iri://task/a")] := by
  refine ⟨fun h => ?_, fun h => ?_⟩
  · have htotal := (h _ prefix_rfl _ _ rfl).totalBytes
    revert htotal
    decide
  · have hkept := (h _ prefix_rfl _ _ rfl).kept
    revert hkept
    decide +kernel

end WildAgentOs.Memory.Blackboard
