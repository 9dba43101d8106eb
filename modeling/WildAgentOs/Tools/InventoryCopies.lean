import WildAgentOs.Memory.TaskScope
import WildAgentOs.Tools.FileInventory

/-!
# The three copies of the inventory

Histories of calls of the inventory over a disk that may change between any two of them. The memory, the database and
the blackboard agree as long as no call leaves one of them behind: an entry of a file that is gone is dropped without
its node, an entry of a file that another tool has read is stored without one, and `clear_all` clears the memory only.

* `Holds`, `Agrees`;
* `InventoryOp.Reaches`: a call that leaves none of the copies behind;
* `agrees_step_iff`, `InventoryRun.agrees`.
-/

namespace WildAgentOs.Tools

open Json Memory FileInventory Function Option FileInventory Blackboard FileEntry

/-! ### The blackboard -/

section

variable (env : InventoryEnv) (board : Blackboard)

/-- The blackboard has the node of a path with the entry, or none; and so has the graph of the workspace, where the
sync of a node is done at once. -/
def Holds (path : String) : Option FileEntry → Prop
  | some entry =>
    (∃ node, board.nodeCache.lookup (fileIri path) = some node ∧
      node.jsonLd = env.board.toString (fileDocument entry) ∧ node.namedGraph = some workspaceGraph ∧
        node.jsonldTypes = ["ws:File"]) ∧
      (env.board.testMode = true → board.store (some workspaceGraph) (fileIri path) = [fileDocument entry])
  | none =>
    board.nodeCache.lookup (fileIri path) = none ∧
      (env.board.testMode = true → board.store (some workspaceGraph) (fileIri path) = [])

/-- The blackboard takes the node of an entry: it is not too large, it is read as it was written, and the store takes
its triples. -/
structure Saves (entry : FileEntry) : Prop where
  size : (env.board.toString (fileDocument entry)).utf8ByteSize ≤ 65536
  parse : env.board.fromStr (env.board.toString (fileDocument entry)) = .ok (fileDocument entry)
  update : env.board.update (some workspaceGraph) (fileIri entry.path) (fileDocument entry) = .ok ()

end

variable {env : InventoryEnv} {world : World} {inv : FileInventory} {board : Blackboard} {path : String}
  {entry : FileEntry}

theorem extractJsonldTypes_fileDocument (entry : FileEntry) :
    extractJsonldTypes (fileDocument entry) = ["ws:File"] := by
  have hget : (fileDocument entry).get "@type" = some (.array [.string "ws:File"]) := by
    simp only [fileDocument, Value.get, Value.asObject, bind_some, List.lookup_cons, String.reduceBEq, BEq.rfl]
  unfold extractJsonldTypes
  rw [hget]
  rfl

theorem hasTriples_fileDocument (iri : String) (entry : FileEntry) :
    hasTriples iri (fileDocument entry) = true := by
  unfold hasTriples
  rw [Bool.or_eq_true]
  refine .inl (List.any_eq_true.2 ⟨("ws:contentHash", .string entry.contentHash), ?_, ?_⟩)
  · simp [fileDocument, Value.asObject]
  · have hkey : ¬"ws:contentHash".toList.head? = some '@' := by decide +kernel
    exact if_neg hkey

variable {held : Option FileEntry}

/-- A path that is neither written nor deleted. -/
theorem Holds.of_same {board' : Blackboard} (h : Holds env board path held)
    (hcache : board'.nodeCache.lookup (fileIri path) = board.nodeCache.lookup (fileIri path))
    (hstore : env.board.testMode = true → board'.store (some workspaceGraph) (fileIri path) =
      board.store (some workspaceGraph) (fileIri path)) : Holds env board' path held := by
  cases held with
  | some entry => exact ⟨hcache ▸ h.1, fun htest => (hstore htest).trans (h.2 htest)⟩
  | none => exact ⟨hcache.trans h.1, fun htest => (hstore htest).trans (h.2 htest)⟩

/-- The write of a node, as the cache and the store have it after. -/
theorem writeNodeToGraph_file (hsaves : Saves env entry) (now : ℤ) (board : Blackboard) :
    ∃ node, node.jsonLd = env.board.toString (fileDocument entry) ∧ node.namedGraph = some workspaceGraph ∧
      node.jsonldTypes = ["ws:File"] ∧
      (board.writeNodeToGraph (boardEnv env) now (fileIri entry.path) (env.board.toString (fileDocument entry))
        workspaceGraph).1.nodeCache = board.nodeCache.insert (fileIri entry.path) node ∧
      (env.board.testMode = true → ∀ graph iri,
        (board.writeNodeToGraph (boardEnv env) now (fileIri entry.path) (env.board.toString (fileDocument entry))
          workspaceGraph).1.store graph iri =
            if graph = some workspaceGraph ∧ iri = fileIri entry.path then [fileDocument entry]
            else board.store graph iri) := by
  have hcheck : checkDocument (boardEnv env) (env.board.toString (fileDocument entry))
      "JSON parse error: " = .ok (fileDocument entry) := by
    have hparse : (boardEnv env).fromStr (env.board.toString (fileDocument entry)) = .ok (fileDocument entry) :=
      hsaves.parse
    have hsize : ¬(boardEnv env).maxNodeSize < (env.board.toString (fileDocument entry)).utf8ByteSize :=
      Nat.not_lt.2 hsaves.size
    unfold checkDocument
    rw [if_neg hsize, hparse]
    rfl
  refine ⟨board.nodeOf now (fileIri entry.path) (env.board.toString (fileDocument entry)) (fileDocument entry)
    (some workspaceGraph), rfl, rfl, extractJsonldTypes_fileDocument entry, ?_, fun htest graph iri => ?_⟩
  · unfold writeNodeToGraph
    rw [hcheck]
    exact (syncsAt_trackIndexed _ _ _).cache.trans (syncsAt_writeSync _ _ _ _).cache
  · have hupdate : (boardEnv env).update (some workspaceGraph) (fileIri entry.path) (fileDocument entry) = .ok () :=
      hsaves.update
    have hnow : (boardEnv env).testMode = true := htest
    unfold writeNodeToGraph
    rw [hcheck]
    simp only [trackIndexed_store, writeSync, sync, hnow, hasTriples_fileDocument,
      hupdate, if_true, setStore_store]
    rfl

theorem holds_write (hsaves : Saves env entry) (now : ℤ) :
    Holds env (board.writeNodeToGraph (boardEnv env) now (fileIri entry.path)
      (env.board.toString (fileDocument entry)) workspaceGraph).1 entry.path (some entry) := by
  obtain ⟨node, htext, hgraph, htypes, hcache, hstore⟩ := writeNodeToGraph_file hsaves now board
  refine ⟨⟨node, ?_, htext, hgraph, htypes⟩, fun htest => ?_⟩
  · rw [hcache, AList.lookup_insert]
  · rw [hstore htest, if_pos ⟨rfl, rfl⟩]

theorem holds_write_other (hsaves : Saves env entry) (now : ℤ) (hpath : path ≠ entry.path)
    (h : Holds env board path held) : Holds env (board.writeNodeToGraph (boardEnv env) now (fileIri entry.path)
      (env.board.toString (fileDocument entry)) workspaceGraph).1 path held := by
  obtain ⟨node, -, -, -, hcache, hstore⟩ := writeNodeToGraph_file hsaves now board
  have hne : fileIri path ≠ fileIri entry.path := fun heq => hpath (fileIri_inj heq)
  refine h.of_same ?_ fun htest => ?_
  · rw [hcache, AList.lookup_insert_ne hne]
  · rw [hstore htest, if_neg fun heq => hne heq.2]

theorem holds_delete (h : Holds env board path held)
    (hdeletes : env.board.deletes (some workspaceGraph) (fileIri path) = true) :
    Holds env (board.deleteNode env.board (fileIri path)) path none := by
  refine ⟨?_, fun htest => ?_⟩
  · rw [(drops_deleteNode board (fileIri path)).lookup, if_pos rfl]
  · refine (deleteNode_store board (fileIri path)).2.2 (some workspaceGraph) fun hstore => ?_
    cases held with
    | none => exact absurd (h.2 htest) hstore
    | some entry =>
      obtain ⟨⟨node, hnode, -, hgraph, -⟩, -⟩ := h
      exact ⟨node, hnode, hdeletes, .inl hgraph.symm⟩

theorem holds_delete_other {removed : String} (hpath : path ≠ removed)
    (h : Holds env board path held) : Holds env (board.deleteNode env.board (fileIri removed)) path held := by
  have hne : fileIri path ≠ fileIri removed := fun heq => hpath (fileIri_inj heq)
  refine h.of_same ?_ fun _ => ?_
  · rw [(drops_deleteNode board (fileIri removed)).lookup, if_neg hne]
  · exact (deleteNode_store board (fileIri removed)).2.1 _ _ hne

/-! ### Agreement -/

/-- **The copies agree**: the database has the entries in memory, an inventory that is opened on it has the same
entries, and the blackboard has the nodes of these and no others. -/
structure Agrees (env : InventoryEnv) (inv : FileInventory) : Prop where
  cache : ∀ table, inv.cache = some table → ∀ path, table path = (inv.memCache path).map FileEntry.toValue
  reopened : ∀ table, inv.cache = some table → ∀ blackboard patterns,
    (FileInventory.new blackboard (some table) patterns).memCache = inv.memCache
  board : ∀ board, inv.blackboard = some board → ∀ path, Holds env board path (inv.memCache path)

/-- An inventory opened on a database has the entries that the database has. -/
theorem reopened_of_cache {table : String → Option Value}
    (h : ∀ path, table path = (inv.memCache path).map toValue) (blackboard : Option Blackboard)
    (patterns : List String) : (new blackboard (some table) patterns).memCache = inv.memCache := by
  funext path
  show (table path).bind ofValue = inv.memCache path
  rw [h path]
  cases inv.memCache path with
  | none => rfl
  | some entry => exact entry.ofValue_toValue

/-- The copies agree, and every entry is under its path. -/
structure Tracks (env : InventoryEnv) (inv : FileInventory) : Prop extends Agrees env inv where
  keyed : ∀ path entry, inv.memCache path = some entry → entry.path = path

/-- An entry goes into the three copies. -/
theorem Tracks.change (h : Tracks env inv) (hpath : entry.path = path) (hsaves : Saves env entry) :
    Tracks env (inv.change env world path entry) := by
  subst hpath
  have hcache : ∀ table, (inv.change env world entry.path entry).cache = some table →
      ∀ path, table path = ((inv.change env world entry.path entry).memCache path).map toValue := by
    intro table htable path
    obtain ⟨table, hold, rfl⟩ := map_eq_some_iff.1 htable
    show update table entry.path (some entry.toValue) path =
      (update inv.memCache entry.path (some entry) path).map toValue
    by_cases hpath : path = entry.path
    · rw [hpath, update_self, update_self]
      rfl
    · rw [update_of_ne hpath, update_of_ne hpath]
      exact h.cache table hold path
  refine ⟨⟨hcache, fun table htable => reopened_of_cache (hcache table htable), fun board hboard path => ?_⟩, ?_⟩
  · obtain ⟨board, hold, rfl⟩ := map_eq_some_iff.1 hboard
    show Holds env _ path (update inv.memCache entry.path (some entry) path)
    by_cases hpath : path = entry.path
    · rw [hpath, update_self]
      exact holds_write hsaves world.now
    · rw [update_of_ne hpath]
      exact holds_write_other hsaves world.now hpath (h.board board hold path)
  · intro path other hother
    have hmem : update inv.memCache entry.path (some entry) path = some other := hother
    by_cases hpath : path = entry.path
    · rw [hpath, update_self] at hmem
      rw [hpath, some.inj hmem]
    · rw [update_of_ne hpath] at hmem
      exact h.keyed path other hmem

variable {blackboard : Option Blackboard}

section

variable (h : Tracks env inv)
include h

/-- A path goes out of memory and the database. -/
theorem Tracks.dropped
    (hboard : ∀ board, blackboard = some board → ∀ other, Holds env board other (update inv.memCache path none other)) :
    Tracks env { inv.removeInternal path with blackboard } := by
  have hcache : ∀ table, (inv.removeInternal path).cache = some table →
      ∀ other, table other = ((inv.removeInternal path).memCache other).map toValue := by
    intro table htable other
    obtain ⟨table, hold, rfl⟩ := map_eq_some_iff.1 htable
    show update table path none other = (update inv.memCache path none other).map toValue
    by_cases hpath : other = path
    · rw [hpath, update_self, update_self]
      rfl
    · rw [update_of_ne hpath, update_of_ne hpath]
      exact h.cache table hold other
  refine ⟨⟨hcache, fun table htable => reopened_of_cache (hcache table htable), hboard⟩, ?_⟩
  intro other entry hentry
  have hmem : update inv.memCache path none other = some entry := hentry
  by_cases hpath : other = path
  · rw [hpath, update_self] at hmem
    cases hmem
  · rw [update_of_ne hpath] at hmem
    exact h.keyed other entry hmem

theorem Tracks.remove
    (hdeletes : env.board.deletes (some workspaceGraph) (fileIri path) = true) : Tracks env (inv.remove env path) := by
  refine h.dropped fun board hboard other => ?_
  obtain ⟨board, hold, rfl⟩ := map_eq_some_iff.1 hboard
  by_cases hpath : other = path
  · rw [hpath, update_self]
    exact holds_delete (h.board board hold path) hdeletes
  · rw [update_of_ne hpath]
    exact holds_delete_other hpath (h.board board hold other)

/-- What is not in memory is not in the database. -/
theorem Tracks.removeInternal (hpath : inv.memCache path = none) :
    inv.removeInternal path = inv := by
  have hmem : update inv.memCache path none = inv.memCache := by
    rw [← hpath, update_eq_self]
  have hcache : inv.cache.map (fun table => update table path none) = inv.cache := by
    cases htable : inv.cache with
    | none => rfl
    | some table =>
      have hnone := h.cache table htable path
      rw [hpath, map_none] at hnone
      rw [map_some, ← hnone, update_eq_self]
  unfold FileInventory.removeInternal
  rw [hmem, hcache]

/-- A file that is found goes into the three copies, if the blackboard takes what is in memory after. -/
theorem Tracks.addEntry
    (hsaves : ∀ other entry, (inv.addEntry env world path).memCache other = some entry → Saves env entry) :
    Tracks env (inv.addEntry env world path) := by
  unfold FileInventory.addEntry at hsaves ⊢
  cases hmetadata : world.metadata path with
  | none => exact h
  | some metadata =>
    rw [hmetadata] at hsaves
    refine @Tracks.change env world inv path (discovered env world path metadata) h rfl (hsaves path _ ?_)
    exact update_self path _ inv.memCache

end

/-! #### The scan of a directory -/

theorem scanFile_memCache {state : FileInventory × ℕ} {file : String} (h : state.1.memCache path = some entry) :
    (scanFile env world state file).1.memCache path = some entry := by
  unfold scanFile
  split_ifs with hnone
  · have hpath : path ≠ file := by
      rintro rfl
      rw [h] at hnone
      cases hnone
    show (state.1.addEntry env world file).memCache path = some entry
    unfold addEntry
    cases world.metadata file with
    | none => exact h
    | some metadata => exact (update_of_ne hpath _ _).trans h
  · exact h

theorem foldl_scanFile_memCache (files : List String) :
    ∀ state : FileInventory × ℕ, state.1.memCache path = some entry →
      (files.foldl (scanFile env world) state).1.memCache path = some entry := by
  induction files with
  | nil => exact fun state h => h
  | cons file files ih => exact fun state h => ih _ (scanFile_memCache h)

theorem Tracks.foldl_scanFile (files : List String) : ∀ state : FileInventory × ℕ, Tracks env state.1 →
      (∀ path entry, (files.foldl (scanFile env world) state).1.memCache path = some entry → Saves env entry) →
        Tracks env (files.foldl (scanFile env world) state).1 := by
  induction files with
  | nil => exact fun state h _ => h
  | cons file files ih =>
    intro state h hsaves
    have hafter : ∀ path entry, (scanFile env world state file).1.memCache path = some entry → Saves env entry :=
      fun path entry hentry => hsaves path entry (foldl_scanFile_memCache files _ hentry)
    refine ih _ ?_ hsaves
    unfold scanFile at hafter ⊢
    split_ifs at hafter ⊢ with hnone
    · exact h.addEntry hafter
    · exact h

/-! ### Histories -/

inductive InventoryOp
  | fullScan (root : String)
  | addOrUpdate (path : String)
  | markStale (path : String)
  | markRead (path : String) (version : UInt64)
  | markWritten (path : String)
  | markExternalRead (path : String)
  | remove (path : String)
  | clearAll
  /-- The inventory is opened again, on its database. -/
  | reopen

namespace InventoryOp

/-- A call, with what it finds on the disk. -/
def step (env : InventoryEnv) (world : World) (inv : FileInventory) : InventoryOp → FileInventory
  | .fullScan root => (inv.fullScan env world root).1
  | .addOrUpdate path => inv.addOrUpdate env world path
  | .markStale path => inv.markStale env world path
  | .markRead path version => inv.markRead env world path version
  | .markWritten path => inv.markWritten env world path
  | .markExternalRead path => inv.markExternalRead env world path
  | .remove path => inv.remove env path
  | .clearAll => inv.clearAll
  | .reopen => .new inv.blackboard inv.cache inv.excludePatterns

/-- The blackboard takes what a call writes, and deletes what it removes. -/
def StoreSucceeds (env : InventoryEnv) (world : World) (inv : FileInventory) (op : InventoryOp) : Prop :=
  (∀ path entry, (op.step env world inv).memCache path = some entry → Saves env entry) ∧
    ∀ path, op = .remove path → env.board.deletes (some workspaceGraph) (fileIri path) = true

/-- **A call that reaches the three copies**: no file that is tracked and gone is added or updated, no other tool has
read a file that is not tracked, and nothing that is tracked is cleared. -/
def Reaches (world : World) (inv : FileInventory) : InventoryOp → Prop
  | .addOrUpdate path => inv.blackboard = none ∨ world.isFile path = true ∨ inv.memCache path = none
  | .markExternalRead path => inv.blackboard = none ∨ inv.memCache path ≠ none
  | .clearAll => ∀ path, inv.memCache path = none
  | .reopen => inv.cache.isSome
  | _ => True

end InventoryOp

theorem memCache_change : (inv.change env world path entry).memCache = update inv.memCache path (some entry) := rfl

/-- Without a blackboard there is nothing to write to. -/
theorem syncToL2_of_none (hboard : inv.blackboard = none) : inv.syncToL2 env world entry = inv := by
  unfold syncToL2
  rw [hboard, map_none, ← hboard]

/-- An entry that is tracked is changed in the three copies. -/
theorem Tracks.mark (h : Tracks env inv) {entry' : FileEntry} (hentry : inv.memCache path = some entry)
    (hpath : entry'.path = entry.path)
    (hsaves : ∀ other entry, (inv.change env world path entry').memCache other = some entry → Saves env entry) :
    Tracks env (inv.change env world path entry') := by
  have hmem : (inv.change env world path entry').memCache path = some entry' := by
    rw [memCache_change, update_self]
  exact h.change (hpath.trans (h.keyed path entry hentry)) (hsaves path entry' hmem)

theorem Tracks.addOrUpdate (h : Tracks env inv)
    (hfound : inv.blackboard = none ∨ world.isFile path = true ∨ inv.memCache path = none)
    (hsaves : ∀ other entry, (inv.addOrUpdate env world path).memCache other = some entry → Saves env entry) :
    Tracks env (inv.addOrUpdate env world path) := by
  unfold FileInventory.addOrUpdate at hsaves ⊢
  split_ifs at hsaves ⊢ with hfile
  · exact h.addEntry hsaves
  · rcases hfound with hboard | hfile' | hpath
    · refine h.dropped fun board hsome => ?_
      rw [hboard] at hsome
      cases hsome
    · exact absurd hfile' hfile
    · rw [h.removeInternal hpath]
      exact h

variable {op : InventoryOp}

/-- **A call keeps the copies in agreement** if it reaches them. -/
theorem Tracks.step (h : Tracks env inv) (hstore : op.StoreSucceeds env world inv)
    (hreaches : op.Reaches world inv) : Tracks env (op.step env world inv) := by
  obtain ⟨hsaves, hdeletes⟩ := hstore
  cases op with
  | fullScan root => exact Tracks.foldl_scanFile _ (inv, 0) h hsaves
  | addOrUpdate path => exact h.addOrUpdate hreaches hsaves
  | markStale path =>
    simp only [InventoryOp.step, FileInventory.markStale] at hsaves ⊢
    cases hentry : inv.memCache path with
    | none => exact h
    | some entry =>
      rw [hentry] at hsaves
      exact h.mark hentry rfl hsaves
  | markRead path version =>
    simp only [InventoryOp.step, FileInventory.markRead] at hsaves ⊢
    cases hentry : inv.memCache path with
    | none => exact h
    | some entry =>
      rw [hentry] at hsaves
      exact h.mark hentry rfl hsaves
  | markWritten path =>
    simp only [InventoryOp.step, FileInventory.markWritten] at hsaves ⊢
    cases hentry : inv.memCache path with
    | none =>
      rw [hentry] at hsaves
      exact h.addOrUpdate (.inr (.inr hentry)) hsaves
    | some entry =>
      rw [hentry] at hsaves
      exact h.mark hentry rfl hsaves
  | markExternalRead path =>
    simp only [InventoryOp.step, FileInventory.markExternalRead] at hsaves ⊢
    cases hentry : inv.memCache path with
    | none =>
      rw [hentry] at hsaves
      -- without a blackboard there is no node to miss
      have hboard : inv.blackboard = none := hreaches.resolve_right (not_not.2 hentry)
      have hstored : inv.change env world path (placeholder world path) = inv.storeEntry (placeholder world path) :=
        syncToL2_of_none hboard
      simp only
      rw [← hstored] at hsaves ⊢
      refine h.change rfl (hsaves path _ ?_)
      rw [memCache_change, update_self]
    | some entry =>
      rw [hentry] at hsaves
      exact h.mark hentry rfl hsaves
  | remove path => exact h.remove (hdeletes path rfl)
  | clearAll =>
    have hmem : inv.memCache = fun _ => none := funext hreaches
    have hclear : inv.clearAll = inv := by
      unfold FileInventory.clearAll
      rw [← hmem]
    show Tracks env inv.clearAll
    rw [hclear]
    exact h
  | reopen =>
    obtain ⟨table, htable⟩ := isSome_iff_exists.1 hreaches
    have hmem := h.reopened table htable inv.blackboard inv.excludePatterns
    have hreopened : FileInventory.new inv.blackboard inv.cache inv.excludePatterns = inv := by
      rw [htable]
      show FileInventory.mk _ _ (FileInventory.new inv.blackboard (some table) inv.excludePatterns).memCache _ = inv
      rw [hmem, ← htable]
    show Tracks env (.new inv.blackboard inv.cache inv.excludePatterns)
    rw [hreopened]
    exact h

/-- A call that does not reach the three copies parts them. -/
theorem Tracks.agrees_step_iff (h : Tracks env inv) (hcache : inv.cache.isSome)
    (hstore : op.StoreSucceeds env world inv) : Agrees env (op.step env world inv) ↔ op.Reaches world inv := by
  refine ⟨fun hagrees => ?_, fun hreaches => (h.step hstore hreaches).toAgrees⟩
  cases op with
  | addOrUpdate path =>
    by_contra hreaches
    obtain ⟨hboard, hfile, hpath⟩ := not_or.1 hreaches |>.imp_right not_or.1
    obtain ⟨board, hboard⟩ := ne_none_iff_exists'.1 hboard
    obtain ⟨entry, hentry⟩ := ne_none_iff_exists'.1 hpath
    have hstep : InventoryOp.step env world inv (.addOrUpdate path) = inv.removeInternal path := if_neg hfile
    rw [hstep] at hagrees
    have hgone : Holds env board path (update inv.memCache path none path) := hagrees.board board hboard path
    rw [update_self] at hgone
    have hheld := h.board board hboard path
    rw [hentry] at hheld
    obtain ⟨⟨node, hnode, -⟩, -⟩ := hheld
    cases hnode.symm.trans hgone.1
  | markExternalRead path =>
    by_contra hreaches
    obtain ⟨hboard, hpath⟩ := not_or.1 hreaches
    obtain ⟨board, hboard⟩ := ne_none_iff_exists'.1 hboard
    have hstep : InventoryOp.step env world inv (.markExternalRead path) = inv.storeEntry (placeholder world path) := by
      show inv.markExternalRead env world path = _
      unfold markExternalRead
      rw [not_not.1 hpath]
    rw [hstep] at hagrees
    have hheld : Holds env board path
        (update inv.memCache path (some (placeholder world path)) path) := hagrees.board board hboard path
    rw [update_self] at hheld
    obtain ⟨⟨node, hnode, -⟩, -⟩ := hheld
    have hgone := h.board board hboard path
    rw [not_not.1 hpath] at hgone
    cases hnode.symm.trans hgone.1
  | clearAll =>
    intro path
    obtain ⟨table, htable⟩ := isSome_iff_exists.1 hcache
    have hcleared : table path = none := hagrees.cache table htable path
    cases hentry : inv.memCache path with
    | none => rfl
    | some entry =>
      have hstored := h.cache table htable path
      rw [hcleared, hentry] at hstored
      cases hstored
  | reopen => exact hcache
  | _ => trivial

/-- The inventories that a history leads to whose calls are all admissible: it starts on an empty database, with a
blackboard that has no node of a file. -/
inductive InventoryRun (env : InventoryEnv) (Admissible : World → FileInventory → InventoryOp → Prop) :
    FileInventory → Prop
  | start (blackboard : Option Blackboard) (db : Option (String → Option Value)) (patterns : List String)
    (hboard : ∀ board, blackboard = some board → ∀ path, Holds env board path none)
    (hdb : ∀ table, db = some table → ∀ path, table path = none) :
    InventoryRun env Admissible (.new blackboard db patterns)
  | call {inv : FileInventory} (before : InventoryRun env Admissible inv) (world : World) (op : InventoryOp)
    (hop : Admissible world inv op) : InventoryRun env Admissible (op.step env world inv)

theorem tracks_start {db : Option (String → Option Value)} {patterns : List String}
    (hboard : ∀ board, blackboard = some board → ∀ path, Holds env board path none)
    (hdb : ∀ table, db = some table → ∀ path, table path = none) : Tracks env (.new blackboard db patterns) := by
  have hmem : (new blackboard db patterns).memCache = fun _ => none := by
    funext path
    show db.bind (fun table => (table path).bind ofValue) = none
    cases db with
    | none => rfl
    | some table =>
      show (table path).bind ofValue = none
      rw [hdb table rfl path]
      rfl
  have hcache : ∀ table, db = some table →
      ∀ path, table path = ((new blackboard db patterns).memCache path).map toValue := by
    intro table htable path
    rw [hmem, hdb table htable path]
    rfl
  refine ⟨⟨hcache, fun table htable => reopened_of_cache (hcache table htable), fun board hsome path => ?_⟩, ?_⟩
  · rw [hmem]
    exact hboard board hsome path
  · intro path entry hentry
    rw [hmem] at hentry
    cases hentry

/-- **The three copies agree** after every history whose calls all reach them, if the blackboard takes what is
written. -/
theorem InventoryRun.agrees {env : InventoryEnv} {inv : FileInventory}
    (h : InventoryRun env (fun world inv op => op.StoreSucceeds env world inv ∧ op.Reaches world inv) inv) :
    Agrees env inv := by
  suffices htracks : Tracks env inv from htracks.toAgrees
  induction h with
  | start blackboard db patterns hboard hdb => exact tracks_start hboard hdb
  | call before world op hop ih => exact ih.step hop.1 hop.2

/-- **A call parts the copies exactly if it does not reach them**, after every such history. -/
theorem InventoryRun.agrees_call_iff {env : InventoryEnv} {inv : FileInventory} {world : World} {op : InventoryOp}
    (h : InventoryRun env (fun world inv op => op.StoreSucceeds env world inv ∧ op.Reaches world inv) inv)
    (hcache : inv.cache.isSome) (hstore : op.StoreSucceeds env world inv) :
    Agrees env (op.step env world inv) ↔ op.Reaches world inv := by
  have htracks : Tracks env inv := by
    clear hcache hstore
    induction h with
    | start blackboard db patterns hboard hdb => exact tracks_start hboard hdb
    | call before world op hop ih => exact ih.step hop.1 hop.2
  exact htracks.agrees_step_iff hcache hstore

/-! A file that the agent writes, and the memory that is cleared after. -/

def sampleEntry : FileEntry :=
  ⟨"a.rs", 0, "rs", "rust", 0, "sha256:e3b0c44298fc1c149afbf4c8996fb92427ae41e4649b934ca495991b7852b855",
    .discovered, none, 0, 0, 0⟩

def sampleText : String :=
  "\x7b\"@id\":\"iri://workspace/file/a.rs\",\"@type\":[\"ws:File\"],\"ws:contentHash\":" ++
  "\"sha256:e3b0c44298fc1c149afbf4c8996fb92427ae41e4649b934ca495991b7852b855\",\"ws:currentVersion\":0," ++
  "\"ws:fileExt\":\"rs\",\"ws:filePath\":\"a.rs\",\"ws:fileSize\":0,\"ws:language\":\"rust\"," ++
  "\"ws:lastReadAt\":0,\"ws:lastReadVersion\":0,\"ws:mtime\":0,\"ws:parentDir\":\"iri://workspace/dir//\"," ++
  "\"ws:readCount\":0,\"ws:state\":\"discovered\"\x7d"

def sampleInventoryEnv : InventoryEnv where
  board :=
    { fromStr := fun text => if text = sampleText then .ok (fileDocument sampleEntry) else .error "expected value"
      toString := fun _ => sampleText
      toRfc3339 := fun _ => ""
      parseFromRfc3339 := fun _ => none
      update := fun _ _ _ => .ok ()
      deletes := fun _ _ => true
      isNamedNode := fun _ => true
      archiveFirst := false
      testMode := true
      maxNodeSize := 65536 }
  sha256 _ := "e3b0c44298fc1c149afbf4c8996fb92427ae41e4649b934ca495991b7852b855"

/-- An empty file at every path. -/
def sampleWorld : World := ⟨fun _ => true, fun _ => some ⟨0, some 0⟩, fun _ => some "", fun _ => .failed, 0, 0⟩

def sampleInventory : FileInventory := .new (some .new) (some fun _ => none) []

theorem discovered_sample : discovered sampleInventoryEnv sampleWorld "a.rs" ⟨0, some 0⟩ = sampleEntry := by
  decide +kernel

theorem utf8ByteSize_sampleText : sampleText.utf8ByteSize ≤ 65536 := by decide +kernel

theorem saves_sampleEntry : Saves sampleInventoryEnv sampleEntry where
  size := utf8ByteSize_sampleText
  parse := by simp only [sampleInventoryEnv, if_true]
  update := rfl

theorem memCache_sample :
    (InventoryOp.step sampleInventoryEnv sampleWorld sampleInventory (.markWritten "a.rs")).memCache =
    update (fun _ => none) "a.rs" (some sampleEntry) := by
  rw [← discovered_sample]
  rfl

theorem storeSucceeds_sample :
    InventoryOp.StoreSucceeds sampleInventoryEnv sampleWorld sampleInventory (.markWritten "a.rs") := by
  refine ⟨fun path entry hentry => ?_, fun path h => nomatch h⟩
  rw [memCache_sample] at hentry
  by_cases hpath : path = "a.rs"
  · rw [hpath, update_self] at hentry
    rw [← some.inj hentry]
    exact saves_sampleEntry
  · rw [update_of_ne hpath] at hentry
    cases hentry

theorem run_sampleInventory (Admissible : World → FileInventory → InventoryOp → Prop) :
    InventoryRun sampleInventoryEnv Admissible sampleInventory :=
  .start _ _ _ (fun board hboard path => by
    rw [← some.inj hboard]
    exact ⟨rfl, fun _ => rfl⟩) fun table htable path => by
      rw [← some.inj htable]

theorem agrees_sampleInventory : Agrees sampleInventoryEnv
    (InventoryOp.step sampleInventoryEnv sampleWorld sampleInventory (.markWritten "a.rs")) :=
  InventoryRun.agrees (.call (run_sampleInventory _) sampleWorld (.markWritten "a.rs") ⟨storeSucceeds_sample, trivial⟩)

theorem agrees_call_iff_sample : Agrees sampleInventoryEnv
    (InventoryOp.step sampleInventoryEnv sampleWorld sampleInventory (.markWritten "a.rs")) ↔
      InventoryOp.Reaches sampleWorld sampleInventory (.markWritten "a.rs") :=
  (run_sampleInventory _).agrees_call_iff rfl storeSucceeds_sample

/-- After `clear_all` the database still has the file. -/
theorem not_agrees_clearAll : ¬∀ inv, InventoryRun sampleInventoryEnv
    (fun world inv op => op.StoreSucceeds sampleInventoryEnv world inv) inv → Agrees sampleInventoryEnv inv := by
  intro hall
  have hcleared := hall _ (.call (.call (run_sampleInventory _) sampleWorld (.markWritten "a.rs") storeSucceeds_sample)
    sampleWorld .clearAll ⟨fun _ _ h => (nomatch h), fun _ h => (nomatch h)⟩)
  have htable : (update (fun _ => none) "a.rs" (some sampleEntry.toValue) : String → Option Value) "a.rs" = none := by
    refine hcleared.cache _ ?_ "a.rs"
    rw [← discovered_sample]
    rfl
  rw [update_self] at htable
  cases htable

end WildAgentOs.Tools
