import WildAgentOs.Memory.Blackboard
import WildAgentOs.Memory.NamedGraphs

/-!
# Runs of the blackboard

The calls of the blackboard, one after the other, and where they leave a node in the tree of tasks: under the
task that `extract_task_iri` reads off its IRI.

* `Op`, `run`, `Tracks`, `Tracks.of_run`.
-/

namespace WildAgentOs.Memory.Blackboard

open Json Text List Option Except AList

variable {env : BlackboardEnv} {s s' : Blackboard}

/-! ### Calls -/

/-- A call, with its time, the fuel of its loop, or the order in which threads end. -/
inductive Op
  | writeNode (now : ℤ) (nodeIri jsonLd : String)
  | writeNodeToGraph (now : ℤ) (nodeIri jsonLd graphName : String)
  | writeNodesBatch (now : ℤ) (nodes : List (String × String))
  | writeBatchToGraphs (now : ℤ) (nodes : List (String × String × String))
  | registerTask (taskIri : String) (parent : Option String)
  | completeTask (taskIri status : String)
  | markDirty (nodeIri : String)
  | readNode (now : ℤ) (nodeIri : String)
  | rememberTaskDocument (now : ℤ) (taskIri : String) (doc : Value)
  | deleteNode (nodeIri : String)
  | evictNode (nodeIri : String)
  | evictSubtree (fuel : ℕ) (taskIri : String)
  | releaseSubtree (fuel : ℕ) (taskIri : String)
  | gcCompletedTasks (fuel : ℕ)
  | flushNodes (l0env : L0Env) (now : ℤ) (l0 : L0Store) (iris : List String)
  | archiveCompletedTask (now : ℤ) (taskIri : String)
  | discardRecordedNodes (recorded : List String)
  | flushOxigraph (order : List ℕ)
  | runSync (i : ℕ)

/-- What a call leaves, if it ends. -/
def Op.step (env : BlackboardEnv) (s : Blackboard) : Op → Option Blackboard
  | .writeNode now nodeIri jsonLd => some (s.writeNode env now nodeIri jsonLd).1
  | .writeNodeToGraph now nodeIri jsonLd graphName =>
    some (s.writeNodeToGraph env now nodeIri jsonLd graphName).1
  | .writeNodesBatch now nodes => some (s.writeNodesBatch env now nodes).1
  | .writeBatchToGraphs now nodes => some (s.writeBatchToGraphs env now nodes).1
  | .registerTask taskIri parent => some (s.registerTask taskIri parent)
  | .completeTask taskIri status => some (s.completeTask taskIri status)
  | .markDirty nodeIri => some (s.markDirty nodeIri)
  | .readNode now nodeIri => some (s.readNode env now nodeIri).1
  | .rememberTaskDocument now taskIri doc => some (s.rememberTaskDocument env now taskIri doc).1
  | .deleteNode nodeIri => some (s.deleteNode env nodeIri)
  | .evictNode nodeIri => some (s.evictNode env nodeIri)
  | .evictSubtree fuel taskIri => s.evictSubtree env fuel taskIri
  | .releaseSubtree fuel taskIri => s.releaseSubtree env fuel taskIri
  | .gcCompletedTasks fuel => s.gcCompletedTasks env fuel
  | .flushNodes l0env now l0 iris => some (s.flushNodes l0env now l0 iris).1.1
  | .archiveCompletedTask now taskIri => some (s.archiveCompletedTask env now taskIri).1
  | .discardRecordedNodes recorded => some (s.discardRecordedNodes env recorded)
  | .flushOxigraph order => some (s.flushOxigraph env order)
  | .runSync i => some (s.runSync env i)

/-- Calls one after the other. -/
def run (env : BlackboardEnv) (s : Blackboard) (ops : List Op) : Option Blackboard := ops.foldlM (Op.step env) s

theorem run_concat (s : Blackboard) (ops : List Op) (op : Op) :
    run env s (ops ++ [op]) = (run env s ops).bind (op.step env) := by
  unfold run
  rw [foldlM_append]
  refine congrArg _ (funext fun s => ?_)
  exact bind_pure _

/-- A call within a run: the first, or one after it. -/
theorem concat_isPrefix_cons {before ops : List Op} {op first : Op} : before ++ [op] <+: first :: ops ↔
      before = [] ∧ op = first ∨ ∃ rest, before = first :: rest ∧ rest ++ [op] <+: ops := by
  cases before with
  | nil => simp [cons_prefix_cons]
  | cons a before =>
    simp only [cons_append, cons_prefix_cons, cons_ne_nil, false_and, false_or, cons.injEq]
    constructor
    · rintro ⟨rfl, hwithin⟩
      exact ⟨before, ⟨rfl, rfl⟩, hwithin⟩
    · rintro ⟨rest, ⟨rfl, rfl⟩, hwithin⟩
      exact ⟨rfl, hwithin⟩

/-- A blackboard on a store that is there already. -/
def withStore (store : Option String → String → List Value) : Blackboard := { new with store }

/-- The sub-tasks that were registered below a task. -/
def registered (ops : List Op) (taskIri : String) : List String :=
  ops.filterMap fun
    | .registerTask child parent => if parent = some taskIri then some child else none
    | _ => none

/-- `discard_recorded_nodes` also drops the tasks that it is given. -/
def Op.IsDiscard : Op → Prop
  | .discardRecordedNodes _ => True
  | _ => False

/-! ### Changes of nodes in the cache -/

/-- Nodes are changed or dropped, and the tree keeps its links and lists. -/
structure Edits (s s' : Blackboard) : Prop where
  cached : ∀ iri node', s'.nodeCache.lookup iri = some node' →
    ∃ node, s.nodeCache.lookup iri = some node ∧ node.iri = node'.iri
  children : s'.childrenOf = s.childrenOf
  nodes : s'.nodesOf = s.nodesOf

theorem Edits.of_eq (hcache : s'.nodeCache = s.nodeCache) (htree : s'.taskTree = s.taskTree) : Edits s s' where
  cached iri node' h := ⟨node', hcache ▸ h, rfl⟩
  children := funext fun task => by rw [childrenOf, htree]; rfl
  nodes := funext fun task => by rw [nodesOf, htree]; rfl

theorem Edits.refl (s : Blackboard) : Edits s s := .of_eq rfl rfl

variable {s₁ s₂ s₃ : Blackboard}

theorem Edits.trans (h₁ : Edits s₁ s₂) (h₂ : Edits s₂ s₃) : Edits s₁ s₃ where
  cached iri node₃ h := by
    obtain ⟨node₂, h, heq₂⟩ := h₂.cached iri node₃ h
    obtain ⟨node₁, h, heq₁⟩ := h₁.cached iri node₂ h
    exact ⟨node₁, h, heq₁.trans heq₂⟩
  children := h₂.children.trans h₁.children
  nodes := h₂.nodes.trans h₁.nodes

variable {α : Type*} {f : Blackboard → α → Blackboard}

theorem Edits.foldl (h : ∀ s a, Edits s (f s a))
    (l : List α) (s : Blackboard) : Edits s (l.foldl f s) := by
  induction l generalizing s with
  | nil => exact .refl s
  | cons a l ih => exact (h s a).trans (ih (f s a))

variable {iri : String}

/-- The node under an IRI is another one, with the same IRI. -/
theorem edits_insert {node node' : Node} (h : s.nodeCache.lookup iri = some node) (heq : node.iri = node'.iri) :
    Edits s { s with nodeCache := s.nodeCache.insert iri node' } where
  cached iri' node₂ hlookup := by
    by_cases hiri : iri' = iri
    · subst hiri
      rw [lookup_insert] at hlookup
      cases hlookup
      exact ⟨node, h, heq⟩
    · rw [lookup_insert_ne hiri] at hlookup
      exact ⟨node₂, hlookup, rfl⟩
  children := rfl
  nodes := rfl

/-! ### The graph alone -/

/-- Nothing is changed but what the graph holds, and what is known of it. -/
def Syncs (s s' : Blackboard) : Prop :=
  ∃ store pendingSyncs serverTaskIris, s' = { s with store, pendingSyncs, serverTaskIris }

theorem Syncs.refl (s : Blackboard) : Syncs s s := ⟨_, _, _, rfl⟩

theorem Syncs.trans (h₁ : Syncs s₁ s₂) (h₂ : Syncs s₂ s₃) : Syncs s₁ s₃ := by
  obtain ⟨_, _, _, rfl⟩ := h₁
  obtain ⟨_, _, _, rfl⟩ := h₂
  exact ⟨_, _, _, rfl⟩

theorem Syncs.foldl (h : ∀ s a, Syncs s (f s a))
    (l : List α) (s : Blackboard) : Syncs s (l.foldl f s) := by
  induction l generalizing s with
  | nil => exact .refl s
  | cons a l ih => exact (h s a).trans (ih (f s a))

theorem Syncs.edits (h : Syncs s s') : Edits s s' := by
  obtain ⟨_, _, _, rfl⟩ := h
  exact .of_eq rfl rfl

variable {graph : Option String} {doc : Value} {nodeIri : String}

theorem syncs_sync (h : s.sync env graph nodeIri doc = .ok s') : Syncs s s' := by
  unfold sync at h
  split_ifs at h
  · cases hupdate : env.update graph nodeIri doc with
    | error e =>
      rw [hupdate] at h
      cases h
    | ok =>
      rw [hupdate] at h
      cases h
      exact ⟨_, _, _, rfl⟩
  · cases h
    exact .refl s

theorem syncs_writeSync (s : Blackboard) (graph : Option String) (nodeIri : String) (doc : Value) :
    Syncs s (s.writeSync env graph nodeIri doc) := by
  unfold writeSync
  split_ifs
  · cases hsync : s.sync env graph nodeIri doc with
    | error e => exact .refl s
    | ok s' => exact syncs_sync hsync
  · exact ⟨_, _, _, rfl⟩

theorem syncs_runSync (s : Blackboard) (i : ℕ) : Syncs s (s.runSync env i) := by
  unfold runSync
  cases hpending : s.pendingSyncs[i]? with
  | none => exact .refl s
  | some pending =>
    have herase : Syncs s { s with pendingSyncs := s.pendingSyncs.eraseIdx i } := ⟨_, _, _, rfl⟩
    refine herase.trans ?_
    simp only
    cases hsync : sync env { s with pendingSyncs := s.pendingSyncs.eraseIdx i } pending.graph
      pending.nodeIri pending.doc with
    | error e => exact .refl _
    | ok s' => exact syncs_sync hsync

theorem syncs_flushOxigraph (s : Blackboard) (order : List ℕ) : Syncs s (s.flushOxigraph env order) :=
  (Syncs.foldl (fun s i => syncs_runSync s i) order s).trans
    (Syncs.foldl (fun s i => syncs_runSync s i) _ _)

variable {taskIri : String}

theorem syncs_syncNamedTaskGraph {graph : String}
    (h : s.syncNamedTaskGraph env graph taskIri doc = .ok s') : Syncs s s' := by
  unfold syncNamedTaskGraph at h
  split_ifs at h
  exact syncs_sync h

theorem syncs_persistServerTaskRecord (h : s.persistServerTaskRecord env taskIri doc = .ok s') : Syncs s s' := by
  unfold persistServerTaskRecord at h
  split_ifs at h
  · obtain ⟨s₁, hsync, h⟩ := bind_eq_ok_iff.1 h
    cases h
    exact (syncs_syncNamedTaskGraph hsync).trans ⟨_, _, _, rfl⟩
  · cases h
    exact .refl s

theorem syncs_dropStore (s : Blackboard) (graph : Option String) (nodeIri : String) :
    Syncs s (s.dropStore env graph nodeIri) := by
  unfold dropStore
  split_ifs
  · exact ⟨_, _, _, rfl⟩
  · exact .refl s

theorem syncs_dropTriples (s : Blackboard) (graph : Option String) (nodeIri : String) :
    Syncs s (s.dropTriples env graph nodeIri) := by
  have hfirst : Syncs s (s.dropStore env graph nodeIri) := syncs_dropStore s graph nodeIri
  unfold dropTriples
  simp only
  split_ifs
  · exact ((hfirst.trans (syncs_dropStore _ _ _)).trans (syncs_dropStore _ _ _)).trans ⟨_, _, _, rfl⟩
  · exact hfirst.trans ⟨_, _, _, rfl⟩

variable {validated : List (String × String × Value × Option String)}

theorem syncs_syncBatch (h : s.syncBatch env validated = .ok s') : Syncs s s' := by
  unfold syncBatch at h
  obtain ⟨-, -, h⟩ := bind_eq_ok_iff.1 h
  cases h
  have hset : ∀ s : Blackboard, ∀ graph nodeIri docs, Syncs s (s.setStore graph nodeIri docs) :=
    fun s graph nodeIri docs => ⟨_, _, _, rfl⟩
  exact (Syncs.foldl (fun s item => hset s _ _ _) _ _).trans
    (Syncs.foldl (fun s item => hset s _ _ _) _ _)

/-! ### The graph at one subject -/

/-- Nothing changes but the graph at one subject. -/
structure SyncsAt (iri : String) (s s' : Blackboard) : Prop where
  cache : s'.nodeCache = s.nodeCache
  store : ∀ graph iri', iri' ≠ iri → s'.store graph iri' = s.store graph iri'
  pending : ∀ pending ∈ s'.pendingSyncs, pending ∈ s.pendingSyncs ∨ pending.nodeIri = iri

theorem SyncsAt.refl (iri : String) (s : Blackboard) : SyncsAt iri s s := ⟨rfl, fun _ _ _ => rfl, fun _ h => .inl h⟩

theorem SyncsAt.trans (h : SyncsAt iri s₁ s₂) (h' : SyncsAt iri s₂ s₃) : SyncsAt iri s₁ s₃ where
  cache := h'.cache.trans h.cache
  store graph iri' hne := (h'.store graph iri' hne).trans (h.store graph iri' hne)
  pending pending hin := by
    rcases h'.pending pending hin with hin | heq
    · exact h.pending pending hin
    · exact .inr heq

theorem syncsAt_sync (h : s.sync env graph iri doc = .ok s') : SyncsAt iri s s' := by
  unfold sync at h
  split_ifs at h
  · cases hupdate : env.update graph iri doc with
    | error e =>
      rw [hupdate] at h
      cases h
    | ok =>
      rw [hupdate] at h
      cases h
      refine ⟨rfl, fun graph' iri' hne => ?_, fun _ h => .inl h⟩
      by_cases hgraph : graph' = graph
      · subst hgraph
        simp [setStore, hne]
      · simp [setStore, hgraph]
  · cases h
    exact .refl iri s

theorem syncsAt_writeSync (s : Blackboard) (graph : Option String) (iri : String) (doc : Value) :
    SyncsAt iri s (s.writeSync env graph iri doc) := by
  unfold writeSync
  split_ifs
  · cases hsync : s.sync env graph iri doc with
    | error e => exact .refl iri s
    | ok s' => exact syncsAt_sync hsync
  · refine ⟨rfl, fun _ _ _ => rfl, fun pending hin => ?_⟩
    rcases mem_append.1 hin with hin | hin
    · exact .inl hin
    · exact .inr (mem_singleton.1 hin ▸ rfl)

theorem syncsAt_trackIndexed (s : Blackboard) (iri : String) (doc : Value) :
    SyncsAt iri s (s.trackIndexed iri doc) := by
  unfold trackIndexed
  cases extractTaskIri iri with
  | none => exact .refl iri s
  | some task => exact ⟨rfl, fun _ _ _ => rfl, fun _ h => .inl h⟩

/-- A record that is not persisted is refused by the graph. -/
theorem syncsAt_persistServerTaskRecord (s : Blackboard) (iri : String) (doc : Value) :
    (∃ s', s.persistServerTaskRecord env iri doc = .ok s' ∧ SyncsAt iri s s') ∨
      ∃ message, s.persistServerTaskRecord env iri doc = .error (.sparqlError message) := by
  unfold persistServerTaskRecord
  split_ifs
  · unfold syncNamedTaskGraph
    split_ifs
    · cases hsync : s.sync env (some taskRecordGraph) iri doc with
      | ok s' =>
        have hsyncs := syncsAt_sync hsync
        exact .inl ⟨_, rfl, hsyncs.cache, hsyncs.store, hsyncs.pending⟩
      | error e =>
        refine .inr ?_
        unfold sync at hsync
        split_ifs at hsync
        cases hupdate : env.update (some taskRecordGraph) iri doc with
        | ok =>
          rw [hupdate] at hsync
          cases hsync
        | error message =>
          rw [hupdate] at hsync
          exact ⟨message, by rw [← error.inj hsync]; rfl⟩
    · exact .inr ⟨_, rfl⟩
  · exact .inl ⟨s, rfl, .refl iri s⟩

theorem setStore_store (s : Blackboard) (graph graph' : Option String) (iri iri' : String) (docs : List Value) :
    (s.setStore graph iri docs).store graph' iri' =
      if graph' = graph ∧ iri' = iri then docs else s.store graph' iri' := by
  unfold setStore
  by_cases hgraph : graph' = graph
  · subst hgraph
    by_cases hiri : iri' = iri
    · simp [hiri]
    · simp [hiri]
  · simp [hgraph]

/-- Syncs that are under way change the graphs that they are of. -/
theorem runSync_store {iri : String} (i : ℕ)
    (h : ∀ pending ∈ s.pendingSyncs, ¬(pending.graph = graph ∧ pending.nodeIri = iri)) :
    (s.runSync env i).store graph iri = s.store graph iri ∧ (s.runSync env i).pendingSyncs ⊆ s.pendingSyncs := by
  unfold runSync
  cases hpending : s.pendingSyncs[i]? with
  | none => exact ⟨rfl, List.Subset.refl _⟩
  | some pending =>
    have hrest : s.pendingSyncs.eraseIdx i ⊆ s.pendingSyncs := (eraseIdx_sublist s.pendingSyncs i).subset
    simp only
    unfold sync
    split_ifs
    · cases env.update pending.graph pending.nodeIri pending.doc with
      | error e => exact ⟨rfl, hrest⟩
      | ok =>
        refine ⟨?_, hrest⟩
        simp only [setStore_store]
        rw [if_neg]
        rintro ⟨rfl, rfl⟩
        exact h pending (mem_of_getElem? hpending) ⟨rfl, rfl⟩
    · exact ⟨rfl, hrest⟩

theorem flushOxigraph_store (order : List ℕ)
    (h : ∀ pending ∈ s.pendingSyncs, ¬(pending.graph = graph ∧ pending.nodeIri = iri)) :
    (s.flushOxigraph env order).store graph iri = s.store graph iri := by
  have hfold : ∀ (order : List ℕ) (s : Blackboard),
      (∀ pending ∈ s.pendingSyncs, ¬(pending.graph = graph ∧ pending.nodeIri = iri)) →
        (order.foldl (runSync env) s).store graph iri = s.store graph iri ∧
          (order.foldl (runSync env) s).pendingSyncs ⊆ s.pendingSyncs := by
    intro order
    induction order with
    | nil => exact fun s _ => ⟨rfl, List.Subset.refl _⟩
    | cons i order ih =>
      intro s h
      obtain ⟨hstore, hsubset⟩ := @runSync_store env s graph iri i h
      obtain ⟨hstore', hsubset'⟩ := ih (s.runSync env i) fun pending hin => h pending (hsubset hin)
      exact ⟨hstore'.trans hstore, List.Subset.trans hsubset' hsubset⟩
  obtain ⟨hstore, hsubset⟩ := hfold order s h
  unfold flushOxigraph
  exact (hfold _ _ fun pending hin => h pending (hsubset hin)).1.trans hstore

/-! ### Copies -/

/-- The copy that the blackboard has: the cached node, or else the task record. -/
def copy (env : BlackboardEnv) (s : Blackboard) (iri : String) : Option String :=
  match s.nodeCache.lookup iri with
  | some node => some node.jsonLd
  | none => ((s.persistedTaskDocument env iri).filter isTaskDocument).map env.toString

/-- The record of a task is read from the two task graphs. -/
theorem persistedTaskDocument_congr
    (h : ∀ graph ∈ [taskRecordGraph, taskArchiveGraph], s'.store (some graph) iri = s.store (some graph) iri) :
    s'.persistedTaskDocument env iri = s.persistedTaskDocument env iri := by
  rw [forall_mem_cons, forall_mem_singleton] at h
  unfold persistedTaskDocument
  simp only
  split_ifs <;> simp only [flatMap_cons, flatMap_nil, recordsIn, h.1, h.2]

theorem copy_congr (hcache : (s'.nodeCache.lookup iri).map Node.jsonLd = (s.nodeCache.lookup iri).map Node.jsonLd)
    (hstore : ∀ graph ∈ [taskRecordGraph, taskArchiveGraph], s'.store (some graph) iri = s.store (some graph) iri) :
    s'.copy env iri = s.copy env iri := by
  unfold copy
  rw [persistedTaskDocument_congr hstore]
  cases hnode : s.nodeCache.lookup iri with
  | none =>
    rw [hnode, map_none, map_eq_none_iff] at hcache
    rw [hcache]
  | some node =>
    rw [hnode, map_some] at hcache
    obtain ⟨node', hnode', htext⟩ := map_eq_some_iff.1 hcache
    rw [hnode']
    exact congrArg some htext

theorem map_readNode (s : Blackboard) (now : ℤ) (iri : String) :
    (s.readNode env now iri).2.map Node.jsonLd = s.copy env iri := by
  unfold readNode copy
  cases hnode : s.nodeCache.lookup iri with
  | some node => rfl
  | none =>
    simp only
    cases hdoc : s.persistedTaskDocument env iri with
    | none => rfl
    | some doc =>
      simp only [rememberTaskDocument, filter_some]
      split_ifs with htask
      · simp only [hnode]
        rfl
      · rfl

/-! ### The calls that change or drop nodes -/

theorem edits_indexNode (s : Blackboard) (taskIri nodeIri : String) (parsed : Value) :
    Edits s (s.indexNode taskIri nodeIri parsed) := .of_eq rfl rfl

theorem unindexNode_nodeCache (s : Blackboard) (nodeIri : String) (node : Node) :
    (s.unindexNode env nodeIri node).nodeCache = s.nodeCache ∧
      (s.unindexNode env nodeIri node).taskTree = s.taskTree := by
  unfold unindexNode
  cases extractTaskIri nodeIri with
  | none => exact ⟨rfl, rfl⟩
  | some taskIri =>
    simp only
    cases htasks : s.taskNodes.lookup taskIri with
    | none => cases hparse : env.fromStr node.jsonLd <;> exact ⟨rfl, rfl⟩
    | some iris => cases hparse : env.fromStr node.jsonLd <;> exact ⟨rfl, rfl⟩

/-- A call that drops one node. -/
structure Drops (s : Blackboard) (iri : String) (s' : Blackboard) : Prop where
  lookup : ∀ iri', s'.nodeCache.lookup iri' = if iri' = iri then none else s.nodeCache.lookup iri'
  tree : s'.taskTree = s.taskTree

theorem drops_self (h : s.nodeCache.lookup iri = none) : Drops s iri s where
  lookup iri' := by
    split_ifs with heq
    · exact heq ▸ h
    · rfl
  tree := rfl

theorem drops_erase (hcache : s'.nodeCache = s.nodeCache.erase iri) (htree : s'.taskTree = s.taskTree) :
    Drops s iri s' where
  lookup iri' := by
    rw [hcache]
    split_ifs with heq
    · rw [heq, lookup_erase]
    · rw [lookup_erase_ne heq]
  tree := htree

theorem drops_evictNode (s : Blackboard) (nodeIri : String) : Drops s nodeIri (s.evictNode env nodeIri) := by
  unfold evictNode
  cases hnode : s.nodeCache.lookup nodeIri with
  | none => exact drops_self hnode
  | some node =>
    obtain ⟨hcache, htree⟩ := @unindexNode_nodeCache env
      { s with nodeCache := s.nodeCache.erase nodeIri } nodeIri node
    exact drops_erase hcache htree

theorem drops_deleteNode (s : Blackboard) (nodeIri : String) : Drops s nodeIri (s.deleteNode env nodeIri) := by
  unfold deleteNode
  cases hnode : s.nodeCache.lookup nodeIri with
  | none => exact drops_self hnode
  | some node =>
    obtain ⟨_, _, _, heq⟩ := @syncs_dropTriples env
      { s with nodeCache := s.nodeCache.erase nodeIri } node.namedGraph nodeIri
    simp only
    rw [heq]
    exact drops_erase (unindexNode_nodeCache _ nodeIri node).1 (unindexNode_nodeCache _ nodeIri node).2

/-- Nodes are dropped one after the other. -/
theorem drops_foldl {f : Blackboard → String → Blackboard} (h : ∀ s iri, Drops s iri (f s iri))
    (iris : List String) (s : Blackboard) :
    (∀ iri, (iris.foldl f s).nodeCache.lookup iri = if iri ∈ iris then none else s.nodeCache.lookup iri) ∧
      (iris.foldl f s).taskTree = s.taskTree := by
  induction iris generalizing s with
  | nil => exact ⟨fun iri => rfl, rfl⟩
  | cons first iris ih =>
    obtain ⟨hlookup, htree⟩ := ih (f s first)
    refine ⟨fun iri => ?_, htree.trans (h s first).tree⟩
    rw [foldl_cons, hlookup, (h s first).lookup]
    by_cases hin : iri ∈ iris
    · rw [if_pos hin, if_pos (mem_cons_of_mem first hin)]
    · rw [if_neg hin]
      by_cases heq : iri = first
      · rw [if_pos heq, if_pos (heq ▸ mem_cons_self)]
      · rw [if_neg heq, if_neg]
        rw [mem_cons, not_or]
        exact ⟨heq, hin⟩

theorem Drops.edits (h : Drops s iri s') : Edits s s' where
  cached iri' node' hnode' := by
    rw [h.lookup] at hnode'
    split_ifs at hnode'
    exact ⟨node', hnode', rfl⟩
  children := by
    unfold childrenOf
    rw [h.tree]
  nodes := by
    unfold nodesOf
    rw [h.tree]

theorem edits_markDirty (s : Blackboard) (nodeIri : String) : Edits s (s.markDirty nodeIri) := by
  unfold markDirty
  cases hnode : s.nodeCache.lookup nodeIri with
  | none => exact .refl s
  | some node => exact edits_insert hnode rfl

theorem edits_flushNodes (l0env : L0Env) (now : ℤ) (s : Blackboard) (l0 : L0Store) (iris : List String) :
    Edits s (s.flushNodes l0env now l0 iris).1.1 :=
  flushNodes_rel .refl .trans (fun hnode => edits_insert hnode rfl) l0env now s l0 iris

/-- The document of a node is a task record. -/
def IsTaskRecord (env : BlackboardEnv) (node : Node) : Prop :=
  ∃ doc, env.fromStr node.jsonLd = .ok doc ∧ isTaskDocument doc = true ∧ documentHasScope doc = true

/-- What `archive_completed_task` does: it fails at the graph, finds no record, or replaces the record. -/
inductive Archives (env : BlackboardEnv) (s : Blackboard) (taskIri : String) :
    Blackboard × Except BlackboardError Bool → Prop
  | fails {s₁ : Blackboard} {e : BlackboardError} (hsyncs : Syncs s s₁) : Archives env s taskIri (s₁, .error e)
  | finds_none (h : ∀ node, s.nodeCache.lookup taskIri = some node → ¬IsTaskRecord env node) :
      Archives env s taskIri (s, .ok false)
  | replaces {s₁ : Blackboard} {node : Node} (size : ℕ) (jsonLd : String) (hsyncs : Syncs s s₁)
      (hnode : s.nodeCache.lookup taskIri = some node) (hrecord : IsTaskRecord env node) :
      Archives env s taskIri ({ s₁ with
        nodeCache := s₁.nodeCache.insert taskIri { node with size, jsonLd, dirty := false } }, .ok true)

theorem archives_archiveCompletedTask (s : Blackboard) (now : ℤ) (taskIri : String) :
    Archives env s taskIri (s.archiveCompletedTask env now taskIri) := by
  unfold archiveCompletedTask
  cases hnode : s.nodeCache.lookup taskIri with
  | none =>
    refine .finds_none fun node h => ?_
    cases hnode.symm.trans h
  | some node =>
    simp only
    have hnone (h : ¬IsTaskRecord env node) : Archives env s taskIri (s, .ok false) :=
      .finds_none fun node' hnode' => some.inj (hnode.symm.trans hnode') ▸ h
    cases hparse : env.fromStr node.jsonLd with
    | error e =>
      refine hnone ?_
      rintro ⟨doc, hdoc, -⟩
      cases hparse.symm.trans hdoc
    | ok doc =>
      simp only
      split_ifs with hrecord hsubject
      · refine hnone ?_
        rintro ⟨doc', hdoc, htask, hscope⟩
        obtain rfl := ok.inj (hparse.symm.trans hdoc)
        simp [htask, hscope] at hrecord
      · exact .fails (.refl s)
      have htask : IsTaskRecord env node := by
        refine ⟨doc, hparse, ?_⟩
        simpa using hrecord
      generalize archivedDocument env now taskIri doc = archived
      cases hdefault : s.sync env none taskIri archived with
      | error e => exact .fails (.refl s)
      | ok s₁ =>
        simp only
        have h₁ : Syncs s s₁ := syncs_sync hdefault
        cases hpersist : s₁.persistServerTaskRecord env taskIri archived with
        | error e => exact .fails h₁
        | ok s₂ =>
          simp only
          have h₂ : Syncs s s₂ := h₁.trans (syncs_persistServerTaskRecord hpersist)
          cases harchive : s₂.syncNamedTaskGraph env taskArchiveGraph taskIri archived with
          | error e => exact .fails h₂
          | ok s₃ =>
            have h₃ : Syncs s s₃ := h₂.trans (syncs_syncNamedTaskGraph harchive)
            have hcached : s₃.nodeCache.lookup taskIri = some node := by
              obtain ⟨_, _, _, rfl⟩ := h₃
              exact hnode
            simp only [hcached]
            exact .replaces _ _ h₃ hnode htask

theorem Archives.edits {result : Blackboard × Except BlackboardError Bool} (h : Archives env s taskIri result) :
    Edits s result.1 := by
  cases h with
  | fails hsyncs => exact hsyncs.edits
  | finds_none _ => exact .refl s
  | replaces size jsonLd hsyncs hnode _ =>
    refine hsyncs.edits.trans ?_
    obtain ⟨_, _, _, rfl⟩ := hsyncs
    exact edits_insert hnode rfl

/-! ### The tree -/

variable {iris : List String}

theorem mem_pushNew {iri' : String} : iri' ∈ pushNew iris iri ↔ iri' ∈ iris ∨ iri' = iri := by
  unfold pushNew
  split_ifs with hin
  · exact ⟨.inl, fun h => h.elim id fun heq => heq ▸ hin⟩
  · rw [mem_append, mem_singleton]

/-- A list of the tree stays as it is where an entry keeps it. -/
theorem field_insert {tree : AList fun _ : String => TaskTreeNode} {f : TaskTreeNode → List String}
    {k : String} {node : TaskTreeNode} (h : f node = ((tree.lookup k).map f).getD []) (task : String) :
    (((tree.insert k node).lookup task).map f).getD [] = ((tree.lookup task).map f).getD [] := by
  by_cases htask : task = k
  · rw [htask, lookup_insert, map_some, getD_some, h]
  · rw [lookup_insert_ne htask]

theorem childrenOf_trackTask (s : Blackboard) (taskIri nodeIri : String) :
    (s.trackTask taskIri nodeIri).childrenOf = s.childrenOf :=
  funext fun task => field_insert (by cases s.taskTree.lookup taskIri <;> rfl) task

theorem edits_completeTask (s : Blackboard) (taskIri status : String) : Edits s (s.completeTask taskIri status) := by
  unfold completeTask
  cases hnode : s.taskTree.lookup taskIri with
  | none => exact .refl s
  | some node =>
    exact ⟨fun iri node' h => ⟨node', h, rfl⟩, funext fun task => field_insert (by rw [hnode]; rfl) task,
      funext fun task => field_insert (by rw [hnode]; rfl) task⟩

theorem mem_nodesOf_trackTask {nodeIri task : String} :
    iri ∈ (s.trackTask taskIri nodeIri).nodesOf task ↔ iri ∈ s.nodesOf task ∨ task = taskIri ∧ iri = nodeIri := by
  unfold nodesOf trackTask
  by_cases htask : task = taskIri
  · subst htask
    rw [lookup_insert, map_some, getD_some, mem_pushNew]
    cases s.taskTree.lookup task <;> simp
  · rw [lookup_insert_ne htask]
    simp [htask]

theorem nodesOf_registerTask (s : Blackboard) (taskIri : String) (parent : Option String) :
    (s.registerTask taskIri parent).nodesOf = s.nodesOf := by
  funext task
  unfold registerTask
  generalize hnode : (s.taskTree.lookup taskIri).getD ⟨parent, [], [], [], "running", []⟩ = node
  have hself := @field_insert s.taskTree TaskTreeNode.nodeIris taskIri { node with parent }
    (by subst hnode; cases s.taskTree.lookup taskIri <;> rfl) task
  cases parent with
  | none => exact hself
  | some parentIri =>
    simp only
    cases hparent : (s.taskTree.insert taskIri { node with parent := some parentIri }).lookup parentIri with
    | none => exact hself
    | some parentNode => exact (field_insert (by rw [hparent]; rfl) task).trans hself

variable {parent : Option String}

theorem mem_childrenOf_registerTask {task child : String}
    (h : child ∈ (s.registerTask taskIri parent).childrenOf task) :
    child ∈ s.childrenOf task ∨ parent = some task ∧ child = taskIri := by
  unfold registerTask at h
  unfold childrenOf at h ⊢
  generalize hnode : (s.taskTree.lookup taskIri).getD ⟨parent, [], [], [], "running", []⟩ = node at h
  have hself := fun task => @field_insert s.taskTree TaskTreeNode.children taskIri
    { node with parent } (by subst hnode; cases s.taskTree.lookup taskIri <;> rfl) task
  cases parent with
  | none => exact .inl (hself task ▸ h)
  | some parentIri =>
    simp only at h
    cases hparent : (s.taskTree.insert taskIri { node with parent := some parentIri }).lookup parentIri with
    | none =>
      rw [hparent] at h
      exact .inl (hself task ▸ h)
    | some parentNode =>
      rw [hparent] at h
      by_cases htask : task = parentIri
      · subst htask
        rw [lookup_insert, map_some, getD_some, mem_pushNew] at h
        refine h.imp (fun hin => ?_) fun heq => ⟨rfl, heq⟩
        have hchildren := hself task
        rw [hparent] at hchildren
        exact hchildren ▸ hin
      · rw [lookup_insert_ne htask] at h
        exact .inl (hself task ▸ h)

theorem lookup_foldl_erase (tree : AList fun _ : String => TaskTreeNode) (tasks : List String)
    (task : String) : (tasks.foldl (fun tree task => tree.erase task) tree).lookup task =
      if task ∈ tasks then none else tree.lookup task := by
  induction tasks generalizing tree with
  | nil => rfl
  | cons first tasks ih =>
    rw [foldl_cons, ih]
    by_cases hin : task ∈ tasks
    · rw [if_pos hin, if_pos (mem_cons_of_mem first hin)]
    · rw [if_neg hin]
      by_cases heq : task = first
      · rw [heq, lookup_erase, if_pos mem_cons_self]
      · rw [lookup_erase_ne heq, if_neg]
        rw [mem_cons, not_or]
        exact ⟨heq, hin⟩

/-! ### Nodes in the tree -/

/-- The tree lists the nodes under the task of their IRI, all of the cached ones unless tasks were discarded,
and links sub-tasks only where they were registered. -/
structure Tracks (links : String → List String) (keeps : Prop) (s : Blackboard) : Prop where
  iri_eq : ∀ iri node, s.nodeCache.lookup iri = some node → node.iri = iri
  key_eq : ∀ task, ∀ iri ∈ s.nodesOf task, extractTaskIri iri = some task
  linked : ∀ task, ∀ child ∈ s.childrenOf task, child ∈ links task
  kept : keeps → ∀ iri, s.nodeCache.lookup iri ≠ none → ∀ task, extractTaskIri iri = some task → iri ∈ s.nodesOf task

variable {links links' : String → List String} {keeps : Prop}

theorem Tracks.withStore (store : Option String → String → List Value) : Tracks links keeps (withStore store) where
  iri_eq := by
    intro iri node h
    cases h
  key_eq := by
    intro task iri h
    cases h
  linked := by
    intro task child h
    cases h
  kept := fun _ iri h => absurd rfl h

theorem Tracks.edits (h : Tracks links keeps s) (hedits : Edits s s') : Tracks links keeps s' where
  iri_eq iri node' hnode' := by
    obtain ⟨node, hnode, heq⟩ := hedits.cached iri node' hnode'
    exact heq ▸ h.iri_eq iri node hnode
  key_eq := hedits.nodes ▸ h.key_eq
  linked := hedits.children ▸ h.linked
  kept hkeeps iri hcached := by
    obtain ⟨node', hnode'⟩ := ne_none_iff_exists'.1 hcached
    obtain ⟨node, hnode, -⟩ := hedits.cached iri node' hnode'
    rw [hedits.nodes]
    exact h.kept hkeeps iri (hnode ▸ some_ne_none node)

theorem childrenOf_of_trackNode (htree : s'.taskTree = (s.trackNode nodeIri).taskTree) :
    s'.childrenOf = s.childrenOf := by
  have heq : s'.childrenOf = (s.trackNode nodeIri).childrenOf := by
    unfold childrenOf
    rw [htree]
  rw [heq]
  unfold trackNode
  cases extractTaskIri nodeIri with
  | none => rfl
  | some task => exact childrenOf_trackTask s task nodeIri

/-- A node is cached, and listed under its task. -/
theorem Tracks.write (h : Tracks links keeps s) (node : Node) (hcache : s'.nodeCache = s.nodeCache.insert node.iri node)
    (htree : s'.taskTree = (s.trackNode node.iri).taskTree) : Tracks links keeps s' := by
  have hchildren : s'.childrenOf = s.childrenOf := childrenOf_of_trackNode htree
  have hnodes : ∀ task iri, iri ∈ s'.nodesOf task ↔
      iri ∈ s.nodesOf task ∨ extractTaskIri node.iri = some task ∧ iri = node.iri := by
    intro task iri
    have heq : s'.nodesOf = (s.trackNode node.iri).nodesOf := by
      unfold nodesOf
      rw [htree]
    rw [heq]
    unfold trackNode
    cases hkey : extractTaskIri node.iri with
    | none => simp
    | some task' =>
      simp only
      rw [mem_nodesOf_trackTask, some.injEq, eq_comm (a := task)]
  refine ⟨fun iri node' hnode' => ?_, fun task iri hin => ?_, hchildren ▸ h.linked,
    fun hkeeps iri hcached task hkey => ?_⟩
  · rw [hcache] at hnode'
    by_cases hiri : iri = node.iri
    · subst hiri
      rw [lookup_insert] at hnode'
      rw [some.inj hnode']
    · rw [lookup_insert_ne hiri] at hnode'
      exact h.iri_eq iri node' hnode'
  · rcases (hnodes task iri).1 hin with hin | ⟨hkey, rfl⟩
    · exact h.key_eq task iri hin
    · exact hkey
  · rw [hnodes]
    by_cases hiri : iri = node.iri
    · exact .inr ⟨hiri ▸ hkey, hiri⟩
    · rw [hcache, lookup_insert_ne hiri] at hcached
      exact .inl (h.kept hkeeps iri hcached task hkey)

theorem registerTask_nodeCache (s : Blackboard) (taskIri : String) (parent : Option String) :
    (s.registerTask taskIri parent).nodeCache = s.nodeCache := by
  unfold registerTask
  cases parent with
  | none => rfl
  | some parentIri =>
    simp only
    split <;> rfl

theorem completeTask_nodeCache (s : Blackboard) (taskIri status : String) :
    (s.completeTask taskIri status).nodeCache = s.nodeCache := by
  unfold completeTask
  split <;> rfl

theorem Tracks.registerTask (h : Tracks links keeps s) (hlinks : ∀ task, ∀ child ∈ links task, child ∈ links' task)
    (hparent : ∀ task, parent = some task → taskIri ∈ links' task) :
    Tracks links' keeps (s.registerTask taskIri parent) := by
  have hcache := registerTask_nodeCache s taskIri parent
  refine ⟨hcache ▸ h.iri_eq, nodesOf_registerTask s taskIri parent ▸ h.key_eq, fun task child hin => ?_,
    fun hkeeps => ?_⟩
  · rcases mem_childrenOf_registerTask hin with hin | ⟨heq, rfl⟩
    · exact hlinks task child (h.linked task child hin)
    · exact hparent task heq
  · rw [nodesOf_registerTask, hcache]
    exact h.kept hkeeps

variable {tasks : List String}

theorem Tracks.eraseTasks (h : Tracks links keeps s) (hcache : s'.nodeCache = s.nodeCache)
    (htree : s'.taskTree = tasks.foldl (fun tree task => tree.erase task) s.taskTree)
    (hnone : keeps → ∀ iri, s.nodeCache.lookup iri ≠ none → ∀ task ∈ tasks, extractTaskIri iri ≠ some task) :
    Tracks links keeps s' := by
  have hlookup : ∀ task, s'.taskTree.lookup task = if task ∈ tasks then none else s.taskTree.lookup task := by
    intro task
    rw [htree, lookup_foldl_erase]
  refine ⟨hcache ▸ h.iri_eq, fun task iri hin => ?_, fun task child hin => ?_, fun hkeeps iri hcached task hkey => ?_⟩
  · unfold nodesOf at hin
    rw [hlookup] at hin
    split_ifs at hin
    · cases hin
    · exact h.key_eq task iri hin
  · unfold childrenOf at hin
    rw [hlookup] at hin
    split_ifs at hin
    · cases hin
    · exact h.linked task child hin
  · rw [hcache] at hcached
    unfold nodesOf
    rw [hlookup, if_neg fun hin => hnone hkeeps iri hcached task hin hkey]
    exact h.kept hkeeps iri hcached task hkey

/-- The nodes of a task and of its sub-tasks are dropped, and the tasks with them. -/
structure Releases (s : Blackboard) (tasks : List String) (s' : Blackboard) : Prop where
  lookup : ∀ iri, s'.nodeCache.lookup iri = if iri ∈ tasks.flatMap s.nodesOf then none else s.nodeCache.lookup iri
  tree : s'.taskTree = tasks.foldl (fun tree task => tree.erase task) s.taskTree

variable {fuel : ℕ}

theorem releases_evictSubtree (h : s.evictSubtree env fuel taskIri = some s') :
    ∃ tasks, s.tasksToRelease fuel taskIri = some tasks ∧ Releases s tasks s' := by
  obtain ⟨tasks, htasks, h⟩ := bind_eq_some_iff.1 h
  cases h
  obtain ⟨hlookup, htree⟩ := drops_foldl (@drops_evictNode env) (tasks.flatMap s.nodesOf) s
  exact ⟨tasks, htasks, hlookup, congrArg (tasks.foldl fun tree task => tree.erase task) htree⟩

theorem releases_releaseSubtree (h : s.releaseSubtree env fuel taskIri = some s') :
    ∃ tasks, s.tasksToRelease fuel taskIri = some tasks ∧ Releases s tasks s' := by
  obtain ⟨tasks, htasks, h⟩ := bind_eq_some_iff.1 h
  cases h
  obtain ⟨hlookup, htree⟩ := drops_foldl (@drops_deleteNode env) (tasks.flatMap s.nodesOf) s
  exact ⟨tasks, htasks, hlookup, congrArg (tasks.foldl fun tree task => tree.erase task) htree⟩

theorem Tracks.release (h : Tracks links keeps s) (hreleases : Releases s tasks s') : Tracks links keeps s' := by
  have hedits : Edits s { s with nodeCache := s'.nodeCache } := by
    refine ⟨fun iri node' hnode' => ?_, rfl, rfl⟩
    rw [hreleases.lookup] at hnode'
    split_ifs at hnode'
    exact ⟨node', hnode', rfl⟩
  refine (h.edits hedits).eraseTasks rfl hreleases.tree fun hkeeps iri hcached task htask hkey => ?_
  rw [hreleases.lookup] at hcached
  split_ifs at hcached with hin
  · exact hcached rfl
  · exact hin (mem_flatMap.2 ⟨task, htask, h.kept hkeeps iri hcached task hkey⟩)

/-! ### Writes -/

/-- Nodes with these IRIs, and no others, may be written, each cached and listed under its task. -/
inductive Written : Blackboard → List String → Blackboard → Prop
  | syncs {s s' : Blackboard} (iris : List String) (h : Syncs s s') : Written s iris s'
  | node {s s' : Blackboard} (node : Node) (hcache : s'.nodeCache = s.nodeCache.insert node.iri node)
      (htree : s'.taskTree = (s.trackNode node.iri).taskTree) : Written s [node.iri] s'
  | append {s s₁ s' : Blackboard} {iris iris' : List String} (h : Written s iris s₁)
      (h' : Written s₁ iris' s') : Written s (iris ++ iris') s'

theorem Written.foldl {iri : α → String}
    (h : ∀ s a, Written s [iri a] (f s a)) (l : List α) (s : Blackboard) : Written s (l.map iri) (l.foldl f s) := by
  induction l generalizing s with
  | nil => exact .syncs [] (.refl s)
  | cons a l ih => exact (h s a).append (ih (f s a))

theorem Tracks.written (h : Tracks links keeps s) (hwritten : Written s iris s') : Tracks links keeps s' := by
  induction hwritten with
  | syncs iris hsyncs => exact h.edits hsyncs.edits
  | node node hcache htree => exact h.write node hcache htree
  | append _ _ ih ih' => exact ih' (ih h)

theorem Written.childrenOf (h : Written s iris s') : s'.childrenOf = s.childrenOf := by
  induction h with
  | syncs iris hsyncs => exact hsyncs.edits.children
  | node node hcache htree => exact childrenOf_of_trackNode htree
  | append _ _ ih ih' => exact ih'.trans ih

theorem Written.lookup (h : Written s iris s') (hout : iri ∉ iris) :
    s'.nodeCache.lookup iri = s.nodeCache.lookup iri := by
  induction h with
  | syncs iris hsyncs =>
    obtain ⟨_, _, _, rfl⟩ := hsyncs
    rfl
  | node node hcache htree => rw [hcache, lookup_insert_ne (mt mem_singleton.2 hout)]
  | append _ _ ih ih' =>
    rw [mem_append, not_or] at hout
    exact (ih' hout.2).trans (ih hout.1)

theorem Written.cached (h : Written s iris s') (hgone : s'.nodeCache.lookup iri = none) :
    s.nodeCache.lookup iri = none := by
  induction h with
  | syncs iris hsyncs =>
    obtain ⟨_, _, _, rfl⟩ := hsyncs
    exact hgone
  | node node hcache htree =>
    rw [hcache] at hgone
    by_cases heq : iri = node.iri
    · rw [heq, lookup_insert] at hgone
      cases hgone
    · rwa [lookup_insert_ne heq] at hgone
  | append _ _ ih ih' => exact ih (ih' hgone)

theorem written_trackIndexed (s : Blackboard) (node : Node) {s₁ : Blackboard} (hsyncs : Syncs (s.cacheNode node) s₁)
    (parsed : Value) : Written s [node.iri] (s₁.trackIndexed node.iri parsed) := by
  obtain ⟨_, _, _, rfl⟩ := hsyncs
  refine .node node ?_ ?_
  · unfold trackIndexed
    cases extractTaskIri node.iri <;> rfl
  · unfold trackIndexed trackNode
    cases extractTaskIri node.iri <;> rfl

theorem written_trackNode (s : Blackboard) (node : Node) :
    Written s [node.iri] ((s.cacheNode node).trackNode node.iri) := by
  refine .node node ?_ ?_
  · unfold trackNode
    cases extractTaskIri node.iri <;> rfl
  · unfold trackNode
    cases extractTaskIri node.iri <;> rfl

theorem written_writeNode (s : Blackboard) (now : ℤ) (nodeIri jsonLd : String) :
    Written s [nodeIri] (s.writeNode env now nodeIri jsonLd).1 := by
  unfold writeNode
  cases hcheck : checkDocument env jsonLd "JSON parse error: " with
  | error e => exact .syncs [nodeIri] (.refl s)
  | ok parsed =>
    simp only
    cases hguard : (guardedTaskIri nodeIri).filter fun owner => s.taskRecordIsClosed env owner with
    | some owner => exact .syncs [nodeIri] (.refl s)
    | none =>
      simp only
      generalize hnode : s.nodeOf now nodeIri jsonLd parsed (textMember parsed "named_graph") = node
      obtain rfl : node.iri = nodeIri := hnode ▸ rfl
      have hwritten := written_trackIndexed s node (@syncs_writeSync env _ none node.iri parsed) parsed
      split_ifs
      · cases hpersist : persistServerTaskRecord env _ node.iri parsed with
        | error e => exact hwritten
        | ok s'' => exact hwritten.append (.syncs [] (syncs_persistServerTaskRecord hpersist))
      · exact hwritten

theorem written_writeNodeToGraph (s : Blackboard) (now : ℤ) (nodeIri jsonLd graphName : String) :
    Written s [nodeIri] (s.writeNodeToGraph env now nodeIri jsonLd graphName).1 := by
  unfold writeNodeToGraph
  cases hcheck : checkDocument env jsonLd "JSON parse error: " with
  | error e => exact .syncs [nodeIri] (.refl s)
  | ok parsed =>
    exact written_trackIndexed s (s.nodeOf now nodeIri jsonLd parsed (some graphName))
      (@syncs_writeSync env _ (some graphName) nodeIri parsed) parsed

variable {nodes : List (String × String × Option String)}

theorem checkBatch_iris {i : ℕ} (h : checkBatch env i nodes = .ok validated) :
    validated.map Prod.fst = nodes.map Prod.fst := by
  induction nodes generalizing i validated with
  | nil =>
    cases h
    rfl
  | cons node nodes ih =>
    obtain ⟨nodeIri, jsonLd, graph⟩ := node
    obtain ⟨parsed, -, h⟩ := bind_eq_ok_iff.1 h
    obtain ⟨rest, hrest, h⟩ := bind_eq_ok_iff.1 h
    cases h
    rw [map_cons, map_cons, ih hrest]

/-- What a call leaves, with its answer. -/
theorem fst_outcome (s : Blackboard) (outcome : Except BlackboardError Blackboard) : (match outcome with
      | .error e => (s, .error e)
      | .ok s' => (s', .ok ()) : Blackboard × Except BlackboardError Unit).1 =
      match outcome with
      | .error _ => s
      | .ok s' => s' := by
  cases outcome <;> rfl

/-- A batch, with what it does to each node. -/
theorem written_batch
    {f : Blackboard → String × String × Value × Option String → Blackboard}
    (h : ∀ s item, Written s [item.1] (f s item))
    (s : Blackboard) :
    Written s (nodes.map Prod.fst) <|
      match (do
        let validated ← checkBatch env 0 nodes
        let s ← s.syncBatch env validated
        return validated.foldl f s : Except BlackboardError Blackboard) with
      | .error _ => s
      | .ok s' => s' := by
  split
  · exact .syncs _ (.refl s)
  · next s' houtcome =>
    obtain ⟨validated, hcheck, houtcome⟩ := bind_eq_ok_iff.1 houtcome
    obtain ⟨s₁, hsync, houtcome⟩ := bind_eq_ok_iff.1 houtcome
    cases houtcome
    rw [← checkBatch_iris hcheck]
    exact (Written.syncs [] (syncs_syncBatch hsync)).append (.foldl h validated s₁)

theorem written_writeNodesBatch (s : Blackboard) (now : ℤ) (nodes : List (String × String)) :
    Written s (nodes.map Prod.fst) (s.writeNodesBatch env now nodes).1 := by
  have hbatch := @written_batch env (nodes.map fun node => (node.1, node.2, none)) _ (fun s item => written_trackNode s
    (s.nodeOf now item.1 item.2.1 item.2.2.1 (textMember item.2.2.1 "named_graph"))) s
  rw [List.map_map] at hbatch
  exact (fst_outcome s _).symm ▸ hbatch

theorem written_writeBatchToGraphs (s : Blackboard) (now : ℤ) (nodes : List (String × String × String)) :
    Written s (nodes.map Prod.fst) (s.writeBatchToGraphs env now nodes).1 := by
  have hbatch := @written_batch env (nodes.map fun node => (node.1, node.2.1, some node.2.2)) _ (fun s item =>
    written_trackIndexed s (s.nodeOf now item.1 item.2.1 item.2.2.1 item.2.2.2) (.refl _) item.2.2.1) s
  rw [List.map_map] at hbatch
  exact (fst_outcome s _).symm ▸ hbatch

theorem Tracks.rememberTaskDocument (h : Tracks links keeps s) (now : ℤ) (taskIri : String)
    (doc : Value) : Tracks links keeps (s.rememberTaskDocument env now taskIri doc).1 := by
  unfold Blackboard.rememberTaskDocument
  split_ifs
  · simp only
    have hserver : Tracks links keeps { s with serverTaskIris := s.serverTaskIris.insert taskIri } :=
      h.edits (.of_eq rfl rfl)
    cases hnode : s.nodeCache.lookup taskIri with
    | some node => exact hserver
    | none =>
      simp only
      generalize hnew : nodeFromDocument env now taskIri doc = node
      obtain rfl : node.iri = taskIri := hnew ▸ rfl
      have htracked := hserver.written (written_trackNode _ node)
      unfold Blackboard.trackNode at htracked
      unfold trackTaskIndexes
      cases hkey : extractTaskIri node.iri with
      | none =>
        rw [hkey] at htracked
        exact htracked
      | some task =>
        rw [hkey] at htracked
        exact htracked.edits ((edits_completeTask _ task _).trans (edits_indexNode _ task node.iri doc))
  · exact h

theorem Tracks.readNode (h : Tracks links keeps s) (now : ℤ) (nodeIri : String) :
    Tracks links keeps (s.readNode env now nodeIri).1 := by
  unfold Blackboard.readNode
  cases hnode : s.nodeCache.lookup nodeIri with
  | some node => exact h
  | none =>
    simp only
    cases hdoc : s.persistedTaskDocument env nodeIri with
    | none => exact h
    | some doc => exact h.rememberTaskDocument now nodeIri doc

theorem Tracks.gcCompletedTasks (h : Tracks links keeps s)
    (hgc : s.gcCompletedTasks env fuel = some s') : Tracks links keeps s' := by
  unfold Blackboard.gcCompletedTasks at hgc
  generalize s.completedTasks = tasks at hgc
  induction tasks generalizing s with
  | nil =>
    cases hgc
    exact h
  | cons task tasks ih =>
    obtain ⟨s₁, hevict, hgc⟩ := bind_eq_some_iff.1 hgc
    obtain ⟨released, -, hreleases⟩ := releases_evictSubtree hevict
    exact ih (h.release hreleases) hgc

/-- **What a call keeps of the tree.** -/
theorem Tracks.step (h : Tracks links keeps s) {op : Op} (hstep : op.step env s = some s')
    (hlinks : ∀ task, ∀ child ∈ links task, child ∈ links' task)
    (hregistered : ∀ task, ∀ child ∈ registered [op] task, child ∈ links' task) :
    Tracks links' (keeps ∧ ¬op.IsDiscard) s' := by
  have hwiden {t : Blackboard} (h : Tracks links keeps t) : Tracks links' (keeps ∧ ¬op.IsDiscard) t :=
    ⟨h.iri_eq, h.key_eq, fun task child hin => hlinks task child (h.linked task child hin),
      fun hkeeps => h.kept hkeeps.1⟩
  have hsome {t : Blackboard} (heq : some t = some s') (h : Tracks links keeps t) :
      Tracks links' (keeps ∧ ¬op.IsDiscard) s' := hwiden (some.inj heq ▸ h)
  cases op with
  | writeNode now nodeIri jsonLd => exact hsome hstep (h.written (written_writeNode s now nodeIri jsonLd))
  | writeNodeToGraph now nodeIri jsonLd graphName =>
    exact hsome hstep (h.written (written_writeNodeToGraph s now nodeIri jsonLd graphName))
  | writeNodesBatch now nodes => exact hsome hstep (h.written (written_writeNodesBatch s now nodes))
  | writeBatchToGraphs now nodes => exact hsome hstep (h.written (written_writeBatchToGraphs s now nodes))
  | registerTask taskIri parent =>
    cases hstep
    refine (hwiden h).registerTask (fun _ _ => id) fun task hparent => hregistered task taskIri ?_
    simp [registered, hparent]
  | completeTask taskIri status => exact hsome hstep (h.edits (edits_completeTask s taskIri status))
  | markDirty nodeIri => exact hsome hstep (h.edits (edits_markDirty s nodeIri))
  | readNode now nodeIri => exact hsome hstep (h.readNode now nodeIri)
  | rememberTaskDocument now taskIri doc => exact hsome hstep (h.rememberTaskDocument now taskIri doc)
  | deleteNode nodeIri => exact hsome hstep (h.edits (drops_deleteNode s nodeIri).edits)
  | evictNode nodeIri => exact hsome hstep (h.edits (drops_evictNode s nodeIri).edits)
  | evictSubtree fuel taskIri =>
    obtain ⟨tasks, -, hreleases⟩ := releases_evictSubtree hstep
    exact hwiden (h.release hreleases)
  | releaseSubtree fuel taskIri =>
    obtain ⟨tasks, -, hreleases⟩ := releases_releaseSubtree hstep
    exact hwiden (h.release hreleases)
  | gcCompletedTasks fuel => exact hwiden (h.gcCompletedTasks hstep)
  | flushNodes l0env now l0 iris => exact hsome hstep (h.edits (edits_flushNodes l0env now s l0 iris))
  | archiveCompletedTask now taskIri =>
    exact hsome hstep (h.edits (archives_archiveCompletedTask s now taskIri).edits)
  | discardRecordedNodes recorded =>
    cases hstep
    -- The tasks that are dropped may still have nodes in the cache.
    have hdeleted := h.edits (.foldl (fun s iri => (@drops_deleteNode env s iri).edits) recorded s)
    have htree : (s.discardRecordedNodes env recorded).taskTree = recorded.foldl
        (fun tree iri => tree.erase iri) (recorded.foldl (deleteNode env) s).taskTree := rfl
    exact (hwiden hdeleted).eraseTasks rfl htree fun hkeeps => absurd trivial hkeeps.2
  | flushOxigraph order => exact hsome hstep (h.edits (syncs_flushOxigraph s order).edits)
  | runSync i => exact hsome hstep (h.edits (syncs_runSync s i).edits)

/-- **The tree after any calls.** -/
theorem Tracks.of_run (h : Tracks links keeps s) {ops : List Op} (hrun : run env s ops = some s') :
    Tracks (fun task => links task ++ registered ops task) (keeps ∧ ∀ op ∈ ops, ¬op.IsDiscard) s' := by
  induction ops generalizing s links keeps with
  | nil =>
    cases hrun
    simpa [registered] using h
  | cons op ops ih =>
    obtain ⟨s₁, hstep, hrun⟩ := bind_eq_some_iff.1 hrun
    have hfirst : Tracks (fun task => links task ++ registered [op] task) (keeps ∧ ¬op.IsDiscard) s₁ :=
      h.step hstep (fun task child hin => mem_append_left _ hin)
        fun task child hin => mem_append_right _ hin
    have hall := ih hfirst hrun
    refine ⟨hall.iri_eq, hall.key_eq, fun task child hin => ?_, fun hkeeps => hall.kept ?_⟩
    · have hlinked := hall.linked task child hin
      rw [append_assoc] at hlinked
      have happend : registered (op :: ops) task = registered [op] task ++ registered ops task := by
        rw [← singleton_append]
        exact filterMap_append
      rwa [happend]
    · rw [forall_mem_cons] at hkeeps
      exact ⟨⟨hkeeps.1, hkeeps.2.1⟩, hkeeps.2.2⟩

end WildAgentOs.Memory.Blackboard
