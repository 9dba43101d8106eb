import WildAgentOs.Memory.Scheduler

/-!
# Closed tasks

A task whose record is terminal or read-only is closed, and `write_node` refuses what its guard takes for the
task's.  The other writes have no guard, the guard reads the task off the form of the IRI, and a closed record that
is only cached is lost with its node.

* `TaskClosed`, `StaysClosed`, `Op.KeepsClosed`, `Op.Refused`, `staysClosed_of_run`.
-/

namespace WildAgentOs.Memory.Blackboard

open Json List Option

variable {env : BlackboardEnv} {s s' : Blackboard} {taskIri : String} {doc : Value}

/-- **A task is closed** with this document: its record is, and `read_node` gives the document. -/
structure TaskClosed (env : BlackboardEnv) (s : Blackboard) (taskIri : String) (doc : Value) : Prop where
  record : s.taskRecordIsClosed env taskIri = true
  reads : ∀ now, ∃ node, (s.readNode env now taskIri).2 = some node ∧ env.fromStr node.jsonLd = .ok doc
  closed : documentIsClosed doc = true

/-- The document, or what `archive_completed_task` has made of it. -/
inductive Archived (env : BlackboardEnv) (taskIri : String) (doc : Value) : Value → Prop
  | refl : Archived env taskIri doc doc
  | archive {doc' : Value} (now : ℤ) (h : Archived env taskIri doc doc') :
      Archived env taskIri doc (archivedDocument env now taskIri doc')

/-- **The task stays closed**, with the document it was closed with. -/
def StaysClosed (env : BlackboardEnv) (s : Blackboard) (taskIri : String) (doc : Value) : Prop :=
  ∃ doc', Archived env taskIri doc doc' ∧ TaskClosed env s taskIri doc'

/-- The calls that come after the task is closed.  `archive_completed_task` is a flush and an archive. -/
def Op.IsLate : Op → Prop
  | .writeNode _ _ _ | .writeNodeToGraph _ _ _ _ | .writeNodesBatch _ _ | .writeBatchToGraphs _ _
  | .flushOxigraph _ | .archiveCompletedTask _ _ | .evictNode _ | .evictSubtree _ _
  | .gcCompletedTasks _ => True
  | _ => False

/-- A batch that is refused. -/
def batchRefused (env : BlackboardEnv) (s : Blackboard) (nodes : List (String × String × Option String)) : Prop :=
  match checkBatch env 0 nodes with
  | .error _ => True
  | .ok validated => ∃ e, s.syncBatch env validated = .error e

/-- A record that is cached is in the graph as well, and is read back from there. -/
def Stored (env : BlackboardEnv) (s : Blackboard) (taskIri : String) : Prop :=
  ∀ node doc, s.nodeCache.lookup taskIri = some node → env.fromStr node.jsonLd = .ok doc →
    s.persistedTaskDocument env taskIri = some doc ∧ isTaskDocument doc = true ∧
      env.fromStr (env.toString doc) = .ok doc

/-- **What keeps the task closed**: the guard of a write finds a closed task, a write without a guard is refused for
another reason, no sync is left that writes the record, an archive is read back, and the record is in the graph before it is
evicted. -/
def Op.KeepsClosed (env : BlackboardEnv) (s : Blackboard) (taskIri : String) : Op → Prop
  | .writeNode _ nodeIri jsonLd => ∀ parsed, checkDocument env jsonLd "JSON parse error: " = .ok parsed →
      ∃ owner, guardedTaskIri nodeIri = some owner ∧ s.taskRecordIsClosed env owner = true
  | .writeNodeToGraph _ _ jsonLd _ => ∀ parsed, checkDocument env jsonLd "JSON parse error: " ≠ .ok parsed
  | .writeNodesBatch _ nodes => nodes ≠ [] → s.batchRefused env (nodes.map fun node => (node.1, node.2, none))
  | .writeBatchToGraphs _ nodes =>
    nodes ≠ [] → s.batchRefused env (nodes.map fun node => (node.1, node.2.1, some node.2.2))
  | .flushOxigraph _ => ∀ pending ∈ s.pendingSyncs, pending.nodeIri = taskIri →
      pending.graph ∉ [some taskRecordGraph, some taskArchiveGraph]
  | .archiveCompletedTask now nodeIri => nodeIri = taskIri → ∀ node doc,
      s.nodeCache.lookup taskIri = some node → env.fromStr node.jsonLd = .ok doc →
        env.fromStr (env.toString (archivedDocument env now taskIri doc)) = .ok (archivedDocument env now taskIri doc)
  | .evictNode nodeIri => nodeIri = taskIri → Stored env s taskIri
  | .evictSubtree _ _ | .gcCompletedTasks _ => Stored env s taskIri
  | _ => True

/-- **A write is refused**, and leaves everything as it was. -/
def Op.Refused (env : BlackboardEnv) (s : Blackboard) : Op → Prop
  | .writeNode now nodeIri jsonLd => ∃ e, s.writeNode env now nodeIri jsonLd = (s, .error e)
  | .writeNodeToGraph now nodeIri jsonLd graphName =>
    ∃ e, s.writeNodeToGraph env now nodeIri jsonLd graphName = (s, .error e)
  | .writeNodesBatch now nodes => nodes ≠ [] → ∃ e, s.writeNodesBatch env now nodes = (s, .error e)
  | .writeBatchToGraphs now nodes => nodes ≠ [] → ∃ e, s.writeBatchToGraphs env now nodes = (s, .error e)
  | _ => True

/-! ### The closed document -/

/-- What `read_node` gives is the copy. -/
theorem readNode_iff_copy : (∀ now, ∃ node, (s.readNode env now taskIri).2 = some node ∧
    env.fromStr node.jsonLd = .ok doc) ↔ ∃ text, s.copy env taskIri = some text ∧ env.fromStr text = .ok doc := by
  constructor
  · intro hreads
    obtain ⟨node, hnode, hdoc⟩ := hreads 0
    exact ⟨node.jsonLd, by rw [← map_readNode s 0, hnode]; rfl, hdoc⟩
  · rintro ⟨text, hcopy, hdoc⟩ now
    rw [← map_readNode s now] at hcopy
    obtain ⟨node, hnode, rfl⟩ := map_eq_some_iff.1 hcopy
    exact ⟨node, hnode, hdoc⟩

/-- A closed document in the cache closes the task. -/
theorem TaskClosed.of_cached {node : Node} (hnode : s.nodeCache.lookup taskIri = some node)
    (hdoc : env.fromStr node.jsonLd = .ok doc) (hclosed : documentIsClosed doc = true) :
    TaskClosed env s taskIri doc where
  record := by simp [taskRecordIsClosed, hnode, taskJsonIsClosed, hdoc, hclosed]
  reads := readNode_iff_copy.2 ⟨node.jsonLd, by simp [copy, hnode], hdoc⟩
  closed := hclosed

/-- Whether a task is closed depends on its own node and record alone. -/
theorem TaskClosed.congr (h : TaskClosed env s taskIri doc)
    (hcache : s'.nodeCache.lookup taskIri = s.nodeCache.lookup taskIri)
    (hstore : ∀ graph ∈ [taskRecordGraph, taskArchiveGraph],
      s'.store (some graph) taskIri = s.store (some graph) taskIri) : TaskClosed env s' taskIri doc where
  record := by
    have hrecord := h.record
    unfold taskRecordIsClosed at hrecord ⊢
    rwa [hcache, persistedTaskDocument_congr hstore]
  reads := by
    rw [readNode_iff_copy, copy_congr (by rw [hcache]) hstore]
    exact readNode_iff_copy.1 h.reads
  closed := h.closed

/-- The record is read from the graph when its node is gone. -/
theorem TaskClosed.evicted (h : TaskClosed env s taskIri doc) (hstored : Stored env s taskIri)
    (hcache : s'.nodeCache.lookup taskIri = none)
    (hstore : ∀ graph ∈ [taskRecordGraph, taskArchiveGraph],
      s'.store (some graph) taskIri = s.store (some graph) taskIri) : TaskClosed env s' taskIri doc := by
  cases hnode : s.nodeCache.lookup taskIri with
  | none => exact h.congr (hcache.trans hnode.symm) hstore
  | some node =>
    obtain ⟨text, hcopy, hdoc⟩ := readNode_iff_copy.1 h.reads
    have htext : node.jsonLd = text := by simpa [copy, hnode] using hcopy
    obtain ⟨hpersisted, htask, hreads⟩ := hstored node doc hnode (htext ▸ hdoc)
    refine ⟨?_, readNode_iff_copy.2 ⟨env.toString doc, ?_, hreads⟩, h.closed⟩
    · simp [taskRecordIsClosed, hcache, persistedTaskDocument_congr hstore, hpersisted, h.closed]
    · simp [copy, hcache, persistedTaskDocument_congr hstore, hpersisted, filter_some, htask]

/-! ### Evictions -/

/-- Nodes are dropped, and the graph is left as it is. -/
structure Evicts (s s' : Blackboard) : Prop where
  cache : ∀ iri, s'.nodeCache.lookup iri = s.nodeCache.lookup iri ∨ s'.nodeCache.lookup iri = none
  store : s'.store = s.store

theorem Evicts.refl (s : Blackboard) : Evicts s s := ⟨fun _ => .inl rfl, rfl⟩

theorem Evicts.trans {s₁ s₂ s₃ : Blackboard} (h : Evicts s₁ s₂) (h' : Evicts s₂ s₃) : Evicts s₁ s₃ where
  cache iri := by
    rcases h'.cache iri with heq | hnone
    · rw [heq]
      exact h.cache iri
    · exact .inr hnone
  store := h'.store.trans h.store

theorem unindexNode_store (s : Blackboard) (nodeIri : String) (node : Node) :
    (s.unindexNode env nodeIri node).store = s.store := by
  unfold unindexNode
  cases extractTaskIri nodeIri with
  | none => rfl
  | some task =>
    simp only
    cases s.taskNodes.lookup task <;> cases env.fromStr node.jsonLd <;> rfl

theorem evicts_evictNode (s : Blackboard) (nodeIri : String) : Evicts s (s.evictNode env nodeIri) where
  cache iri := by
    rw [(drops_evictNode s nodeIri).lookup]
    split_ifs
    · exact .inr rfl
    · exact .inl rfl
  store := by
    unfold evictNode
    cases s.nodeCache.lookup nodeIri with
    | none => rfl
    | some node => exact unindexNode_store _ nodeIri node

variable {fuel : ℕ}

theorem evicts_evictSubtree {root : String} (h : s.evictSubtree env fuel root = some s') : Evicts s s' := by
  obtain ⟨tasks, -, h⟩ := bind_eq_some_iff.1 h
  cases h
  have hfold : ∀ (iris : List String) (s : Blackboard), Evicts s (iris.foldl (evictNode env) s) := by
    intro iris
    induction iris with
    | nil => exact .refl
    | cons iri iris ih => exact fun s => (evicts_evictNode s iri).trans (ih _)
  have hall := hfold (tasks.flatMap s.nodesOf) s
  exact ⟨hall.cache, hall.store⟩

theorem evicts_gcCompletedTasks (h : s.gcCompletedTasks env fuel = some s') : Evicts s s' := by
  unfold gcCompletedTasks at h
  generalize s.completedTasks = tasks at h
  induction tasks generalizing s with
  | nil => exact some.inj h ▸ .refl s
  | cons task tasks ih =>
    obtain ⟨s₁, hevict, h⟩ := bind_eq_some_iff.1 h
    exact (evicts_evictSubtree hevict).trans (ih h)

theorem TaskClosed.evicts (h : TaskClosed env s taskIri doc) (hstored : Stored env s taskIri)
    (hevicts : Evicts s s') : TaskClosed env s' taskIri doc := by
  have hstore : ∀ graph ∈ [taskRecordGraph, taskArchiveGraph],
      s'.store (some graph) taskIri = s.store (some graph) taskIri := fun graph _ => by rw [hevicts.store]
  rcases hevicts.cache taskIri with heq | hnone
  · exact h.congr heq hstore
  · exact h.evicted hstored hnone hstore

/-! ### The archive -/

/-- **An archive is closed.** -/
theorem documentIsClosed_archivedDocument {members : List (String × Value)} (now : ℤ) (taskIri : String) :
    documentIsClosed (archivedDocument env now taskIri (.object members)) = true := by
  -- The members set after `read_only` are others.
  have hkeeps : ∀ (doc : Value) (key : String) (value : Value), key ≠ "read_only" →
      documentIsArchive doc = true → documentIsArchive (setMember doc key value) = true := by
    intro doc key value hne harchive
    cases doc with
    | object members =>
      obtain ⟨members', heq, hlookup⟩ := @get_setMember members key "read_only" value
      rw [if_neg (Ne.symm hne)] at hlookup
      unfold documentIsArchive Value.get Value.asObject at harchive ⊢
      simpa [heq, hlookup] using harchive
    | _ => exact harchive
  have hset : ∀ members, documentIsArchive (setMember (.object members) "read_only" (.bool true)) = true := by
    intro members
    obtain ⟨members', heq, hlookup⟩ := @get_setMember members "read_only" "read_only" (.bool true)
    simp [documentIsArchive, Value.get, heq, Value.asObject, hlookup]
  have hstatus : ∃ members', (if isTerminalStatus ((textMember (.object members) "status").getD "") then
      Value.object members else setMember (.object members) "status" (.string "completed")) = .object members' := by
    split_ifs
    · exact ⟨members, rfl⟩
    · obtain ⟨members', heq, -⟩ := @get_setMember members "status" "" (.string "completed")
      exact ⟨members', heq⟩
  obtain ⟨members', hstatus⟩ := hstatus
  have harchive : documentIsArchive (archivedDocument env now taskIri (.object members)) = true := by
    unfold archivedDocument
    simp only [hstatus]
    split_ifs
    · exact hkeeps _ _ _ (by decide) (hkeeps _ _ _ (by decide) (hset members'))
    · exact hkeeps _ _ _ (by decide) (hset members')
    · exact hkeeps _ _ _ (by decide) (hset members')
    · exact hset members'
  simp [documentIsClosed, harchive]

/-- What `archive_completed_task` does to the cache: nothing, or the text of a record is that of its archive. -/
inductive ArchivesText (env : BlackboardEnv) (now : ℤ) (s : Blackboard) (iri : String) (s' : Blackboard) : Prop
  | finds_none (h : s' = s)
  | fails (hsyncs : SyncsAt iri s s') (hcached : s.nodeCache.lookup iri ≠ none)
  | replaces {s₁ : Blackboard} {node node' : Node} {doc : Value} (hsyncs : SyncsAt iri s s₁)
      (hnode : s.nodeCache.lookup iri = some node) (hdoc : env.fromStr node.jsonLd = .ok doc)
      (htask : isTaskDocument doc = true) (heq : s' = { s₁ with nodeCache := s₁.nodeCache.insert iri node' })
      (htext : node'.jsonLd = env.toString (archivedDocument env now iri doc))

theorem syncsAt_syncNamedTaskGraph {graph iri : String} (h : s.syncNamedTaskGraph env graph iri doc = .ok s') :
    SyncsAt iri s s' := by
  unfold syncNamedTaskGraph at h
  split_ifs at h
  exact syncsAt_sync h

theorem archivesText_archiveCompletedTask (s : Blackboard) (now : ℤ) (iri : String) :
    ArchivesText env now s iri (s.archiveCompletedTask env now iri).1 := by
  unfold archiveCompletedTask
  cases hnode : s.nodeCache.lookup iri with
  | none => exact .finds_none rfl
  | some node =>
    have hcached : s.nodeCache.lookup iri ≠ none := hnode ▸ some_ne_none node
    simp only
    cases hdoc : env.fromStr node.jsonLd with
    | error e => exact .finds_none rfl
    | ok doc =>
      simp only
      split_ifs with hrecord
      · exact .finds_none rfl
      · exact .finds_none rfl
      have htask : isTaskDocument doc = true := by
        simp only [Bool.not_eq_true, Bool.or_eq_false_iff, Bool.not_eq_false'] at hrecord
        exact hrecord.1
      cases hdefault : s.sync env none iri (archivedDocument env now iri doc) with
      | error e => exact .finds_none rfl
      | ok s₁ =>
        simp only
        have h₁ : SyncsAt iri s s₁ := syncsAt_sync hdefault
        cases hpersist : s₁.persistServerTaskRecord env iri (archivedDocument env now iri doc) with
        | error e => exact .fails h₁ hcached
        | ok s₂ =>
          simp only
          have h₂ : SyncsAt iri s s₂ := by
            rcases syncsAt_persistServerTaskRecord s₁ iri (archivedDocument env now iri doc) with
              ⟨s₂', heq, hsyncs⟩ | ⟨message, heq⟩
            · exact Except.ok.inj (heq.symm.trans hpersist) ▸ h₁.trans hsyncs
            · cases heq.symm.trans hpersist
          cases harchive : s₂.syncNamedTaskGraph env taskArchiveGraph iri (archivedDocument env now iri doc) with
          | error e => exact .fails h₂ hcached
          | ok s₃ =>
            have h₃ : SyncsAt iri s s₃ := h₂.trans (syncsAt_syncNamedTaskGraph harchive)
            have hcached₃ : s₃.nodeCache.lookup iri = some node := by rw [h₃.cache, hnode]
            simp only [hcached₃]
            exact @ArchivesText.replaces env now s iri _ s₃ node _ doc h₃ hnode hdoc htask rfl rfl

theorem object_of_isTaskDocument (h : isTaskDocument doc = true) : ∃ members, doc = .object members := by
  cases doc with
  | object members => exact ⟨members, rfl⟩
  | _ => simp [isTaskDocument, Value.get, Value.asObject] at h

/-! ### Refusals -/

theorem writeNode_refused {now : ℤ} {nodeIri jsonLd : String}
    (h : (Op.writeNode now nodeIri jsonLd).KeepsClosed env s taskIri) :
    (Op.writeNode now nodeIri jsonLd).Refused env s := by
  show ∃ e, s.writeNode env now nodeIri jsonLd = (s, .error e)
  unfold writeNode
  cases hcheck : checkDocument env jsonLd "JSON parse error: " with
  | error e => exact ⟨e, rfl⟩
  | ok parsed =>
    obtain ⟨owner, hguard, hclosed⟩ := h parsed hcheck
    refine ⟨.taskNotFound owner, ?_⟩
    simp [hguard, filter_some, hclosed]

theorem batch_refused {nodes : List (String × String × Option String)} (h : s.batchRefused env nodes)
    (f : List (String × String × Value × Option String) → Blackboard → Blackboard) :
    ∃ e, (do
      let validated ← checkBatch env 0 nodes
      let s ← s.syncBatch env validated
      return f validated s : Except BlackboardError Blackboard) = .error e := by
  unfold batchRefused at h
  cases hcheck : checkBatch env 0 nodes with
  | error e => exact ⟨e, rfl⟩
  | ok validated =>
    rw [hcheck] at h
    obtain ⟨e, hsync⟩ := h
    exact ⟨e, by simp [hsync, bind, Except.bind]⟩

/-- **A call that keeps the task closed is refused if it writes.** -/
theorem Op.KeepsClosed.refused {op : Op} (h : op.KeepsClosed env s taskIri) : op.Refused env s := by
  cases op with
  | writeNode now nodeIri jsonLd => exact writeNode_refused h
  | writeNodeToGraph now nodeIri jsonLd graphName =>
    show ∃ e, s.writeNodeToGraph env now nodeIri jsonLd graphName = (s, .error e)
    unfold Blackboard.writeNodeToGraph
    cases hcheck : checkDocument env jsonLd "JSON parse error: " with
    | error e => exact ⟨e, rfl⟩
    | ok parsed => exact absurd hcheck (h parsed)
  | writeNodesBatch now nodes =>
    intro hne
    obtain ⟨e, hrefused⟩ := batch_refused (h hne) fun validated s => validated.foldl (cacheBatchNode now) s
    exact ⟨e, by unfold Blackboard.writeNodesBatch; simp only [hrefused]⟩
  | writeBatchToGraphs now nodes =>
    intro hne
    obtain ⟨e, hrefused⟩ := batch_refused (h hne) fun validated s => validated.foldl (cacheGraphNode now) s
    exact ⟨e, by unfold Blackboard.writeBatchToGraphs; simp only [hrefused]⟩
  | _ => trivial

/-! ### Runs -/

/-- **One call** that keeps the task closed. -/
theorem StaysClosed.step {op : Op} (h : StaysClosed env s taskIri doc) (hlate : op.IsLate)
    (hkeeps : op.KeepsClosed env s taskIri) (hstep : op.step env s = some s') : StaysClosed env s' taskIri doc := by
  obtain ⟨doc', harchived, hclosed⟩ := h
  have hrefused := hkeeps.refused
  cases op with
  | writeNode now nodeIri jsonLd =>
    cases hstep
    obtain ⟨e, heq⟩ := hrefused
    rw [heq]
    exact ⟨doc', harchived, hclosed⟩
  | writeNodeToGraph now nodeIri jsonLd graphName =>
    cases hstep
    obtain ⟨e, heq⟩ := hrefused
    rw [heq]
    exact ⟨doc', harchived, hclosed⟩
  | writeNodesBatch now nodes =>
    cases hstep
    by_cases hne : nodes = []
    · subst hne
      exact ⟨doc', harchived, hclosed⟩
    · obtain ⟨e, heq⟩ := hrefused hne
      rw [heq]
      exact ⟨doc', harchived, hclosed⟩
  | writeBatchToGraphs now nodes =>
    cases hstep
    by_cases hne : nodes = []
    · subst hne
      exact ⟨doc', harchived, hclosed⟩
    · obtain ⟨e, heq⟩ := hrefused hne
      rw [heq]
      exact ⟨doc', harchived, hclosed⟩
  | flushOxigraph order =>
    cases hstep
    have hcache : (s.flushOxigraph env order).nodeCache = s.nodeCache := by
      obtain ⟨_, _, _, heq⟩ := @syncs_flushOxigraph env s order
      rw [heq]
    refine ⟨doc', harchived, hclosed.congr (by rw [hcache]) fun graph hgraph => ?_⟩
    refine flushOxigraph_store order fun pending hin heq => hkeeps pending hin heq.2 ?_
    rw [heq.1]
    exact List.mem_map_of_mem hgraph
  | archiveCompletedTask now nodeIri =>
    cases hstep
    have hcase := @archivesText_archiveCompletedTask env s now nodeIri
    generalize (s.archiveCompletedTask env now nodeIri).1 = s' at hcase
    by_cases hiri : nodeIri = taskIri
    · subst hiri
      cases hcase with
      | finds_none heq => exact heq ▸ ⟨doc', harchived, hclosed⟩
      | fails hsyncs hcached =>
        obtain ⟨node, hnode⟩ := ne_none_iff_exists'.1 hcached
        obtain ⟨text, hcopy, hdoc⟩ := readNode_iff_copy.1 hclosed.reads
        have htext : node.jsonLd = text := by simpa [copy, hnode] using hcopy
        exact ⟨doc', harchived, .of_cached (hsyncs.cache ▸ hnode) (htext ▸ hdoc) hclosed.closed⟩
      | @replaces s₁ node node' found hsyncs hnode hdoc htask heq htext =>
        obtain ⟨text, hcopy, hdoc'⟩ := readNode_iff_copy.1 hclosed.reads
        have htext' : node.jsonLd = text := by simpa [copy, hnode] using hcopy
        obtain rfl := Except.ok.inj (hdoc.symm.trans (htext' ▸ hdoc'))
        have hreads := hkeeps rfl _ _ hnode hdoc
        obtain ⟨members, rfl⟩ := object_of_isTaskDocument htask
        subst heq
        exact ⟨_, harchived.archive now, .of_cached (AList.lookup_insert _) (htext ▸ hreads)
          (documentIsClosed_archivedDocument now nodeIri)⟩
    · cases hcase with
      | finds_none heq => exact heq ▸ ⟨doc', harchived, hclosed⟩
      | fails hsyncs hcached =>
        exact ⟨doc', harchived, hclosed.congr (by rw [hsyncs.cache]) fun graph _ =>
          hsyncs.store (some graph) taskIri (Ne.symm hiri)⟩
      | replaces hsyncs hnode hdoc htask heq htext =>
        subst heq
        refine ⟨doc', harchived, hclosed.congr ?_ fun graph _ => hsyncs.store (some graph) taskIri (Ne.symm hiri)⟩
        rw [AList.lookup_insert_ne (Ne.symm hiri), hsyncs.cache]
  | evictNode nodeIri =>
    cases hstep
    by_cases hiri : nodeIri = taskIri
    · exact ⟨doc', harchived, hclosed.evicts (hkeeps hiri) (evicts_evictNode s nodeIri)⟩
    · refine ⟨doc', harchived, hclosed.congr ?_ fun graph _ => by rw [(evicts_evictNode s nodeIri).store]⟩
      rw [(drops_evictNode s nodeIri).lookup, if_neg (Ne.symm hiri)]
  | evictSubtree fuel root => exact ⟨doc', harchived, hclosed.evicts hkeeps (evicts_evictSubtree hstep)⟩
  | gcCompletedTasks fuel => exact ⟨doc', harchived, hclosed.evicts hkeeps (evicts_gcCompletedTasks hstep)⟩
  | _ => exact hlate.elim

/-- **A closed task stays closed, and what is written to it is refused**, in every run of calls that keep it
closed. -/
theorem staysClosed_of_run {ops : List Op} (hlate : ∀ op ∈ ops, op.IsLate) (hclosed : TaskClosed env s taskIri doc)
    (hkeeps : ∀ before op s', before ++ [op] <+: ops → run env s before = some s' → op.KeepsClosed env s' taskIri)
    {before : List Op} (hbefore : before <+: ops) (hrun : run env s before = some s') :
    StaysClosed env s' taskIri doc ∧ ∀ op, before ++ [op] <+: ops → op.Refused env s' := by
  refine ⟨?_, fun op hwithin => (hkeeps before op s' hwithin hrun).refused⟩
  induction before using reverseRecOn generalizing s' with
  | nil =>
    cases hrun
    exact ⟨doc, .refl, hclosed⟩
  | append_singleton before op ih =>
    rw [run_concat] at hrun
    obtain ⟨s₁, hrun₁, hstep⟩ := bind_eq_some_iff.1 hrun
    have hstays := ih ((prefix_append before [op]).trans hbefore) hrun₁
    exact hstays.step (hlate op (hbefore.subset mem_concat_self)) (hkeeps before op s₁ hbefore hrun₁) hstep

/-! ### A write to a graph -/

/-- A task that has ended, and the same task running. -/
def endedTask : Value := .object [("@type", .string "Task"), ("status", .string "completed")]

def runningTask : Value := .object [("@type", .string "Task"), ("status", .string "running")]

def endedText : String := "\x7b\"@type\":\"Task\",\"status\":\"completed\"\x7d"

def runningText : String := "\x7b\"@type\":\"Task\",\"status\":\"running\"\x7d"

def taskBoard : BlackboardEnv :=
  { sampleBoard with
    fromStr := fun text =>
      if text = endedText then .ok endedTask
      else if text = runningText then .ok runningTask
      else .error "expected value" }

/-- `write_node_to_graph` opens the task again. -/
theorem not_staysClosed_writeNodeToGraph : ∃ s s',
    run taskBoard (withStore fun _ _ => []) [.writeNode 0 "iri://task/a" endedText] = some s ∧
      TaskClosed taskBoard s "iri://task/a" endedTask ∧
      (Op.writeNodeToGraph 1 "iri://task/a" runningText "iri://graph/g").step taskBoard s = some s' ∧
      ¬StaysClosed taskBoard s' "iri://task/a" endedTask := by
  refine ⟨_, _, rfl, .of_cached rfl rfl (by decide), rfl, ?_⟩
  rintro ⟨doc, -, hclosed⟩
  have hrecord := hclosed.record
  revert hrecord
  decide

/-- Writes that the guard refuses leave the task closed. -/
theorem staysClosed_guarded : ∃ s s',
    run taskBoard (withStore fun _ _ => []) [.writeNode 0 "iri://task/a" endedText] = some s ∧
      run taskBoard s [.writeNode 1 "iri://task/a" runningText, .writeNode 2 "iri://task/a/node_1" runningText] =
        some s' ∧ StaysClosed taskBoard s' "iri://task/a" endedTask := by
  refine ⟨_, _, rfl, rfl, (@staysClosed_of_run taskBoard _ _ "iri://task/a" endedTask
    [.writeNode 1 "iri://task/a" runningText, .writeNode 2 "iri://task/a/node_1" runningText] ?_
    (.of_cached rfl rfl (by decide)) ?_ _ prefix_rfl rfl).1⟩
  · intro op hop
    simp only [mem_cons, not_mem_nil, or_false] at hop
    rcases hop with rfl | rfl <;> trivial
  · intro before op s' hwithin hrun
    rcases concat_isPrefix_cons.1 hwithin with ⟨rfl, rfl⟩ | ⟨rest, rfl, hrest⟩
    · cases hrun
      exact fun _ _ => ⟨"iri://task/a", by decide, by decide⟩
    rcases concat_isPrefix_cons.1 hrest with ⟨rfl, rfl⟩ | ⟨last, rfl, hnone⟩
    · cases hrun
      exact fun _ _ => ⟨"iri://task/a", by decide, by decide⟩
    · simp at hnone

end WildAgentOs.Memory.Blackboard
