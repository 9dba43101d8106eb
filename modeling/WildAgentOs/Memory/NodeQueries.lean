import WildAgentOs.Memory.Scheduler

/-!
# Filtered queries

`query_nodes_filtered` reads three indexes, by role, by cycle and by the first type of a document.  They are
taken together here: a document has facets, and an index lists IRIs under a task and a facet.  Writes add to
the indexes and `unindex_node` takes out what the current document says, so the entry of an earlier document
stays; `write_nodes_batch` adds nothing.

* `QueryFilter`, `queryNodesFiltered`, `Facet`, `IndexExact`;
* `Op.Settles`: what a write has to leave as it is;
* `queriesExact_iff`.
-/

namespace WildAgentOs.Memory.Blackboard

open Core Json List Except AList

/-! ### Queries -/

structure QueryFilter where
  role : Option AgentRole
  cycleId : Option String
  nodeType : Option String
  deriving DecidableEq

/-- One step of the intersection. -/
def narrow (filtered : Option (List String)) (iris : List String) : Option (List String) :=
  match filtered with
  | none => some iris
  | some filtered => some (filtered.filter (· ∈ iris))

def queryNodesFiltered (s : Blackboard) (taskIri : String) (filter : QueryFilter) : List Node :=
  let allIris := (s.taskNodes.lookup taskIri).getD []
  if allIris = [] then []
  else
    let filtered := match filter.role with
      | some role => narrow none (s.roleIndex (taskIri, role))
      | none => none
    let filtered := match filter.cycleId with
      | some cycleId => narrow filtered (s.cycleIndex (taskIri, cycleId))
      | none => filtered
    let filtered := match filter.nodeType with
      | some nodeType => narrow filtered (s.typeIndex (taskIri, nodeType))
      | none => filtered
    (filtered.getD allIris).filterMap fun iri => s.nodeCache.lookup iri

/-! ### Facets -/

/-- What a document is indexed under. -/
inductive Facet
  | role (role : AgentRole)
  | cycle (cycleId : String)
  | type (name : String)
  deriving DecidableEq

/-- The facets of a document. -/
def facets (doc : Value) : List Facet :=
  (((textMember doc "role").bind parseAgentRole).map Facet.role).toList ++
    ((textMember doc "cycle_id").map Facet.cycle).toList ++
    ((extractJsonldTypes doc).head?.map Facet.type).toList

variable {doc : Value}

@[simp] theorem role_mem_facets {role : AgentRole} :
    Facet.role role ∈ facets doc ↔ (textMember doc "role").bind parseAgentRole = some role := by
  unfold facets
  generalize (textMember doc "role").bind parseAgentRole = key
  cases key <;> simp [eq_comm]

@[simp] theorem cycle_mem_facets {cycleId : String} :
    Facet.cycle cycleId ∈ facets doc ↔ textMember doc "cycle_id" = some cycleId := by
  unfold facets
  generalize (textMember doc "role").bind parseAgentRole = key
  cases key <;> simp [eq_comm]

@[simp] theorem type_mem_facets {name : String} :
    Facet.type name ∈ facets doc ↔ (extractJsonldTypes doc).head? = some name := by
  unfold facets
  generalize (textMember doc "role").bind parseAgentRole = key
  cases key <;> simp [eq_comm]

/-- The facets that a filter asks for. -/
def QueryFilter.facets (filter : QueryFilter) : List Facet :=
  (filter.role.map Facet.role).toList ++ (filter.cycleId.map Facet.cycle).toList ++
    (filter.nodeType.map Facet.type).toList

/-- The list of an index. -/
def indexed (s : Blackboard) (taskIri : String) : Facet → List String
  | .role role => s.roleIndex (taskIri, role)
  | .cycle cycleId => s.cycleIndex (taskIri, cycleId)
  | .type name => s.typeIndex (taskIri, name)

/-- `get_task_nodes`. -/
def taskList (s : Blackboard) (taskIri : String) : List String := (s.taskNodes.lookup taskIri).getD []

/-- The node under an IRI has this document. -/
def HasDoc (env : BlackboardEnv) (s : Blackboard) (iri : String) (doc : Value) : Prop :=
  ∃ node, s.nodeCache.lookup iri = some node ∧ env.fromStr node.jsonLd = .ok doc

/-- **A query is exact**: it returns the cached nodes of the task whose document has what the filter asks for,
each once. -/
structure QueryExact (env : BlackboardEnv) (s : Blackboard) (taskIri : String) (filter : QueryFilter) : Prop where
  mem_iff : ∀ node, node ∈ s.queryNodesFiltered taskIri filter ↔
    s.nodeCache.lookup node.iri = some node ∧ extractTaskIri node.iri = some taskIri ∧
      ∃ doc, env.fromStr node.jsonLd = .ok doc ∧ ∀ facet ∈ filter.facets, facet ∈ facets doc
  nodup : ((s.queryNodesFiltered taskIri filter).map Node.iri).Nodup

variable {env : BlackboardEnv} {s s' : Blackboard}

/-- The IRIs that a query looks up: all of the task's, or those on every list. -/
def Answers (s : Blackboard) (taskIri : String) (filter : QueryFilter) (iri : String) : Prop :=
  s.taskList taskIri ≠ [] ∧ (filter.facets = [] → iri ∈ s.taskList taskIri) ∧
    ∀ facet ∈ filter.facets, iri ∈ s.indexed taskIri facet

variable {taskIri : String}

theorem mem_queryNodesFiltered {filter : QueryFilter} {node : Node} : node ∈ s.queryNodesFiltered taskIri filter ↔
      ∃ iri, Answers s taskIri filter iri ∧ s.nodeCache.lookup iri = some node := by
  obtain ⟨role, cycleId, nodeType⟩ := filter
  unfold queryNodesFiltered Answers taskList
  simp only
  split_ifs with hempty
  · simp [hempty]
  · rw [mem_filterMap]
    refine exists_congr fun iri => and_congr_left fun _ => ?_
    cases role <;> cases cycleId <;> cases nodeType <;>
      simp [narrow, QueryFilter.facets, indexed, hempty, and_comm]

variable {iris : List String}

theorem nodup_filterMap_lookup (h : iris.Nodup)
    (hkeyed : ∀ iri node, s.nodeCache.lookup iri = some node → node.iri = iri) :
    ((iris.filterMap fun iri => s.nodeCache.lookup iri).map Node.iri).Nodup := by
  induction iris with
  | nil => exact nodup_nil
  | cons iri iris ih =>
    rw [filterMap_cons]
    obtain ⟨hnotMem, hnodup⟩ := nodup_cons.1 h
    cases hnode : s.nodeCache.lookup iri with
    | none => exact ih hnodup
    | some node =>
      simp only
      rw [map_cons, nodup_cons]
      refine ⟨fun hin => hnotMem ?_, ih hnodup⟩
      obtain ⟨node', hnode', heq⟩ := mem_map.1 hin
      obtain ⟨iri', hiri', hlookup⟩ := mem_filterMap.1 hnode'
      rwa [← hkeyed iri node hnode, ← heq, hkeyed iri' node' hlookup]

theorem nodup_queryNodesFiltered (filter : QueryFilter)
    (hkeyed : ∀ iri node, s.nodeCache.lookup iri = some node → node.iri = iri) (htasks : (s.taskList taskIri).Nodup)
    (hindexed : ∀ facet, (s.indexed taskIri facet).Nodup) :
    ((s.queryNodesFiltered taskIri filter).map Node.iri).Nodup := by
  have hrole : ∀ role, (s.roleIndex (taskIri, role)).Nodup := fun role => hindexed (.role role)
  have hcycle : ∀ cycleId, (s.cycleIndex (taskIri, cycleId)).Nodup := fun cycleId => hindexed (.cycle cycleId)
  have htype : ∀ name, (s.typeIndex (taskIri, name)).Nodup := fun name => hindexed (.type name)
  obtain ⟨role, cycleId, nodeType⟩ := filter
  unfold queryNodesFiltered
  simp only
  split_ifs
  · exact nodup_nil
  · refine nodup_filterMap_lookup ?_ hkeyed
    cases role <;> cases cycleId <;> cases nodeType <;>
      simp only [narrow, Option.getD_none, Option.getD_some] <;>
      first
        | exact htasks
        | exact htype _
        | exact hcycle _
        | exact hrole _
        | exact (hcycle _).filter _
        | exact (hrole _).filter _
        | exact ((hrole _).filter _).filter _

/-! ### What the indexes list -/

theorem nodup_pushNew (h : iris.Nodup) (iri : String) : (pushNew iris iri).Nodup := by
  unfold pushNew
  split_ifs with hin
  · exact h
  · exact nodup_append.2 ⟨h, nodup_singleton iri, fun a ha b hb heq =>
      hin (mem_singleton.1 hb ▸ heq ▸ ha)⟩

theorem atKey_apply {α : Type} [DecidableEq α] (index : String × α → List String) (taskIri : String)
    (key : Option α) (f : List String → List String) (task : String) (a : α) :
    atKey index taskIri key f (task, a) =
      if task = taskIri ∧ key = some a then f (index (task, a)) else index (task, a) := by
  unfold atKey
  cases key with
  | none => simp
  | some k =>
    by_cases hkey : (task, a) = (taskIri, k)
    · cases hkey
      simp
    · simp only [Function.update_of_ne hkey]
      rw [if_neg]
      rintro ⟨rfl, heq⟩
      exact hkey (by rw [Option.some.inj heq])

/-- The lists of `index_node`. -/
theorem indexed_indexNode (s : Blackboard) (taskIri nodeIri : String) (parsed : Value) (task : String)
    (facet : Facet) : (s.indexNode taskIri nodeIri parsed).indexed task facet =
      if task = taskIri ∧ facet ∈ facets parsed then pushNew (s.indexed task facet) nodeIri
      else s.indexed task facet := by
  cases facet with
  | role role => simp only [indexed, indexNode, atKey_apply, role_mem_facets]
  | cycle cycleId => simp only [indexed, indexNode, atKey_apply, cycle_mem_facets]
  | type name => simp only [indexed, indexNode, atKey_apply, type_mem_facets]

variable {nodeIri : String}

/-- What `unindex_node` takes out: under the facets of the current document, and its other types. -/
theorem indexed_unindexNode {node : Node} (hkey : extractTaskIri nodeIri = some taskIri)
    (hdoc : env.fromStr node.jsonLd = .ok doc) (htypes : node.jsonldTypes = extractJsonldTypes doc) (task : String)
    (facet : Facet) :
    (s.unindexNode env nodeIri node).indexed task facet =
      if task = taskIri ∧ (facet ∈ facets doc ∨ ∃ name ∈ extractJsonldTypes doc, facet = .type name) then
        (s.indexed task facet).filter (· ≠ nodeIri)
      else s.indexed task facet := by
  have hsplit : (s.unindexNode env nodeIri node).indexed task facet = indexed { s with
      roleIndex := atKey s.roleIndex taskIri ((textMember doc "role").bind parseAgentRole)
        fun iris => iris.filter (· ≠ nodeIri)
      cycleIndex := atKey s.cycleIndex taskIri (textMember doc "cycle_id") fun iris => iris.filter (· ≠ nodeIri)
      typeIndex := fun key =>
        if key.1 = taskIri ∧ key.2 ∈ node.jsonldTypes then (s.typeIndex key).filter (· ≠ nodeIri)
        else s.typeIndex key } task facet := by
    unfold unindexNode
    simp only [hkey, hdoc]
    cases s.taskNodes.lookup taskIri <;> cases facet <;> rfl
  rw [hsplit]
  cases facet with
  | role role => simp [indexed, atKey_apply]
  | cycle cycleId => simp [indexed, atKey_apply]
  | type name =>
    have hhead : (extractJsonldTypes doc).head? = some name → name ∈ extractJsonldTypes doc := mem_of_mem_head?
    simp only [indexed, htypes, type_mem_facets, Facet.type.injEq, exists_eq_right', or_iff_right_of_imp hhead]

theorem taskList_trackTask (s : Blackboard) (taskIri nodeIri task : String) :
    (s.trackTask taskIri nodeIri).taskList task =
      if task = taskIri then pushNew (s.taskList task) nodeIri else s.taskList task := by
  unfold taskList trackTask
  split_ifs with heq
  · rw [heq, lookup_insert, Option.getD_some]
  · rw [lookup_insert_ne heq]

theorem taskList_unindexNode (hkey : extractTaskIri nodeIri = some taskIri) (node : Node) (task : String) :
    (s.unindexNode env nodeIri node).taskList task =
      if task = taskIri then (s.taskList task).filter (· ≠ nodeIri) else s.taskList task := by
  have hsplit : (s.unindexNode env nodeIri node).taskNodes = (s.taskNodes.lookup taskIri).elim s.taskNodes
      fun iris => s.taskNodes.insert taskIri (iris.filter (· ≠ nodeIri)) := by
    unfold unindexNode
    simp only [hkey]
    cases s.taskNodes.lookup taskIri <;> cases env.fromStr node.jsonLd <;> rfl
  unfold taskList
  rw [hsplit]
  cases hlookup : s.taskNodes.lookup taskIri with
  | none =>
    rw [Option.elim_none]
    split_ifs with heq
    · rw [heq, hlookup]
      rfl
    · rfl
  | some iris =>
    rw [Option.elim_some]
    split_ifs with heq
    · rw [heq, lookup_insert, hlookup]
      rfl
    · rw [lookup_insert_ne heq]

/-! ### Exact indexes -/

/-- The lists of the tasks and of the indexes are those of the cached nodes and of their documents. -/
structure IndexExact (env : BlackboardEnv) (s : Blackboard) : Prop where
  docs : ∀ iri node, s.nodeCache.lookup iri = some node →
    ∃ doc, env.fromStr node.jsonLd = .ok doc ∧ node.jsonldTypes = extractJsonldTypes doc
  mem_indexed : ∀ task facet iri, iri ∈ s.indexed task facet ↔
    extractTaskIri iri = some task ∧ ∃ doc, HasDoc env s iri doc ∧ facet ∈ facets doc
  mem_tasks : ∀ task iri, iri ∈ s.taskList task ↔ extractTaskIri iri = some task ∧ s.nodeCache.lookup iri ≠ none
  nodup_indexed : ∀ task facet, (s.indexed task facet).Nodup
  nodup_tasks : ∀ task, (s.taskList task).Nodup

theorem IndexExact.withStore (store : Option String → String → List Value) : IndexExact env (withStore store) where
  docs iri node h := (nomatch h)
  mem_indexed task facet iri := by
    have hempty : (Blackboard.withStore store).indexed task facet = [] := by cases facet <;> rfl
    rw [hempty]
    refine ⟨fun h => (nomatch h), ?_⟩
    rintro ⟨-, doc, ⟨node, hnode, -⟩, -⟩
    cases hnode
  mem_tasks task iri := ⟨fun h => (nomatch h), fun h => absurd rfl h.2⟩
  nodup_indexed task facet := by cases facet <;> exact nodup_nil
  nodup_tasks task := nodup_nil

/-- **Exact indexes answer exactly.** -/
theorem IndexExact.queryExact (h : IndexExact env s)
    (hkeyed : ∀ iri node, s.nodeCache.lookup iri = some node → node.iri = iri) (taskIri : String)
    (filter : QueryFilter) : QueryExact env s taskIri filter where
  mem_iff node := by
    rw [mem_queryNodesFiltered]
    constructor
    · rintro ⟨iri, ⟨-, hall, hfacets⟩, hnode⟩
      obtain rfl := hkeyed iri node hnode
      obtain ⟨doc, hdoc, -⟩ := h.docs _ node hnode
      have hfacet : ∀ facet ∈ filter.facets, extractTaskIri node.iri = some taskIri ∧ facet ∈ facets doc := by
        intro facet hin
        obtain ⟨hkey, doc', ⟨node', hnode', hdoc'⟩, hin'⟩ := (h.mem_indexed _ _ _).1 (hfacets facet hin)
        obtain rfl := Option.some.inj (hnode.symm.trans hnode')
        obtain rfl := ok.inj (hdoc.symm.trans hdoc')
        exact ⟨hkey, hin'⟩
      refine ⟨hnode, ?_, doc, hdoc, fun facet hin => (hfacet facet hin).2⟩
      cases hlist : filter.facets with
      | nil => exact ((h.mem_tasks _ _).1 (hall hlist)).1
      | cons facet rest => exact (hfacet facet (hlist ▸ mem_cons_self)).1
    · rintro ⟨hnode, hkey, doc, hdoc, hfacets⟩
      have htask : node.iri ∈ s.taskList taskIri := (h.mem_tasks _ _).2 ⟨hkey, hnode ▸ Option.some_ne_none node⟩
      refine ⟨node.iri, ⟨ne_nil_of_mem htask, fun _ => htask, fun facet hin => ?_⟩, hnode⟩
      exact (h.mem_indexed _ _ _).2 ⟨hkey, doc, ⟨node, hnode, hdoc⟩, hfacets facet hin⟩
  nodup := nodup_queryNodesFiltered filter hkeyed (h.nodup_tasks taskIri) (h.nodup_indexed taskIri)

variable {task : String} {facet : Facet}

/-- What is listed under another document than the current one, or under another task, is not listed. -/
theorem IndexExact.notMem_indexed (h : IndexExact env s) {node : Node}
    (hnode : s.nodeCache.lookup nodeIri = some node) (hdoc : env.fromStr node.jsonLd = .ok doc)
    (hother : ¬(extractTaskIri nodeIri = some task ∧ facet ∈ facets doc)) : nodeIri ∉ s.indexed task facet := by
  intro hin
  obtain ⟨hkey, doc', ⟨node', hnode', hdoc'⟩, hin'⟩ := (h.mem_indexed _ _ _).1 hin
  obtain rfl := Option.some.inj (hnode.symm.trans hnode')
  obtain rfl := ok.inj (hdoc.symm.trans hdoc')
  exact hother ⟨hkey, hin'⟩

variable {iri : String}

/-- A list with what is dropped filtered out. -/
theorem mem_filter_ne : iri ∈ iris.filter (· ≠ nodeIri) ↔ iri ∈ iris ∧ iri ≠ nodeIri := by
  rw [mem_filter, decide_eq_true_eq]

theorem mem_and_ne_iff (h : nodeIri ∉ iris) : iri ∈ iris ↔ iri ∈ iris ∧ iri ≠ nodeIri :=
  ⟨fun hin => ⟨hin, fun heq => h (heq ▸ hin)⟩, And.left⟩

/-- A node that is dropped is taken out of every list. -/
theorem IndexExact.unindexNode (h : IndexExact env s) {node : Node} {s₁ : Blackboard}
    (hnode : s.nodeCache.lookup nodeIri = some node) (hcache : s₁.nodeCache = s.nodeCache.erase nodeIri)
    (hindexed : ∀ task facet, s₁.indexed task facet = s.indexed task facet)
    (htasks : ∀ task, s₁.taskList task = s.taskList task) : IndexExact env (s₁.unindexNode env nodeIri node) := by
  obtain ⟨doc, hdoc, htypes⟩ := h.docs nodeIri node hnode
  have hlookup : ∀ iri, (s₁.unindexNode env nodeIri node).nodeCache.lookup iri =
      if iri = nodeIri then none else s.nodeCache.lookup iri := by
    intro iri
    rw [(unindexNode_nodeCache s₁ nodeIri node).1, hcache]
    split_ifs with heq
    · rw [heq, lookup_erase]
    · rw [lookup_erase_ne heq]
  have hindexed' : ∀ task facet, (∀ iri, iri ∈ (s₁.unindexNode env nodeIri node).indexed task facet ↔
      iri ∈ s.indexed task facet ∧ iri ≠ nodeIri) ∧ ((s₁.unindexNode env nodeIri node).indexed task facet).Nodup := by
    intro task facet
    cases hkey : extractTaskIri nodeIri with
    | none =>
      have hsame : s₁.unindexNode env nodeIri node = s₁ := by
        unfold Blackboard.unindexNode
        rw [hkey]
      have hnotMem : nodeIri ∉ s.indexed task facet := h.notMem_indexed hnode hdoc (by simp [hkey])
      rw [hsame, hindexed]
      exact ⟨fun iri => mem_and_ne_iff hnotMem, h.nodup_indexed task facet⟩
    | some taskIri =>
      rw [indexed_unindexNode hkey hdoc htypes, hindexed]
      split_ifs with hlisted
      · exact ⟨fun iri => mem_filter_ne, (h.nodup_indexed task facet).filter _⟩
      · have hnotMem : nodeIri ∉ s.indexed task facet := by
          refine h.notMem_indexed hnode hdoc ?_
          rintro ⟨hkey', hin⟩
          exact hlisted ⟨Option.some.inj (hkey'.symm.trans hkey), .inl hin⟩
        exact ⟨fun iri => mem_and_ne_iff hnotMem, h.nodup_indexed task facet⟩
  have htasks' : ∀ task, (∀ iri, iri ∈ (s₁.unindexNode env nodeIri node).taskList task ↔
      iri ∈ s.taskList task ∧ iri ≠ nodeIri) ∧ ((s₁.unindexNode env nodeIri node).taskList task).Nodup := by
    intro task
    cases hkey : extractTaskIri nodeIri with
    | none =>
      have hsame : s₁.unindexNode env nodeIri node = s₁ := by
        unfold Blackboard.unindexNode
        rw [hkey]
      have hnotMem : nodeIri ∉ s.taskList task := by simp [h.mem_tasks, hkey]
      rw [hsame, htasks]
      exact ⟨fun iri => mem_and_ne_iff hnotMem, h.nodup_tasks task⟩
    | some taskIri =>
      rw [taskList_unindexNode hkey, htasks]
      split_ifs with htask
      · exact ⟨fun iri => mem_filter_ne, (h.nodup_tasks task).filter _⟩
      · have hnotMem : nodeIri ∉ s.taskList task := by
          intro hin
          exact htask (Option.some.inj (((h.mem_tasks _ _).1 hin).1.symm.trans hkey))
        exact ⟨fun iri => mem_and_ne_iff hnotMem, h.nodup_tasks task⟩
  refine ⟨fun iri node' hnode' => ?_, fun task facet iri => ?_, fun task iri => ?_,
    fun task facet => (hindexed' task facet).2, fun task => (htasks' task).2⟩
  · rw [hlookup] at hnode'
    split_ifs at hnode'
    exact h.docs iri node' hnode'
  · rw [(hindexed' task facet).1, h.mem_indexed]
    unfold HasDoc
    by_cases heq : iri = nodeIri
    · simp [hlookup, heq]
    · simp [hlookup, heq]
  · rw [(htasks' task).1, h.mem_tasks, hlookup]
    by_cases heq : iri = nodeIri
    · simp [heq]
    · simp [heq]

theorem IndexExact.evictNode (h : IndexExact env s) (nodeIri : String) : IndexExact env (s.evictNode env nodeIri) := by
  unfold Blackboard.evictNode
  cases hnode : s.nodeCache.lookup nodeIri with
  | none => exact h
  | some node => exact h.unindexNode hnode rfl (fun task facet => by cases facet <;> rfl) fun task => rfl

theorem IndexExact.deleteNode (h : IndexExact env s) (nodeIri : String) :
    IndexExact env (s.deleteNode env nodeIri) := by
  unfold Blackboard.deleteNode
  cases hnode : s.nodeCache.lookup nodeIri with
  | none => exact h
  | some node =>
    obtain ⟨_, _, _, heq⟩ := @syncs_dropTriples env
      { s with nodeCache := s.nodeCache.erase nodeIri } node.namedGraph nodeIri
    simp only
    rw [heq]
    exact h.unindexNode hnode rfl (fun task facet => by cases facet <;> rfl) fun task => rfl

variable {links : String → List String}

theorem IndexExact.evictSubtree (h : IndexExact env s) (htracks : Tracks links True s)
    {fuel : ℕ} (hevict : s.evictSubtree env fuel taskIri = some s') : IndexExact env s' := by
  obtain ⟨tasks, htasks, hsome⟩ := Option.bind_eq_some_iff.1 hevict
  cases hsome
  obtain ⟨hlookup, -⟩ := drops_foldl (@drops_evictNode env) (tasks.flatMap s.nodesOf) s
  have hfold : ∀ (iris : List String) (s : Blackboard), IndexExact env s →
      IndexExact env (iris.foldl (Blackboard.evictNode env) s) := by
    intro iris
    induction iris with
    | nil => exact fun s h => h
    | cons iri iris ih => exact fun s h => ih _ (h.evictNode iri)
  have hall := hfold (tasks.flatMap s.nodesOf) s h
  generalize (tasks.flatMap s.nodesOf).foldl (Blackboard.evictNode env) s = s₁ at hall hlookup
  have hroot : taskIri ∈ tasks := (Worklist.mem_expand htasks).2 ⟨taskIri, mem_cons_self, .refl⟩
  -- The list of the task is empty by then.
  have hempty : ∀ iri, iri ∉ s₁.taskList taskIri := by
    intro iri hin
    obtain ⟨hkey, hcached⟩ := (hall.mem_tasks _ _).1 hin
    rw [hlookup] at hcached
    split_ifs at hcached with hlisted
    · exact hcached rfl
    · exact hlisted (mem_flatMap.2 ⟨taskIri, hroot, htracks.kept trivial iri hcached taskIri hkey⟩)
  have hlist : ∀ task, ((s₁.taskNodes.erase taskIri).lookup task).getD [] = s₁.taskList task := by
    intro task
    by_cases heq : task = taskIri
    · subst heq
      rw [lookup_erase, eq_nil_iff_forall_not_mem.2 hempty]
      rfl
    · rw [lookup_erase_ne heq]
      rfl
  refine ⟨hall.docs, fun task facet iri => ?_, fun task iri => ?_, fun task facet => ?_, fun task => ?_⟩
  · exact hall.mem_indexed task facet iri
  · show iri ∈ ((s₁.taskNodes.erase taskIri).lookup task).getD [] ↔ _
    rw [hlist]
    exact hall.mem_tasks task iri
  · exact hall.nodup_indexed task facet
  · show (((s₁.taskNodes.erase taskIri).lookup task).getD []).Nodup
    rw [hlist]
    exact hall.nodup_tasks task

/-! ### Writes -/

/-- The last document of a node. -/
def lastDoc (docs : List (String × Value)) (iri : String) : Option Value := docs.reverse.lookup iri

theorem lastDoc_append (docs docs' : List (String × Value)) (iri : String) :
    lastDoc (docs ++ docs') iri = (lastDoc docs' iri).or (lastDoc docs iri) := by
  unfold lastDoc
  rw [reverse_append, lookup_append]

/-- Documents are written one after the other, and indexed or not. -/
structure Puts (env : BlackboardEnv) (indexes : Bool) (s : Blackboard) (docs : List (String × Value))
    (s' : Blackboard) : Prop where
  kept : ∀ iri, lastDoc docs iri = none → s'.nodeCache.lookup iri = s.nodeCache.lookup iri
  put : ∀ iri doc, lastDoc docs iri = some doc → ∃ node, s'.nodeCache.lookup iri = some node ∧
    env.fromStr node.jsonLd = .ok doc ∧ node.jsonldTypes = extractJsonldTypes doc
  mem_indexed : ∀ task facet iri, iri ∈ s'.indexed task facet ↔ iri ∈ s.indexed task facet ∨
    indexes = true ∧ extractTaskIri iri = some task ∧ ∃ doc, (iri, doc) ∈ docs ∧ facet ∈ facets doc
  mem_tasks : ∀ task iri, iri ∈ s'.taskList task ↔ iri ∈ s.taskList task ∨
    extractTaskIri iri = some task ∧ ∃ doc, (iri, doc) ∈ docs
  nodup_indexed : ∀ task facet, (s.indexed task facet).Nodup → (s'.indexed task facet).Nodup
  nodup_tasks : ∀ task, (s.taskList task).Nodup → (s'.taskList task).Nodup

section Puts

variable {indexes : Bool} {docs docs' : List (String × Value)}

theorem Puts.refl (h : Syncs s s') : Puts env indexes s [] s' := by
  obtain ⟨_, _, _, rfl⟩ := h
  refine ⟨fun iri _ => rfl, fun iri doc h => (nomatch h), fun task facet iri => ?_, fun task iri => ?_,
    fun task facet => ?_, fun task => id⟩
  · cases facet <;> simp [indexed]
  · simp [taskList]
  · cases facet <;> exact id

theorem Puts.append {s₁ : Blackboard} (h : Puts env indexes s docs s₁) (h' : Puts env indexes s₁ docs' s') :
    Puts env indexes s (docs ++ docs') s' where
  kept iri hnone := by
    rw [lastDoc_append, Option.or_eq_none_iff] at hnone
    exact (h'.kept iri hnone.1).trans (h.kept iri hnone.2)
  put iri doc hsome := by
    rw [lastDoc_append] at hsome
    cases hlast : lastDoc docs' iri with
    | some doc' =>
      rw [hlast] at hsome
      obtain rfl := Option.some.inj hsome
      exact h'.put iri doc' hlast
    | none =>
      rw [hlast] at hsome
      rw [h'.kept iri hlast]
      exact h.put iri doc hsome
  mem_indexed task facet iri := by
    rw [h'.mem_indexed, h.mem_indexed]
    simp only [mem_append, or_and_right, exists_or, and_or_left, or_assoc]
  mem_tasks task iri := by
    rw [h'.mem_tasks, h.mem_tasks]
    simp only [mem_append, exists_or, and_or_left, or_assoc]
  nodup_indexed task facet hnodup := h'.nodup_indexed task facet (h.nodup_indexed task facet hnodup)
  nodup_tasks task hnodup := h'.nodup_tasks task (h.nodup_tasks task hnodup)

theorem Puts.foldl {α : Type*} {f : Blackboard → α → Blackboard} {docOf : α → String × Value} {l : List α}
    (h : ∀ a ∈ l, ∀ s, Puts env indexes s [docOf a] (f s a)) (s : Blackboard) :
    Puts env indexes s (l.map docOf) (l.foldl f s) := by
  induction l generalizing s with
  | nil => exact .refl (.refl s)
  | cons a l ih =>
    exact (h a mem_cons_self s).append (ih (fun b hb => h b (mem_cons_of_mem a hb)) (f s a))

theorem lastDoc_singleton : lastDoc [(nodeIri, doc)] iri = if iri = nodeIri then some doc else none := by
  unfold lastDoc
  rw [reverse_singleton, lookup_cons, lookup_nil]
  by_cases heq : iri = nodeIri
  · simp [heq]
  · rw [if_neg heq, beq_eq_false_iff_ne.2 heq]

theorem puts_one {node : Node} (hcache : s'.nodeCache = s.nodeCache.insert node.iri node)
    (hindexed : ∀ task facet, s'.indexed task facet =
      if indexes = true ∧ extractTaskIri node.iri = some task ∧ facet ∈ facets doc then
        pushNew (s.indexed task facet) node.iri
      else s.indexed task facet) (htasks : ∀ task, s'.taskList task =
      if extractTaskIri node.iri = some task then pushNew (s.taskList task) node.iri else s.taskList task)
    (hdoc : env.fromStr node.jsonLd = .ok doc) (htypes : node.jsonldTypes = extractJsonldTypes doc) :
    Puts env indexes s [(node.iri, doc)] s' where
  kept iri hnone := by
    rw [lastDoc_singleton] at hnone
    split_ifs at hnone with heq
    rw [hcache, lookup_insert_ne heq]
  put iri doc' hsome := by
    rw [lastDoc_singleton] at hsome
    split_ifs at hsome with heq
    cases hsome
    exact ⟨node, by rw [hcache, heq, lookup_insert], hdoc, htypes⟩
  mem_indexed task facet iri := by
    simp only [mem_singleton, Prod.mk.injEq]
    rw [hindexed]
    split_ifs with hput
    · rw [mem_pushNew]
      refine or_congr_right ⟨?_, fun h => h.2.2.choose_spec.1.1⟩
      rintro rfl
      exact ⟨hput.1, hput.2.1, doc, ⟨rfl, rfl⟩, hput.2.2⟩
    · refine (or_iff_left ?_).symm
      rintro ⟨hindexes, hkey, doc', ⟨rfl, rfl⟩, hin⟩
      exact hput ⟨hindexes, hkey, hin⟩
  mem_tasks task iri := by
    simp only [mem_singleton, Prod.mk.injEq]
    rw [htasks]
    split_ifs with hput
    · rw [mem_pushNew]
      refine or_congr_right ⟨?_, fun h => h.2.choose_spec.1⟩
      rintro rfl
      exact ⟨hput, doc, rfl, rfl⟩
    · refine (or_iff_left ?_).symm
      rintro ⟨hkey, doc', rfl, rfl⟩
      exact hput hkey
  nodup_indexed task facet hnodup := by
    rw [hindexed]
    split_ifs
    · exact nodup_pushNew hnodup node.iri
    · exact hnodup
  nodup_tasks task hnodup := by
    rw [htasks]
    split_ifs
    · exact nodup_pushNew hnodup node.iri
    · exact hnodup

theorem puts_trackIndexed (s : Blackboard) {node : Node} {doc : Value} {s₁ : Blackboard}
    (hsyncs : Syncs (s.cacheNode node) s₁) (hdoc : env.fromStr node.jsonLd = .ok doc)
    (htypes : node.jsonldTypes = extractJsonldTypes doc) :
    Puts env true s [(node.iri, doc)] (s₁.trackIndexed node.iri doc) := by
  obtain ⟨_, _, _, rfl⟩ := hsyncs
  have hsame : ∀ task facet (s₂ : Blackboard), s₂.roleIndex = s.roleIndex → s₂.cycleIndex = s.cycleIndex →
      s₂.typeIndex = s.typeIndex → s₂.indexed task facet = s.indexed task facet := by
    intro task facet s₂ hrole hcycle htype
    cases facet <;> simp only [indexed, hrole, hcycle, htype]
  unfold trackIndexed
  cases hkey : extractTaskIri node.iri with
  | none =>
    refine puts_one rfl (fun task facet => ?_) (fun task => ?_) hdoc htypes
    · rw [hkey, if_neg (by simp)]
      exact hsame task facet _ rfl rfl rfl
    · rw [hkey, if_neg (by simp)]
      rfl
  | some taskIri =>
    refine puts_one rfl (fun task facet => ?_) (fun task => ?_) hdoc htypes
    · rw [hkey]
      simp only [indexed_indexNode, Option.some.injEq, true_and, eq_comm (a := taskIri)]
      split_ifs
      · exact congrArg (pushNew · node.iri) (hsame task facet _ rfl rfl rfl)
      · exact hsame task facet _ rfl rfl rfl
    · rw [hkey]
      refine (taskList_trackTask _ taskIri node.iri task).trans ?_
      simp only [Option.some.injEq, eq_comm (a := taskIri)]
      rfl

theorem puts_trackNode (s : Blackboard) {node : Node} {doc : Value}
    (hdoc : env.fromStr node.jsonLd = .ok doc) (htypes : node.jsonldTypes = extractJsonldTypes doc) :
    Puts env false s [(node.iri, doc)] ((s.cacheNode node).trackNode node.iri) := by
  unfold trackNode
  cases hkey : extractTaskIri node.iri with
  | none =>
    refine puts_one rfl (fun task facet => ?_) (fun task => ?_) hdoc htypes
    · cases facet <;> rfl
    · rw [hkey, if_neg (by simp)]
      rfl
  | some taskIri =>
    refine puts_one rfl (fun task facet => ?_) (fun task => ?_) hdoc htypes
    · cases facet <;> rfl
    · rw [hkey]
      refine (taskList_trackTask _ taskIri node.iri task).trans ?_
      simp only [Option.some.injEq, eq_comm (a := taskIri)]
      rfl

end Puts

/-! ### The documents of a call -/

/-- The documents of a batch, none if it is refused. -/
def batchDocs (env : BlackboardEnv) (s : Blackboard) (nodes : List (String × String × Option String)) :
    List (String × Value) :=
  match checkBatch env 0 nodes with
  | .error _ => []
  | .ok validated =>
    match s.syncBatch env validated with
    | .error _ => []
    | .ok _ => validated.map fun item => (item.1, item.2.2.1)

/-- The documents that a call writes, none if it is refused. -/
def Op.docs (env : BlackboardEnv) (s : Blackboard) : Op → List (String × Value)
  | .writeNode _ nodeIri jsonLd =>
    match checkDocument env jsonLd "JSON parse error: " with
    | .error _ => []
    | .ok parsed =>
      match (guardedTaskIri nodeIri).filter fun owner => s.taskRecordIsClosed env owner with
      | some _ => []
      | none => [(nodeIri, parsed)]
  | .writeNodeToGraph _ nodeIri jsonLd _ =>
    match checkDocument env jsonLd "JSON parse error: " with
    | .error _ => []
    | .ok parsed => [(nodeIri, parsed)]
  | .writeNodesBatch _ nodes => s.batchDocs env (nodes.map fun node => (node.1, node.2, none))
  | .writeBatchToGraphs _ nodes => s.batchDocs env (nodes.map fun node => (node.1, node.2.1, some node.2.2))
  | _ => []

/-- `write_nodes_batch` alone leaves the indexes as they are. -/
def Op.indexes : Op → Bool
  | .writeNodesBatch _ _ => false
  | _ => true

/-- The calls that write, delete or evict nodes. -/
def Op.IsNodeCall : Op → Prop
  | .writeNode _ _ _ | .writeNodeToGraph _ _ _ _ | .writeNodesBatch _ _ | .writeBatchToGraphs _ _
  | .deleteNode _ | .evictNode _ | .evictSubtree _ _ => True
  | _ => False

theorem fromStr_of_checkDocument {jsonLd context : String} {parsed : Value}
    (h : checkDocument env jsonLd context = .ok parsed) : env.fromStr jsonLd = .ok parsed := by
  unfold checkDocument at h
  split_ifs at h
  exact mapError_eq_ok_iff.1 h

theorem fromStr_of_checkBatch {i : ℕ} {nodes : List (String × String × Option String)}
    {validated : List (String × String × Value × Option String)} (h : checkBatch env i nodes = .ok validated) :
    ∀ item ∈ validated, env.fromStr item.2.1 = .ok item.2.2.1 := by
  induction nodes generalizing i validated with
  | nil =>
    cases h
    exact fun item hin => (nomatch hin)
  | cons node nodes ih =>
    obtain ⟨nodeIri, jsonLd, graph⟩ := node
    obtain ⟨parsed, hparsed, h⟩ := bind_eq_ok_iff.1 h
    obtain ⟨rest, hrest, h⟩ := bind_eq_ok_iff.1 h
    cases h
    exact forall_mem_cons.2 ⟨fromStr_of_checkDocument hparsed, ih hrest⟩

theorem puts_writeNode (s : Blackboard) (now : ℤ) (nodeIri jsonLd : String) :
    Puts env true s (Op.docs env s (.writeNode now nodeIri jsonLd)) (s.writeNode env now nodeIri jsonLd).1 := by
  rw [Op.docs, writeNode]
  cases hcheck : checkDocument env jsonLd "JSON parse error: " with
  | error e => exact .refl (.refl s)
  | ok parsed =>
    simp only
    cases hguard : (guardedTaskIri nodeIri).filter fun owner => s.taskRecordIsClosed env owner with
    | some owner => exact .refl (.refl s)
    | none =>
      simp only
      have hputs := puts_trackIndexed s
        (@syncs_writeSync env (s.cacheNode (s.nodeOf now nodeIri jsonLd parsed (textMember parsed "named_graph")))
          none nodeIri parsed) (fromStr_of_checkDocument hcheck) rfl
      split_ifs
      · cases hpersist : persistServerTaskRecord env _ nodeIri parsed with
        | error e => exact hputs
        | ok s'' => exact hputs.append (.refl (syncs_persistServerTaskRecord hpersist))
      · exact hputs

theorem puts_writeNodeToGraph (s : Blackboard) (now : ℤ) (nodeIri jsonLd graphName : String) :
    Puts env true s (Op.docs env s (.writeNodeToGraph now nodeIri jsonLd graphName))
      (s.writeNodeToGraph env now nodeIri jsonLd graphName).1 := by
  rw [Op.docs, writeNodeToGraph]
  cases hcheck : checkDocument env jsonLd "JSON parse error: " with
  | error e => exact .refl (.refl s)
  | ok parsed =>
    exact puts_trackIndexed s (@syncs_writeSync env
      (s.cacheNode (s.nodeOf now nodeIri jsonLd parsed (some graphName))) (some graphName) nodeIri parsed)
      (fromStr_of_checkDocument hcheck) rfl

variable {indexes : Bool}

/-- A batch, with what it does to each node. -/
theorem puts_batch {nodes : List (String × String × Option String)}
    {f : Blackboard → String × String × Value × Option String → Blackboard}
    (h : ∀ item, env.fromStr item.2.1 = .ok item.2.2.1 →
      ∀ s, Puts env indexes s [(item.1, item.2.2.1)] (f s item)) (s : Blackboard) :
    Puts env indexes s (s.batchDocs env nodes) <|
      match (do
        let validated ← checkBatch env 0 nodes
        let s ← s.syncBatch env validated
        return validated.foldl f s : Except BlackboardError Blackboard) with
      | .error _ => s
      | .ok s' => s' := by
  unfold batchDocs
  cases hcheck : checkBatch env 0 nodes with
  | error e => exact .refl (.refl s)
  | ok validated =>
    simp only
    cases hsync : s.syncBatch env validated with
    | error e =>
      simp only [hsync, bind, Except.bind]
      exact .refl (.refl s)
    | ok s₁ =>
      simp only [hsync, bind, Except.bind]
      exact (Puts.refl (syncs_syncBatch hsync)).append
        (.foldl (fun item hin => h item (fromStr_of_checkBatch hcheck item hin)) s₁)

theorem puts_writeNodesBatch (s : Blackboard) (now : ℤ) (nodes : List (String × String)) :
    Puts env false s (Op.docs env s (.writeNodesBatch now nodes)) (s.writeNodesBatch env now nodes).1 := by
  have hitem : ∀ item : String × String × Value × Option String, env.fromStr item.2.1 = .ok item.2.2.1 →
      ∀ s, Puts env false s [(item.1, item.2.2.1)] (cacheBatchNode now s item) := fun item hdoc s =>
    @puts_trackNode env s (s.nodeOf now item.1 item.2.1 item.2.2.1 (textMember item.2.2.1 "named_graph"))
      item.2.2.1 hdoc rfl
  have hputs := @puts_batch env false (nodes.map fun node => (node.1, node.2, none)) _ hitem s
  exact (fst_outcome s _).symm ▸ hputs

theorem puts_writeBatchToGraphs (s : Blackboard) (now : ℤ) (nodes : List (String × String × String)) :
    Puts env true s (Op.docs env s (.writeBatchToGraphs now nodes)) (s.writeBatchToGraphs env now nodes).1 := by
  have hitem : ∀ item : String × String × Value × Option String, env.fromStr item.2.1 = .ok item.2.2.1 →
      ∀ s, Puts env true s [(item.1, item.2.2.1)] (cacheGraphNode now s item) := fun item hdoc s =>
    @puts_trackIndexed env s (s.nodeOf now item.1 item.2.1 item.2.2.1 item.2.2.2) item.2.2.1 _ (.refl _) hdoc rfl
  have hputs := @puts_batch env true (nodes.map fun node => (node.1, node.2.1, some node.2.2)) _ hitem s
  exact (fst_outcome s _).symm ▸ hputs

/-! ### What a call has to leave as it is -/

/-- **A call settles what it writes**: what a node was listed under before it, or is listed under by it, the
last document of the node has too, and a call that adds nothing to the indexes has nothing to add. -/
def Op.Settles (env : BlackboardEnv) (s : Blackboard) (op : Op) : Prop :=
  ∀ iri doc, lastDoc (op.docs env s) iri = some doc → extractTaskIri iri ≠ none →
    (∀ old, HasDoc env s iri old → facets old ⊆ facets doc) ∧
      if op.indexes then ∀ doc', (iri, doc') ∈ op.docs env s → facets doc' ⊆ facets doc
      else ∀ facet ∈ facets doc, ∃ old, HasDoc env s iri old ∧ facet ∈ facets old

variable {docs : List (String × Value)}

theorem mem_of_lastDoc (h : lastDoc docs iri = some doc) : (iri, doc) ∈ docs := by
  obtain ⟨before, after, hsplit, -⟩ := lookup_eq_some_iff.1 h
  rw [← mem_reverse, hsplit]
  exact mem_append_right before mem_cons_self

theorem notMem_of_lastDoc (h : lastDoc docs iri = none) (doc : Value) : (iri, doc) ∉ docs := fun hin =>
  lookup_eq_none_iff.1 h (iri, doc) (mem_reverse.2 hin) |> fun hne => by simp at hne

theorem HasDoc.unique {doc' : Value} (h : HasDoc env s iri doc) (h' : HasDoc env s iri doc') : doc = doc' := by
  obtain ⟨node, hnode, hdoc⟩ := h
  obtain ⟨node', hnode', hdoc'⟩ := h'
  obtain rfl := Option.some.inj (hnode.symm.trans hnode')
  exact ok.inj (hdoc.symm.trans hdoc')

theorem Puts.hasDoc (h : Puts env indexes s docs s') (hlast : lastDoc docs iri = some doc) : HasDoc env s' iri doc := by
  obtain ⟨node, hnode, hdoc, -⟩ := h.put iri doc hlast
  exact ⟨node, hnode, hdoc⟩

theorem Puts.hasDoc_iff (h : Puts env indexes s docs s')
    (hlast : lastDoc docs iri = none) (doc : Value) : HasDoc env s' iri doc ↔ HasDoc env s iri doc := by
  unfold HasDoc
  rw [h.kept iri hlast]

variable {op : Op}

/-- **A call that settles what it writes keeps the indexes exact.** -/
theorem IndexExact.puts (h : IndexExact env s) (hputs : Puts env op.indexes s (op.docs env s) s')
    (hsettles : op.Settles env s) : IndexExact env s' where
  docs iri node hnode := by
    cases hlast : lastDoc (op.docs env s) iri with
    | none => exact h.docs iri node (hputs.kept iri hlast ▸ hnode)
    | some doc =>
      obtain ⟨node', hnode', hdoc⟩ := hputs.put iri doc hlast
      obtain rfl := Option.some.inj (hnode.symm.trans hnode')
      exact ⟨doc, hdoc⟩
  mem_indexed task facet iri := by
    rw [hputs.mem_indexed, h.mem_indexed]
    cases hlast : lastDoc (op.docs env s) iri with
    | none =>
      simp only [hputs.hasDoc_iff hlast, notMem_of_lastDoc hlast, false_and, exists_false, and_false, or_false]
    | some doc =>
      have hdoc := hputs.hasDoc hlast
      constructor
      · rintro (⟨hkey, old, hold, hfacet⟩ | ⟨hindexes, hkey, doc', hin, hfacet⟩)
        · obtain ⟨holds, -⟩ := hsettles iri doc hlast (hkey ▸ Option.some_ne_none task)
          exact ⟨hkey, doc, hdoc, holds old hold hfacet⟩
        · obtain ⟨-, hlisted⟩ := hsettles iri doc hlast (hkey ▸ Option.some_ne_none task)
          rw [if_pos hindexes] at hlisted
          exact ⟨hkey, doc, hdoc, hlisted doc' hin hfacet⟩
      · rintro ⟨hkey, doc', hdoc', hfacet⟩
        obtain rfl := hdoc.unique hdoc'
        obtain ⟨-, hlisted⟩ := hsettles iri doc hlast (hkey ▸ Option.some_ne_none task)
        split_ifs at hlisted with hindexes
        · exact .inr ⟨hindexes, hkey, doc, mem_of_lastDoc hlast, hfacet⟩
        · exact .inl ⟨hkey, hlisted facet hfacet⟩
  mem_tasks task iri := by
    rw [hputs.mem_tasks, h.mem_tasks]
    cases hlast : lastDoc (op.docs env s) iri with
    | none => simp only [hputs.kept iri hlast, notMem_of_lastDoc hlast, exists_false, and_false, or_false]
    | some doc =>
      obtain ⟨node, hnode, -⟩ := hputs.put iri doc hlast
      have hin := mem_of_lastDoc hlast
      constructor
      · rintro (⟨hkey, -⟩ | ⟨hkey, -⟩) <;> exact ⟨hkey, hnode ▸ Option.some_ne_none node⟩
      · exact fun hkey => .inr ⟨hkey.1, doc, hin⟩
  nodup_indexed task facet := hputs.nodup_indexed task facet (h.nodup_indexed task facet)
  nodup_tasks task := hputs.nodup_tasks task (h.nodup_tasks task)

/-- The filter that asks for one facet. -/
def Facet.filter : Facet → QueryFilter
  | .role key => ⟨some key, none, none⟩
  | .cycle cycleId => ⟨none, some cycleId, none⟩
  | .type name => ⟨none, none, some name⟩

theorem Facet.facets_filter (facet : Facet) : facet.filter.facets = [facet] := by cases facet <;> rfl

/-- Where answers are exact, a cached node is listed under the facets of its document. -/
theorem QueryExact.mem_indexed_iff (h : QueryExact env s task facet.filter)
    (hkeyed : ∀ iri node, s.nodeCache.lookup iri = some node → node.iri = iri) (hdoc : HasDoc env s iri doc)
    (hkey : extractTaskIri iri = some task) (htask : s.taskList task ≠ []) :
    iri ∈ s.indexed task facet ↔ facet ∈ facets doc := by
  obtain ⟨node, hnode, hparse⟩ := hdoc
  obtain rfl := hkeyed iri node hnode
  have hmem := h.mem_iff node
  rw [mem_queryNodesFiltered] at hmem
  unfold Answers at hmem
  simp only [facet.facets_filter, forall_mem_singleton, cons_ne_nil, false_implies, true_and] at hmem
  constructor
  · intro hin
    obtain ⟨-, -, doc', hparse', hfacet⟩ := hmem.1 ⟨node.iri, ⟨htask, hin⟩, hnode⟩
    obtain rfl := ok.inj (hparse.symm.trans hparse')
    exact hfacet
  · intro hfacet
    obtain ⟨iri, ⟨-, hin⟩, hlookup⟩ := hmem.2 ⟨hnode, hkey, doc, hparse, hfacet⟩
    rwa [hkeyed iri node hlookup]

/-- **Exact answers after a call show that it settled what it wrote.** -/
theorem IndexExact.settles (h : IndexExact env s) (hputs : Puts env op.indexes s (op.docs env s) s')
    (hkeyed : ∀ iri node, s'.nodeCache.lookup iri = some node → node.iri = iri)
    (hexact : ∀ task filter, QueryExact env s' task filter) : op.Settles env s := by
  intro iri doc hlast hnamed
  obtain ⟨task, hkey⟩ := Option.ne_none_iff_exists'.1 hnamed
  have htask : s'.taskList task ≠ [] :=
    ne_nil_of_mem ((hputs.mem_tasks task iri).2 (.inr ⟨hkey, doc, mem_of_lastDoc hlast⟩))
  have hlisted : ∀ facet, iri ∈ s'.indexed task facet ↔ facet ∈ facets doc := fun facet =>
    (hexact task facet.filter).mem_indexed_iff hkeyed (hputs.hasDoc hlast) hkey htask
  refine ⟨fun old hold facet hfacet => ?_, ?_⟩
  · rw [← hlisted, hputs.mem_indexed]
    exact .inl ((h.mem_indexed task facet iri).2 ⟨hkey, old, hold, hfacet⟩)
  · split_ifs with hindexes
    · intro doc' hin facet hfacet
      rw [← hlisted, hputs.mem_indexed]
      exact .inr ⟨hindexes, hkey, doc', hin, hfacet⟩
    · intro facet hfacet
      rw [← hlisted, hputs.mem_indexed] at hfacet
      rcases hfacet with hin | ⟨hindexes', -⟩
      · exact ((h.mem_indexed task facet iri).1 hin).2
      · exact absurd hindexes' hindexes

/-! ### Runs -/

/-- A call writes its documents, or drops nodes. -/
theorem Op.IsNodeCall.puts_or (hcall : op.IsNodeCall) (hstep : op.step env s = some s') :
    Puts env op.indexes s (op.docs env s) s' ∨
      op.docs env s = [] ∧ ∀ links, Tracks links True s → IndexExact env s → IndexExact env s' := by
  cases op with
  | writeNode now nodeIri jsonLd =>
    cases hstep
    exact .inl (puts_writeNode s now nodeIri jsonLd)
  | writeNodeToGraph now nodeIri jsonLd graphName =>
    cases hstep
    exact .inl (puts_writeNodeToGraph s now nodeIri jsonLd graphName)
  | writeNodesBatch now nodes =>
    cases hstep
    exact .inl (puts_writeNodesBatch s now nodes)
  | writeBatchToGraphs now nodes =>
    cases hstep
    exact .inl (puts_writeBatchToGraphs s now nodes)
  | deleteNode nodeIri =>
    cases hstep
    exact .inr ⟨rfl, fun links _ h => h.deleteNode nodeIri⟩
  | evictNode nodeIri =>
    cases hstep
    exact .inr ⟨rfl, fun links _ h => h.evictNode nodeIri⟩
  | evictSubtree fuel taskIri => exact .inr ⟨rfl, fun links htracks h => h.evictSubtree htracks hstep⟩
  | _ => exact hcall.elim

theorem Op.IsNodeCall.not_isDiscard (h : op.IsNodeCall) : ¬op.IsDiscard := by
  cases op with
  | discardRecordedNodes recorded => exact h.elim
  | _ => exact id

/-- A call that does not end writes nothing. -/
theorem Op.IsNodeCall.docs_eq_nil (hcall : op.IsNodeCall) (hstep : op.step env s = none) : op.docs env s = [] := by
  cases op with
  | evictSubtree fuel taskIri => rfl
  | gcCompletedTasks fuel => exact hcall.elim
  | releaseSubtree fuel taskIri => exact hcall.elim
  | _ => cases hstep

theorem Op.settles_of_docs_eq_nil (h : op.docs env s = []) : op.Settles env s := by
  intro iri doc hlast
  rw [h] at hlast
  cases hlast

/-- **One call**: exact answers after it show that it settled what it wrote, and then the indexes stay exact. -/
theorem IndexExact.step (h : IndexExact env s) (htracks : Tracks links True s) (hcall : op.IsNodeCall)
    (hstep : op.step env s = some s') (hkeyed : ∀ iri node, s'.nodeCache.lookup iri = some node → node.iri = iri) :
    ((∀ task filter, QueryExact env s' task filter) → op.Settles env s) ∧ (op.Settles env s → IndexExact env s') := by
  rcases hcall.puts_or hstep with hputs | ⟨hdocs, hdrops⟩
  · exact ⟨h.settles hputs hkeyed, h.puts hputs⟩
  · exact ⟨fun _ => Op.settles_of_docs_eq_nil hdocs, fun _ => hdrops links htracks h⟩

section Runs

variable {store : Option String → String → List Value} {ops : List Op}

theorem tracks_of_run (hcalls : ∀ op ∈ ops, op.IsNodeCall) (hrun : run env (withStore store) ops = some s) :
    Tracks (registered ops) True s := by
  have h := (@Tracks.withStore (fun _ => []) True store).of_run hrun
  exact ⟨h.iri_eq, h.key_eq, h.linked, fun _ => h.kept ⟨trivial, fun op hop => (hcalls op hop).not_isDiscard⟩⟩

/-- If every call settles what it writes where the indexes are exact, they are exact all along. -/
theorem indexExact_of_run (hcalls : ∀ op ∈ ops, op.IsNodeCall)
    (hsettles : ∀ before op s s', before ++ [op] <+: ops → run env (withStore store) before = some s →
      op.step env s = some s' → IndexExact env s → op.Settles env s)
    {before : List Op} (hbefore : before <+: ops) (hrun : run env (withStore store) before = some s) :
    IndexExact env s := by
  induction before using reverseRecOn generalizing s with
  | nil =>
    cases hrun
    exact .withStore store
  | append_singleton before op ih =>
    have hin : ∀ op' ∈ before ++ [op], op'.IsNodeCall := fun op' h => hcalls op' (hbefore.subset h)
    have htracks' := tracks_of_run hin hrun
    rw [run_concat] at hrun
    obtain ⟨s₁, hrun₁, hstep⟩ := Option.bind_eq_some_iff.1 hrun
    have hexact := ih ((prefix_append before [op]).trans hbefore) hrun₁
    have htracks := tracks_of_run (fun op' h => hin op' (mem_append_left _ h)) hrun₁
    exact (hexact.step htracks (hin op mem_concat_self) hstep htracks'.iri_eq).2
      (hsettles before op s₁ s hbefore hrun₁ hstep hexact)

end Runs

/-! ### Another role -/

/-- A node is written with one role and then with another. -/
def reassigned : List Op :=
  [.writeNode 0 "iri://task/a/n" "\x7b\"role\":\"PA\"\x7d", .writeNode 1 "iri://task/a/n" "\x7b\"role\":\"DA\"\x7d"]

end WildAgentOs.Memory.Blackboard
