import Mathlib.Data.Set.Card
import WildAgentOs.Memory.ClosedTasks
import WildAgentOs.Memory.RdfMirror

/-!
# Tasks in scope

`tasks_in_scope` finds the records of a tenant and a project in the two task graphs, up to a bound, and takes the
cached node of each, whatever its document is by now.

* `listTaskSummaries`, `persistedTaskDocumentsInScope`, `tasksInScope`, `taskScope`, `ExactInScope`;
* `ScopesAgree`, `Op.KeepsScopes`, `exactInScope_of_run`.
-/

namespace WildAgentOs.Memory.Blackboard

open Json List Option Except AList

variable {env : BlackboardEnv} {s s' : Blackboard}

/-! ### The reads -/

structure TaskSummary where
  taskIri : String
  status : String
  nodeCount : ℕ
  parent : Option String
  children : ℕ
  deriving DecidableEq

def listTaskSummaries (s : Blackboard) : List TaskSummary :=
  ((s.taskNodes.keys ++ s.taskTree.keys).dedup.mergeSort fun a b => decide (a ≤ b)).map fun taskIri =>
    { taskIri
      status := ((s.taskTree.lookup taskIri).map TaskTreeNode.status).getD "unknown"
      nodeCount := ((s.taskNodes.lookup taskIri).map List.length).getD 0
      parent := (s.taskTree.lookup taskIri).bind TaskTreeNode.parent
      children := ((s.taskTree.lookup taskIri).map fun node => node.children.length).getD 0 }

def taskScopeReadBound : ℕ := 1024

/-- A task graph has this text for a member of a subject. -/
def holdsText (s : Blackboard) (iri key text : String) : Bool :=
  [taskRecordGraph, taskArchiveGraph].any fun graph =>
    (s.store (some graph) iri).any fun doc => decide (textMember doc key = some text)

def documentInScopeJson (env : BlackboardEnv) (jsonLd tenantId projectId : String) : Bool :=
  match env.fromStr jsonLd with
  | .ok doc => documentInScope doc tenantId projectId
  | .error _ => false

/-- `persisted_task_documents_in_scope`, over the subjects in the order in which the store has them. -/
def persistedTaskDocumentsInScope (env : BlackboardEnv) (subjects : List String) (s : Blackboard)
    (tenantId projectId : String) : List (String × Value) :=
  if tenantId = "" ∨ projectId = "" then []
  else
    let subjects := subjects.filter (s.holdsText · "tenant_id" tenantId)
    let matched := subjects.filterMap fun iri =>
      if s.holdsText iri "project_id" projectId then
        ((s.persistedTaskDocument env iri).filter (documentInScope · tenantId projectId)).map fun doc => (iri, doc)
      else none
    matched.take taskScopeReadBound

/-- The map that `tasks_in_scope` fills. -/
def tasksByIri (env : BlackboardEnv) (now : ℤ) (subjects : List String) (s : Blackboard)
    (tenantId projectId : String) : AList fun _ : String => Node :=
  let byIri := (persistedTaskDocumentsInScope env subjects s tenantId projectId).foldl (fun byIri item =>
    if documentInScope item.2 tenantId projectId then
      byIri.insert item.1 ((s.nodeCache.lookup item.1).getD (nodeFromDocument env now item.1 item.2))
    else byIri) ∅
  s.listTaskSummaries.foldl (fun byIri summary =>
    if summary.taskIri ∈ s.serverTaskIris then
      match s.nodeCache.lookup summary.taskIri with
      | some node =>
        if documentInScopeJson env node.jsonLd tenantId projectId then byIri.insert summary.taskIri node else byIri
      | none => byIri
    else byIri) byIri

def tasksInScope (env : BlackboardEnv) (now : ℤ) (subjects : List String) (s : Blackboard)
    (tenantId projectId : String) : List Node :=
  let tasks := ((tasksByIri env now subjects s tenantId projectId).entries.mergeSort
    fun a b => decide (a.1 ≤ b.1)).map Sigma.snd
  if taskScopeReadBound < tasks.length then
    (tasks.mergeSort fun left right => decide (right.createdAt ≤ left.createdAt)).take taskScopeReadBound
  else tasks

/-! ### Exact reads -/

/-- The tenant and the project of a task document. -/
def taskScope (doc : Value) : Option (String × String) := (documentScope doc).filter fun _ => isTaskDocument doc

/-- The server keeps a record of a task: in a task graph, or among the tasks that it lists. -/
def IsServerTask (env : BlackboardEnv) (s : Blackboard) (iri : String) : Prop :=
  s.persistedTaskDocument env iri ≠ none ∨ iri ∈ s.serverTaskIris ∧ iri ∈ s.listTaskSummaries.map TaskSummary.taskIri

/-- The node of a task: the cached one wins over the record. -/
def taskNode (env : BlackboardEnv) (now : ℤ) (s : Blackboard) (iri : String) : Option Node :=
  (s.nodeCache.lookup iri).or ((s.persistedTaskDocument env iri).map (nodeFromDocument env now iri))

/-- A node whose document is a task of the tenant and the project. -/
def InScope (env : BlackboardEnv) (tenantId projectId : String) (node : Node) : Prop :=
  ∃ doc, env.fromStr node.jsonLd = .ok doc ∧ taskScope doc = some (tenantId, projectId)

/-- The server tasks of a tenant and a project. -/
def scopeTasks (env : BlackboardEnv) (now : ℤ) (s : Blackboard) (tenantId projectId : String) : Set String :=
  {iri | IsServerTask env s iri ∧ ∃ node, taskNode env now s iri = some node ∧ InScope env tenantId projectId node}

/-- **A scoped read is exact**: what it returns is of the scope, it returns every server task of the scope if they are
within the bound, and else the ones that were created last. -/
structure ExactInScope (env : BlackboardEnv) (now : ℤ) (s : Blackboard) (tenantId projectId : String)
    (nodes : List Node) : Prop where
  sound : ∀ node ∈ nodes, InScope env tenantId projectId node
  complete : (scopeTasks env now s tenantId projectId).encard ≤ taskScopeReadBound →
    ∀ iri ∈ scopeTasks env now s tenantId projectId, ∃ node ∈ nodes, taskNode env now s iri = some node
  recent : (taskScopeReadBound : ℕ∞) < (scopeTasks env now s tenantId projectId).encard →
    nodes.length = taskScopeReadBound ∧
      (∀ node ∈ nodes, ∃ iri ∈ scopeTasks env now s tenantId projectId, taskNode env now s iri = some node) ∧
      ∀ iri ∈ scopeTasks env now s tenantId projectId, ∀ node, taskNode env now s iri = some node → node ∉ nodes →
        ∀ other ∈ nodes, node.createdAt ≤ other.createdAt

variable {doc : Value} {tenantId projectId : String}

theorem documentInScope_iff :
    documentInScope doc tenantId projectId = true ↔ taskScope doc = some (tenantId, projectId) := by
  unfold documentInScope taskScope
  simp only [Bool.and_eq_true, decide_eq_true_eq, filter_eq_some_iff]

theorem documentInScopeJson_iff {node : Node} :
    documentInScopeJson env node.jsonLd tenantId projectId = true ↔ InScope env tenantId projectId node := by
  unfold documentInScopeJson InScope
  cases env.fromStr node.jsonLd with
  | error e => simp
  | ok doc => simp [documentInScope_iff]

/-! ### The records of a task -/

/-- The records of a task, in both graphs. -/
def taskRecords (s : Blackboard) (iri : String) : List Value :=
  s.recordsIn taskRecordGraph iri ++ s.recordsIn taskArchiveGraph iri

variable {iri : String}

theorem mem_taskRecords {record : Value} : record ∈ s.taskRecords iri ↔ ∃ graph ∈ [taskRecordGraph, taskArchiveGraph],
      record ∈ s.store (some graph) iri ∧ isPersistentTaskRoot iri record = true := by
  unfold taskRecords recordsIn
  simp [mem_filter]

/-- `prefer_archive` gives one of the two. -/
theorem foldl_preferArchive (records : List Value) {best : Option Value}
    (h : records.foldl (fun best doc => some (preferArchive best doc)) best = some doc) :
    doc ∈ records ∨ best = some doc := by
  induction records generalizing best with
  | nil => exact .inr h
  | cons record records ih =>
    rcases ih h with hin | hbest
    · exact .inl (mem_cons_of_mem record hin)
    · have hprefer : preferArchive best record = doc := some.inj hbest
      unfold preferArchive at hprefer
      cases best with
      | none => exact .inl (hprefer ▸ mem_cons_self)
      | some current =>
        simp only at hprefer
        split_ifs at hprefer
        · exact .inr (congrArg some hprefer)
        · exact .inl (hprefer ▸ mem_cons_self)

theorem persistedTaskDocument_mem (h : s.persistedTaskDocument env iri = some doc) : doc ∈ s.taskRecords iri := by
  unfold persistedTaskDocument at h
  split_ifs at h with hnamed harchive
  · rcases foldl_preferArchive _ h with hin | hnone
    · simpa [taskRecords, or_comm] using hin
    · cases hnone
  · rcases foldl_preferArchive _ h with hin | hnone
    · simpa [taskRecords] using hin
    · cases hnone

/-! ### The scan -/

/-- The store lists every subject that has triples in a task graph, once. -/
structure Lists (s : Blackboard) (subjects : List String) : Prop where
  nodup : subjects.Nodup
  mem : ∀ graph ∈ [taskRecordGraph, taskArchiveGraph], ∀ iri, s.store (some graph) iri ≠ [] → iri ∈ subjects

/-- The records of a scope. -/
def scopeRecords (env : BlackboardEnv) (s : Blackboard) (tenantId projectId : String) : Set String :=
  {iri | ∃ doc, s.persistedTaskDocument env iri = some doc ∧ taskScope doc = some (tenantId, projectId)}

variable {now : ℤ} {subjects : List String} {tenantId projectId : String}

theorem taskScope_eq_some (h : taskScope doc = some (tenantId, projectId)) :
    textMember doc "tenant_id" = some tenantId ∧ textMember doc "project_id" = some projectId ∧
      tenantId ≠ "" ∧ projectId ≠ "" := by
  obtain ⟨hscope, -⟩ := filter_eq_some_iff.1 h
  unfold documentScope at hscope
  obtain ⟨tenant, htenant, hscope⟩ := bind_eq_some_iff.1 hscope
  obtain ⟨project, hproject, hscope⟩ := bind_eq_some_iff.1 hscope
  split_ifs at hscope with hempty
  cases hscope
  rw [not_or] at hempty
  exact ⟨htenant, hproject, hempty.1, hempty.2⟩

/-- What the scan matches, before it is cut. -/
def scopeMatches (env : BlackboardEnv) (subjects : List String) (s : Blackboard) (tenantId projectId : String) :
    List (String × Value) :=
  (subjects.filter (s.holdsText · "tenant_id" tenantId)).filterMap fun iri =>
    if s.holdsText iri "project_id" projectId then
      ((s.persistedTaskDocument env iri).filter (documentInScope · tenantId projectId)).map fun doc => (iri, doc)
    else none

theorem mem_scopeMatches : (iri, doc) ∈ scopeMatches env subjects s tenantId projectId →
    s.persistedTaskDocument env iri = some doc ∧ taskScope doc = some (tenantId, projectId) := by
  intro hin
  obtain ⟨iri', -, hmatch⟩ := mem_filterMap.1 hin
  split_ifs at hmatch
  obtain ⟨doc', hdoc, heq⟩ := map_eq_some_iff.1 hmatch
  cases heq
  obtain ⟨hpersisted, hscope⟩ := filter_eq_some_iff.1 hdoc
  exact ⟨hpersisted, documentInScope_iff.1 hscope⟩

theorem Lists.mem_scopeMatches (h : Lists s subjects) (hpersisted : s.persistedTaskDocument env iri = some doc)
    (hscope : taskScope doc = some (tenantId, projectId)) :
    (iri, doc) ∈ scopeMatches env subjects s tenantId projectId := by
  obtain ⟨graph, hgraph, hstored, -⟩ := mem_taskRecords.1 (persistedTaskDocument_mem hpersisted)
  obtain ⟨htenant, hproject, -, -⟩ := taskScope_eq_some hscope
  have hholds : ∀ {key text : String}, textMember doc key = some text → s.holdsText iri key text = true := by
    intro key text htext
    exact List.any_eq_true.2 ⟨graph, hgraph, List.any_eq_true.2 ⟨doc, hstored, decide_eq_true htext⟩⟩
  refine mem_filterMap.2 ⟨iri, mem_filter.2 ⟨?_, hholds htenant⟩, ?_⟩
  · exact h.mem graph hgraph iri (ne_nil_of_mem hstored)
  · rw [if_pos (hholds hproject), hpersisted, filter_some, documentInScope_iff.2 hscope]
    rfl

theorem Lists.nodup_scopeMatches (h : Lists s subjects) :
    ((scopeMatches env subjects s tenantId projectId).map Prod.fst).Nodup := by
  unfold scopeMatches
  rw [map_filterMap]
  refine (h.nodup.filter _).filterMap fun iri iri' found hfound hfound' => ?_
  have hfst : ∀ {iri : String}, found ∈ ((if s.holdsText iri "project_id" projectId then
      ((s.persistedTaskDocument env iri).filter (documentInScope · tenantId projectId)).map fun doc => (iri, doc)
      else none).map Prod.fst) → iri = found := by
    intro iri hmem
    obtain ⟨item, hitem, rfl⟩ := map_eq_some_iff.1 hmem
    split_ifs at hitem
    obtain ⟨doc, -, rfl⟩ := map_eq_some_iff.1 hitem
    rfl
  exact (hfst hfound).trans (hfst hfound').symm

theorem persistedTaskDocumentsInScope_subset : persistedTaskDocumentsInScope env subjects s tenantId projectId ⊆
      scopeMatches env subjects s tenantId projectId := by
  unfold persistedTaskDocumentsInScope
  split_ifs
  · exact nil_subset _
  · exact take_subset _ _

/-- **The scan finds every record of the scope, if they are within the bound.** -/
theorem Lists.mem_persistedTaskDocumentsInScope (h : Lists s subjects)
    (hbound : (scopeRecords env s tenantId projectId).encard ≤ taskScopeReadBound)
    (hpersisted : s.persistedTaskDocument env iri = some doc) (hscope : taskScope doc = some (tenantId, projectId)) :
    (iri, doc) ∈ persistedTaskDocumentsInScope env subjects s tenantId projectId := by
  obtain ⟨-, -, htenant, hproject⟩ := taskScope_eq_some hscope
  have hlength : (scopeMatches env subjects s tenantId projectId).length ≤ taskScopeReadBound := by
    have hsubset : (((scopeMatches env subjects s tenantId projectId).map Prod.fst).toFinset : Set String) ⊆
        scopeRecords env s tenantId projectId := by
      intro iri hin
      rw [coe_toFinset] at hin
      obtain ⟨item, hitem, rfl⟩ := List.mem_map.1 hin
      exact ⟨item.2, Blackboard.mem_scopeMatches hitem⟩
    have hcard := (Set.encard_le_encard hsubset).trans hbound
    rw [Set.encard_coe_eq_coe_finsetCard, toFinset_card_of_nodup h.nodup_scopeMatches, length_map] at hcard
    exact_mod_cast hcard
  have hall : persistedTaskDocumentsInScope env subjects s tenantId projectId =
      scopeMatches env subjects s tenantId projectId := by
    unfold persistedTaskDocumentsInScope
    rw [if_neg (by simp [htenant, hproject])]
    exact take_of_length_le hlength
  rw [hall]
  exact h.mem_scopeMatches hpersisted hscope

/-! ### The map -/

section Fold

variable {α β : Type*} {f : (AList fun _ : String => β) → α → AList fun _ : String => β}

variable {m : AList fun _ : String => β} {l : List α} {k : String} {b : β}

/-- What a map holds after steps that put in what satisfies a property. -/
theorem lookup_foldl {Q : String → β → Prop}
    (h : ∀ m, ∀ a ∈ l, ∀ k b, (f m a).lookup k = some b → m.lookup k = some b ∨ Q k b)
    (hlookup : (l.foldl f m).lookup k = some b) : m.lookup k = some b ∨ Q k b := by
  induction l generalizing m with
  | nil => exact .inl hlookup
  | cons a l ih =>
    rcases ih (fun m a ha => h m a (mem_cons_of_mem _ ha)) hlookup with hlater | hq
    · exact h m a mem_cons_self k b hlater
    · exact .inr hq

/-- Steps that keep every key. -/
theorem lookup_foldl_ne_none (h : ∀ m a k, m.lookup k ≠ none → (f m a).lookup k ≠ none)
    (hput : m.lookup k ≠ none ∨ ∃ a ∈ l, ∀ m, (f m a).lookup k ≠ none) : (l.foldl f m).lookup k ≠ none := by
  induction l generalizing m with
  | nil => exact hput.resolve_right fun ⟨a, ha, _⟩ => (nomatch ha)
  | cons a l ih =>
    refine ih ?_
    rcases hput with hthere | ⟨b, hb, hputs⟩
    · exact .inl (h m a k hthere)
    · rcases mem_cons.1 hb with rfl | hb
      · exact .inl (hputs m)
      · exact .inr ⟨b, hb, hputs⟩

variable {k k' : String}

theorem lookup_insert_ne_none (h : m.lookup k ≠ none) : (m.insert k' b).lookup k ≠ none := by
  by_cases hk : k = k'
  · rw [hk, lookup_insert]
    exact some_ne_none b
  · rwa [lookup_insert_ne hk]

theorem lookup_insert_eq_some {b b' : β} (h : (m.insert k' b').lookup k = some b) :
    m.lookup k = some b ∨ k = k' ∧ b = b' := by
  by_cases hk : k = k'
  · rw [hk, lookup_insert] at h
    exact .inr ⟨hk, (some.inj h).symm⟩
  · rw [lookup_insert_ne hk] at h
    exact .inl h

end Fold

/-- A task that is listed, cached, and among the server's. -/
def ListedInScope (env : BlackboardEnv) (s : Blackboard) (tenantId projectId iri : String) (node : Node) : Prop :=
  iri ∈ s.listTaskSummaries.map TaskSummary.taskIri ∧ iri ∈ s.serverTaskIris ∧ s.nodeCache.lookup iri = some node ∧
    InScope env tenantId projectId node

theorem lookup_tasksByIri {node : Node}
    (h : (tasksByIri env now subjects s tenantId projectId).lookup iri = some node) :
    (∃ doc, (iri, doc) ∈ persistedTaskDocumentsInScope env subjects s tenantId projectId ∧
        node = (s.nodeCache.lookup iri).getD (nodeFromDocument env now iri doc)) ∨
      ListedInScope env s tenantId projectId iri node := by
  unfold tasksByIri at h
  simp only at h
  have hhead := lookup_foldl (Q := ListedInScope env s tenantId projectId) ?_ h
  · rcases hhead with hscan | hlisted
    · refine .inl ?_
      have hrest := lookup_foldl (Q := fun iri node => ∃ doc,
        (iri, doc) ∈ persistedTaskDocumentsInScope env subjects s tenantId projectId ∧
          node = (s.nodeCache.lookup iri).getD (nodeFromDocument env now iri doc)) ?_ hscan
      · exact hrest.resolve_left fun hempty => (nomatch hempty)
      · intro m item hitem k b hk
        split_ifs at hk
        · rcases lookup_insert_eq_some hk with hold | ⟨rfl, rfl⟩
          · exact .inl hold
          · exact .inr ⟨item.2, hitem, rfl⟩
        · exact .inl hk
    · exact .inr hlisted
  · intro m summary hsummary k b hk
    split_ifs at hk with hserver
    · cases hnode : s.nodeCache.lookup summary.taskIri with
      | none =>
        rw [hnode] at hk
        exact .inl hk
      | some cached =>
        rw [hnode] at hk
        simp only at hk
        split_ifs at hk with hscope
        · rcases lookup_insert_eq_some hk with hold | ⟨rfl, rfl⟩
          · exact .inl hold
          · exact .inr ⟨List.mem_map_of_mem hsummary, hserver, hnode, documentInScopeJson_iff.1 hscope⟩
        · exact .inl hk
    · exact .inl hk

theorem tasksByIri_ne_none (h : (∃ doc, (iri, doc) ∈ persistedTaskDocumentsInScope env subjects s tenantId projectId) ∨
      ∃ node, ListedInScope env s tenantId projectId iri node) :
    (tasksByIri env now subjects s tenantId projectId).lookup iri ≠ none := by
  unfold tasksByIri
  simp only
  refine lookup_foldl_ne_none (fun m summary k hthere => ?_) ?_
  · split_ifs
    · split
      · split_ifs
        · exact lookup_insert_ne_none hthere
        · exact hthere
      · exact hthere
    · exact hthere
  rcases h with ⟨doc, hscan⟩ | ⟨node, hsummary, hserver, hnode, hscope⟩
  · refine .inl (lookup_foldl_ne_none (fun m item k hthere => ?_) (.inr ⟨(iri, doc), hscan, fun m => ?_⟩))
    · split_ifs
      · exact lookup_insert_ne_none hthere
      · exact hthere
    · have hscope := (mem_scopeMatches (persistedTaskDocumentsInScope_subset hscan)).2
      rw [if_pos (documentInScope_iff.2 hscope), lookup_insert]
      exact some_ne_none _
  · obtain ⟨summary, hin, rfl⟩ := List.mem_map.1 hsummary
    refine .inr ⟨summary, hin, fun m => ?_⟩
    simp only [hnode]
    rw [if_pos hserver, if_pos (documentInScopeJson_iff.2 hscope), lookup_insert]
    exact some_ne_none _

/-! ### Agreement -/

/-- **The cache agrees with the graph** on the scope of every task: a cached node has a document, of the scope of the
records of its IRI. -/
def ScopesAgree (env : BlackboardEnv) (s : Blackboard) : Prop :=
  ∀ iri node, s.nodeCache.lookup iri = some node → ∃ doc, env.fromStr node.jsonLd = .ok doc ∧
    ∀ record ∈ s.taskRecords iri, taskScope record = taskScope doc

/-- A record that is read back keeps its scope. -/
def ReadsBack (env : BlackboardEnv) (doc : Value) : Prop :=
  ∃ doc', env.fromStr (env.toString doc) = .ok doc' ∧ taskScope doc' = taskScope doc

/-- The scan reaches every record of the scope, or those that it may not reach are found without it. -/
def Reached (env : BlackboardEnv) (s : Blackboard) (tenantId projectId : String) : Prop :=
  (scopeRecords env s tenantId projectId).encard ≤ taskScopeReadBound ∨
    ∀ iri ∈ scopeRecords env s tenantId projectId, iri ∈ s.listTaskSummaries.map TaskSummary.taskIri ∧
      iri ∈ s.serverTaskIris ∧ s.nodeCache.lookup iri ≠ none

/-- The node of a record that is in the graph is of its scope. -/
theorem ScopesAgree.inScope_iff (h : ScopesAgree env s) {node : Node}
    (hreads : s.nodeCache.lookup iri = none → ReadsBack env doc)
    (hpersisted : s.persistedTaskDocument env iri = some doc)
    (hnode : node = (s.nodeCache.lookup iri).getD (nodeFromDocument env now iri doc)) :
    InScope env tenantId projectId node ↔ taskScope doc = some (tenantId, projectId) := by
  have hread : ∃ doc', env.fromStr node.jsonLd = .ok doc' ∧ taskScope doc' = taskScope doc := by
    cases hcached : s.nodeCache.lookup iri with
    | none =>
      rw [hcached] at hnode
      exact hnode ▸ hreads hcached
    | some cached =>
      rw [hcached] at hnode
      obtain rfl : node = cached := hnode
      obtain ⟨doc', hdoc', hrecords⟩ := h iri node hcached
      exact ⟨doc', hdoc', (hrecords doc (persistedTaskDocument_mem hpersisted)).symm⟩
  obtain ⟨doc', hdoc', heq⟩ := hread
  rw [← heq]
  constructor
  · rintro ⟨found, hfound, hscope⟩
    exact ok.inj (hfound.symm.trans hdoc') ▸ hscope
  · exact fun hscope => ⟨doc', hdoc', hscope⟩

theorem taskNode_of_persisted (h : s.persistedTaskDocument env iri = some doc) :
    taskNode env now s iri = some ((s.nodeCache.lookup iri).getD (nodeFromDocument env now iri doc)) := by
  unfold taskNode
  rw [h]
  cases s.nodeCache.lookup iri <;> rfl

/-- **The map holds the server tasks of the scope**, each with its node. -/
theorem ScopesAgree.lookup_tasksByIri_iff (h : ScopesAgree env s) (hlists : Lists s subjects)
    (hreads : ∀ iri doc, s.persistedTaskDocument env iri = some doc → s.nodeCache.lookup iri = none → ReadsBack env doc)
    (hreached : Reached env s tenantId projectId) {iri : String} {node : Node} :
    (tasksByIri env now subjects s tenantId projectId).lookup iri = some node ↔
      iri ∈ scopeTasks env now s tenantId projectId ∧ taskNode env now s iri = some node := by
  have hsound : ∀ {node}, (tasksByIri env now subjects s tenantId projectId).lookup iri = some node →
      iri ∈ scopeTasks env now s tenantId projectId ∧ taskNode env now s iri = some node := by
    intro node hlookup
    rcases lookup_tasksByIri hlookup with ⟨doc, hscan, hnode⟩ | ⟨hsummary, hserver, hcached, hscope⟩
    · obtain ⟨hpersisted, hscope⟩ := mem_scopeMatches (persistedTaskDocumentsInScope_subset hscan)
      have htask : taskNode env now s iri = some node := hnode ▸ taskNode_of_persisted hpersisted
      refine ⟨⟨.inl (hpersisted ▸ some_ne_none doc), node, htask, ?_⟩, htask⟩
      exact (h.inScope_iff (hreads iri doc hpersisted) hpersisted hnode).2 hscope
    · have htask : taskNode env now s iri = some node := by rw [taskNode, hcached, some_or]
      exact ⟨⟨.inr ⟨hserver, hsummary⟩, node, htask, hscope⟩, htask⟩
  refine ⟨hsound, ?_⟩
  rintro ⟨⟨hserver, node', hnode', hscope⟩, hnode⟩
  obtain rfl := some.inj (hnode'.symm.trans hnode)
  have hput : (tasksByIri env now subjects s tenantId projectId).lookup iri ≠ none := by
    refine tasksByIri_ne_none ?_
    cases hpersisted : s.persistedTaskDocument env iri with
    | some doc =>
      have heq := some.inj (hnode.symm.trans (taskNode_of_persisted hpersisted))
      have hrecord := (h.inScope_iff (hreads iri doc hpersisted) hpersisted heq).1 hscope
      rcases hreached with hbound | hfound
      · exact .inl ⟨doc, hlists.mem_persistedTaskDocumentsInScope hbound hpersisted hrecord⟩
      · obtain ⟨hsummary, hserver', hcached⟩ := hfound iri ⟨doc, hpersisted, hrecord⟩
        obtain ⟨cached, hcached⟩ := ne_none_iff_exists'.1 hcached
        rw [hcached] at heq
        obtain rfl : node' = cached := heq
        exact .inr ⟨node', hsummary, hserver', hcached, hscope⟩
    | none =>
      obtain ⟨hserver', hsummary⟩ := hserver.resolve_left fun hsome => hsome hpersisted
      rw [taskNode, hpersisted, map_none, or_none] at hnode
      exact .inr ⟨node', hsummary, hserver', hnode, hscope⟩
  obtain ⟨found, hfound⟩ := ne_none_iff_exists'.1 hput
  rw [hfound, ← (hsound hfound).2, hnode]

/-- **A scoped read is exact** where the cache agrees with the graph. -/
theorem ScopesAgree.exactInScope (h : ScopesAgree env s) (hlists : Lists s subjects)
    (hreads : ∀ iri doc, s.persistedTaskDocument env iri = some doc → s.nodeCache.lookup iri = none → ReadsBack env doc)
    (hreached : Reached env s tenantId projectId) :
    ExactInScope env now s tenantId projectId (tasksInScope env now subjects s tenantId projectId) := by
  have hlookup := @ScopesAgree.lookup_tasksByIri_iff env s now subjects tenantId projectId h hlists hreads hreached
  generalize hmap : tasksByIri env now subjects s tenantId projectId = byIri at hlookup
  generalize htasks : ((byIri.entries.mergeSort fun a b => decide (a.1 ≤ b.1)).map Sigma.snd : List Node) = tasks
  have hmem : ∀ {node}, node ∈ tasks ↔ ∃ iri ∈ scopeTasks env now s tenantId projectId,
      taskNode env now s iri = some node := by
    intro node
    simp only [← htasks, List.mem_map, mem_mergeSort]
    constructor
    · rintro ⟨⟨iri, node⟩, hentry, rfl⟩
      exact ⟨iri, hlookup.1 (mem_lookup_iff.2 hentry)⟩
    · rintro ⟨iri, hiri⟩
      exact ⟨⟨iri, node⟩, mem_lookup_iff.1 (hlookup.2 hiri), rfl⟩
  have hsound : ∀ node ∈ tasks, InScope env tenantId projectId node := by
    intro node hin
    obtain ⟨iri, ⟨-, node', hnode', hscope⟩, hnode⟩ := hmem.1 hin
    exact some.inj (hnode'.symm.trans hnode) ▸ hscope
  have hcard : (scopeTasks env now s tenantId projectId).encard = tasks.length := by
    have hkeys : scopeTasks env now s tenantId projectId = (byIri.keys.toFinset : Set String) := by
      ext iri
      rw [coe_toFinset, Set.mem_ofPred_eq, ← AList.mem_keys, ← lookup_isSome]
      constructor
      · intro hiri
        obtain ⟨node, hnode, -⟩ := hiri.2
        rw [hlookup.2 ⟨hiri, hnode⟩]
        rfl
      · intro hsome
        obtain ⟨node, hnode⟩ := isSome_iff_exists.1 hsome
        exact (hlookup.1 hnode).1
    rw [hkeys, Set.encard_coe_eq_coe_finsetCard, toFinset_card_of_nodup byIri.keys_nodup, ← htasks,
      length_map, length_mergeSort]
    exact congrArg _ (length_map _)
  have hresult : tasksInScope env now subjects s tenantId projectId =
      if taskScopeReadBound < tasks.length then
        (tasks.mergeSort fun left right => decide (right.createdAt ≤ left.createdAt)).take taskScopeReadBound
      else tasks := by
    rw [← htasks, ← hmap]
    rfl
  rw [hresult]
  split_ifs with hlong
  · have hsubset : ∀ node ∈ (tasks.mergeSort fun left right => decide (right.createdAt ≤ left.createdAt)).take
        taskScopeReadBound, node ∈ tasks := fun node hin => mem_mergeSort.1 (mem_of_mem_take hin)
    refine ⟨fun node hin => hsound node (hsubset node hin), fun hfew => ?_, fun _ => ⟨?_, ?_, ?_⟩⟩
    · rw [hcard] at hfew
      exact absurd hlong (not_lt.2 (by exact_mod_cast hfew))
    · rw [length_take, length_mergeSort, min_eq_left hlong.le]
    · exact fun node hin => hmem.1 (hsubset node hin)
    · intro iri hiri node hnode hout other hother
      exact KeyScan.le_of_mem_take_mergeSort hother (hmem.2 ⟨iri, hiri, hnode⟩) hout
  · refine ⟨hsound, fun _ iri hiri => ?_, fun hmany => ?_⟩
    · obtain ⟨node, hnode, -⟩ := hiri.2
      exact ⟨node, hmem.2 ⟨iri, hiri, hnode⟩, hnode⟩
    · rw [hcard] at hmany
      exact absurd (by exact_mod_cast hmany) hlong

/-! ### Calls -/

/-- The calls other than those that read a task into the cache. -/
def Op.IsScopeCall : Op → Prop
  | .readNode _ _ | .rememberTaskDocument _ _ _ => False
  | _ => True

/-- The store takes a sync. -/
def syncTaken (env : BlackboardEnv) (item : Option String × String × Value) : Bool :=
  hasTriples item.2.1 item.2.2 && (env.update item.1 item.2.1 item.2.2).isOk

/-- The nodes of a batch, none if it is refused. -/
def batchItems (env : BlackboardEnv) (s : Blackboard) (nodes : List (String × String × Option String)) :
    List (Option String × String × Value) :=
  match checkBatch env 0 nodes with
  | .error _ => []
  | .ok validated =>
    match s.syncBatch env validated with
    | .error _ => []
    | .ok _ => validated.map fun item => (item.2.2.2, item.1, item.2.2.1)

/-- What a write itself puts into the named graphs. -/
def Op.synced (env : BlackboardEnv) (s : Blackboard) (op : Op) : List (Option String × String × Value) :=
  match op with
  | .writeNode _ _ _ => (((op.docs env s).filter fun item =>
      isPersistentTaskRoot item.1 item.2 && isSparqlSubject env item.1).map fun item =>
        (some taskRecordGraph, item)).filter (syncTaken env)
  | .writeNodeToGraph _ _ _ graphName =>
    if env.testMode then ((op.docs env s).map fun item => (some graphName, item)).filter (syncTaken env) else []
  | .writeBatchToGraphs _ nodes =>
    (batchItems env s (nodes.map fun node => (node.1, node.2.1, some node.2.2))).filter fun item =>
      hasTriples item.2.1 item.2.2
  | _ => []

/-- What a named graph has of a subject once syncs are done. -/
def syncedStore (s : Blackboard) (synced : List (Option String × String × Value)) (graph : Option String)
    (iri : String) : List Value :=
  let docs := (synced.filter fun item => decide (item.1 = graph ∧ item.2.1 = iri)).map fun item => item.2.2
  if docs = [] then s.store graph iri else docs

/-- A sync that is under way into a task graph is of the scope of the cached document. -/
def SyncAgrees (env : BlackboardEnv) (s : Blackboard) (pending : PendingSync) : Prop :=
  pending.graph ∈ taskGraphs → isPersistentTaskRoot pending.nodeIri pending.doc = true →
    ∀ doc, HasDoc env s pending.nodeIri doc → taskScope pending.doc = taskScope doc

/-- **A call keeps the scopes of tasks**: the document that a write leaves of a task is of the scope of the records
that are in the graphs then, a thread syncs none of another scope, and an archive is read back. -/
def Op.KeepsScopes (env : BlackboardEnv) (s : Blackboard) (op : Op) : Prop :=
  match op with
  | .archiveCompletedTask now iri => ∀ node doc, s.nodeCache.lookup iri = some node →
      env.fromStr node.jsonLd = .ok doc → ReadsBack env (archivedDocument env now iri doc)
  | .runSync i => ∀ pending, s.pendingSyncs[i]? = some pending → SyncAgrees env s pending
  | .flushOxigraph _ => ∀ pending ∈ s.pendingSyncs, SyncAgrees env s pending
  | _ => ∀ iri doc, lastDoc (op.docs env s) iri = some doc → ∀ graph ∈ taskGraphs,
      ∀ record ∈ s.syncedStore (op.synced env s) graph iri, isPersistentTaskRoot iri record = true →
        taskScope record = taskScope doc

/-! ### Calls that write nothing -/

/-- Texts and triples are kept or dropped. -/
structure Shrinks (s s' : Blackboard) : Prop where
  cache : ∀ iri node', s'.nodeCache.lookup iri = some node' →
    ∃ node, s.nodeCache.lookup iri = some node ∧ node.jsonLd = node'.jsonLd
  store : ∀ graph iri, s'.store graph iri ⊆ s.store graph iri

theorem Shrinks.of_eq (hcache : s'.nodeCache = s.nodeCache) (hstore : s'.store = s.store) : Shrinks s s' :=
  ⟨fun _ node' h => ⟨node', hcache ▸ h, rfl⟩, fun _ _ => hstore ▸ List.Subset.refl _⟩

theorem Shrinks.refl (s : Blackboard) : Shrinks s s := .of_eq rfl rfl

variable {s₁ s₂ s₃ : Blackboard}

theorem Shrinks.trans (h : Shrinks s₁ s₂) (h' : Shrinks s₂ s₃) : Shrinks s₁ s₃ where
  cache iri node₃ hnode₃ := by
    obtain ⟨node₂, hnode₂, heq₂⟩ := h'.cache iri node₃ hnode₃
    obtain ⟨node₁, hnode₁, heq₁⟩ := h.cache iri node₂ hnode₂
    exact ⟨node₁, hnode₁, heq₁.trans heq₂⟩
  store graph iri := List.Subset.trans (h'.store graph iri) (h.store graph iri)

variable {α : Type*}

theorem Shrinks.foldl {f : Blackboard → α → Blackboard} (h : ∀ s a, Shrinks s (f s a))
    (l : List α) (s : Blackboard) : Shrinks s (l.foldl f s) := by
  induction l generalizing s with
  | nil => exact .refl s
  | cons a l ih => exact (h s a).trans (ih (f s a))

theorem Evicts.shrinks (h : Evicts s s') : Shrinks s s' where
  cache iri node' hnode' := by
    rcases h.cache iri with heq | hnone
    · exact ⟨node', heq ▸ hnode', rfl⟩
    · cases hnone.symm.trans hnode'
  store graph iri := h.store ▸ List.Subset.refl _

theorem shrinks_dropStore (s : Blackboard) (graph : Option String) (iri : String) :
    Shrinks s (s.dropStore env graph iri) where
  cache iri' node' hnode' := by
    obtain ⟨_, _, _, heq⟩ := @syncs_dropStore env s graph iri
    rw [heq] at hnode'
    exact ⟨node', hnode', rfl⟩
  store graph' iri' := by
    rw [dropStore_store]
    split_ifs
    · exact nil_subset _
    · exact List.Subset.refl _

theorem shrinks_deleteNode (s : Blackboard) (iri : String) : Shrinks s (s.deleteNode env iri) where
  cache iri' node' hnode' := by
    rw [(drops_deleteNode s iri).lookup] at hnode'
    split_ifs at hnode'
    exact ⟨node', hnode', rfl⟩
  store graph iri' := by
    unfold deleteNode
    cases hnode : s.nodeCache.lookup iri with
    | none => exact List.Subset.refl _
    | some node =>
      simp only [unindexNode_store]
      unfold dropTriples
      simp only
      have hfirst := @shrinks_dropStore env { s with nodeCache := s.nodeCache.erase iri } node.namedGraph iri
      split_ifs
      · exact ((hfirst.trans (shrinks_dropStore _ _ _)).trans (shrinks_dropStore _ _ _)).store graph iri'
      · exact hfirst.store graph iri'

theorem shrinks_releaseSubtree {fuel : ℕ} {root : String} (h : s.releaseSubtree env fuel root = some s') :
    Shrinks s s' := by
  obtain ⟨tasks, -, h⟩ := bind_eq_some_iff.1 h
  cases h
  have hall := Shrinks.foldl (@shrinks_deleteNode env) (tasks.flatMap s.nodesOf) s
  exact ⟨hall.cache, hall.store⟩

theorem shrinks_insert {node node' : Node} (hnode : s.nodeCache.lookup iri = some node)
    (heq : node.jsonLd = node'.jsonLd) : Shrinks s { s with nodeCache := s.nodeCache.insert iri node' } where
  cache iri' found hfound := by
    rcases lookup_insert_eq_some hfound with hold | ⟨rfl, rfl⟩
    · exact ⟨found, hold, rfl⟩
    · exact ⟨node, hnode, heq⟩
  store _ _ := List.Subset.refl _

theorem shrinks_flushNodes (l0env : L0Env) (now : ℤ) (s : Blackboard) (l0 : L0Store) (iris : List String) :
    Shrinks s (s.flushNodes l0env now l0 iris).1.1 :=
  flushNodes_rel .refl .trans (fun hnode => shrinks_insert hnode rfl) l0env now s l0 iris

theorem ScopesAgree.shrinks (h : ScopesAgree env s) (hshrinks : Shrinks s s') : ScopesAgree env s' := by
  intro iri node' hnode'
  obtain ⟨node, hnode, heq⟩ := hshrinks.cache iri node' hnode'
  obtain ⟨doc, hdoc, hrecords⟩ := h iri node hnode
  refine ⟨doc, heq ▸ hdoc, fun record hrecord => hrecords record ?_⟩
  obtain ⟨graph, hgraph, hstored, hroot⟩ := mem_taskRecords.1 hrecord
  exact mem_taskRecords.2 ⟨graph, hgraph, hshrinks.store _ _ hstored, hroot⟩

/-! ### Threads -/

/-- The graphs have the triples of one document more. -/
def Adds (iri : String) (doc : Value) (s s' : Blackboard) : Prop :=
  ∀ graph iri', ∀ record ∈ s'.store graph iri', record ∈ s.store graph iri' ∨ iri' = iri ∧ record = doc

theorem Adds.refl (iri : String) (doc : Value) (s : Blackboard) : Adds iri doc s s := fun _ _ _ h => .inl h

theorem Adds.trans (h : Adds iri doc s₁ s₂) (h' : Adds iri doc s₂ s₃) :
    Adds iri doc s₁ s₃ := fun graph iri' record hin =>
  (h' graph iri' record hin).elim (h graph iri' record) .inr

variable {graph : Option String}

theorem adds_sync (h : s.sync env graph iri doc = .ok s') : Adds iri doc s s' := by
  unfold sync at h
  split_ifs at h
  · cases hupdate : env.update graph iri doc with
    | error e => simp [hupdate] at h
    | ok =>
      simp only [hupdate, ok.injEq] at h
      subst h
      intro graph' iri' record hin
      rw [setStore_store] at hin
      split_ifs at hin with heq
      · exact .inr ⟨heq.2, mem_singleton.1 hin⟩
      · exact .inl hin
  · cases h
    exact .refl iri doc s

theorem adds_syncNamedTaskGraph {graph : String} (h : s.syncNamedTaskGraph env graph iri doc = .ok s') :
    Adds iri doc s s' := by
  unfold syncNamedTaskGraph at h
  split_ifs at h
  exact adds_sync h

theorem adds_persistServerTaskRecord (h : s.persistServerTaskRecord env iri doc = .ok s') : Adds iri doc s s' := by
  unfold persistServerTaskRecord at h
  split_ifs at h
  · obtain ⟨s₁, hsync, h⟩ := bind_eq_ok_iff.1 h
    cases h
    have hadds := adds_syncNamedTaskGraph hsync
    exact hadds
  · cases h
    exact .refl iri doc s

/-- A document of the scope of the cached one. -/
theorem ScopesAgree.adds (h : ScopesAgree env s) (hcache : s'.nodeCache = s.nodeCache) (hadds : Adds iri doc s s')
    (hscope : ∀ cached, HasDoc env s iri cached → taskScope doc = taskScope cached) : ScopesAgree env s' := by
  intro iri' node hnode
  rw [hcache] at hnode
  obtain ⟨cached, hcached, hrecords⟩ := h iri' node hnode
  refine ⟨cached, hcached, fun record hrecord => ?_⟩
  obtain ⟨graph, hgraph, hstored, hroot⟩ := mem_taskRecords.1 hrecord
  rcases hadds (some graph) iri' record hstored with hold | ⟨rfl, rfl⟩
  · exact hrecords record (mem_taskRecords.2 ⟨graph, hgraph, hold, hroot⟩)
  · exact hscope cached ⟨node, hnode, hcached⟩

theorem ScopesAgree.runSync (h : ScopesAgree env s) {i : ℕ}
    (hagrees : ∀ pending, s.pendingSyncs[i]? = some pending → SyncAgrees env s pending) :
    ScopesAgree env (s.runSync env i) := by
  have hcache : (s.runSync env i).nodeCache = s.nodeCache := by
    obtain ⟨_, _, _, heq⟩ := @syncs_runSync env s i
    rw [heq]
  cases hpending : s.pendingSyncs[i]? with
  | none => rwa [runSync_of_none hpending]
  | some pending =>
    obtain ⟨-, hother, hbare, htaken⟩ := @runSync_of_pending env s i pending hpending
    -- The graph has the document of the thread, or what it had.
    have hadds : ∀ graph iri, ∀ record ∈ (s.runSync env i).store graph iri, record ∈ s.store graph iri ∨
        graph = pending.graph ∧ iri = pending.nodeIri ∧ record = pending.doc := by
      intro graph iri record hin
      by_cases heq : graph = pending.graph ∧ iri = pending.nodeIri
      · obtain ⟨rfl, rfl⟩ := heq
        by_cases htriples : hasTriples pending.nodeIri pending.doc = true
        · cases hupdate : env.update pending.graph pending.nodeIri pending.doc with
          | ok =>
            rw [htaken htriples hupdate] at hin
            exact .inr ⟨rfl, rfl, mem_singleton.1 hin⟩
          | error e =>
            refine .inl ?_
            simpa [Blackboard.runSync, hpending, sync, htriples, hupdate] using hin
        · rw [hbare (Bool.not_eq_true _ ▸ htriples)] at hin
          exact .inl hin
      · rw [hother graph iri heq] at hin
        exact .inl hin
    intro iri node hnode
    rw [hcache] at hnode
    obtain ⟨cached, hcached, hrecords⟩ := h iri node hnode
    refine ⟨cached, hcached, fun record hrecord => ?_⟩
    obtain ⟨graph, hgraph, hstored, hroot⟩ := mem_taskRecords.1 hrecord
    rcases hadds (some graph) iri record hstored with hold | ⟨heq, rfl, rfl⟩
    · exact hrecords record (mem_taskRecords.2 ⟨graph, hgraph, hold, hroot⟩)
    · have hin : pending.graph ∈ taskGraphs := heq ▸ List.mem_map_of_mem hgraph
      exact hagrees pending hpending hin hroot cached ⟨node, hnode, hcached⟩

theorem ScopesAgree.flushOxigraph (h : ScopesAgree env s) (order : List ℕ)
    (hagrees : ∀ pending ∈ s.pendingSyncs, SyncAgrees env s pending) : ScopesAgree env (s.flushOxigraph env order) := by
  have hfold : ∀ (order : List ℕ) (s : Blackboard), ScopesAgree env s ∧ (∀ pending ∈ s.pendingSyncs, SyncAgrees env s pending) →
      ScopesAgree env (order.foldl (Blackboard.runSync env) s) ∧
        ∀ pending ∈ (order.foldl (Blackboard.runSync env) s).pendingSyncs,
          SyncAgrees env (order.foldl (Blackboard.runSync env) s) pending := by
    intro order
    induction order with
    | nil => exact fun s h => h
    | cons i order ih =>
      intro s ⟨h, hagrees⟩
      refine ih _ ⟨h.runSync fun pending hpending => hagrees pending (mem_of_getElem? hpending), ?_⟩
      intro pending hin
      rw [pendingSyncs_runSync] at hin
      have hsync := hagrees pending ((eraseIdx_sublist s.pendingSyncs i).subset hin)
      unfold SyncAgrees HasDoc at hsync ⊢
      obtain ⟨_, _, _, heq⟩ := @syncs_runSync env s i
      rwa [heq]
  have hfirst := hfold order s ⟨h, hagrees⟩
  exact (hfold _ _ hfirst).1

/-! ### The archive -/

variable {value : Value}

theorem get_setMember_of_ne {key key' : String} (hne : key' ≠ key) :
    (setMember doc key value).get key' = doc.get key' := by
  cases doc with
  | object members =>
    obtain ⟨members', heq, hlookup⟩ := @get_setMember members key key' value
    rw [heq]
    unfold Value.get Value.asObject
    simpa [hne] using hlookup
  | _ => rfl

theorem taskScope_congr {doc' : Value} (h : ∀ key ∈ ["@type", "tenant_id", "project_id"], doc'.get key = doc.get key) :
    taskScope doc' = taskScope doc := by
  simp only [forall_mem_cons, not_mem_nil, false_implies, implies_true, and_true] at h
  obtain ⟨htype, htenant, hproject⟩ := h
  simp only [taskScope, documentScope, textMember, isTaskDocument, htype, htenant, hproject]

theorem taskScope_setMember {key : String} (h : key ∉ ["@type", "tenant_id", "project_id"]) :
    taskScope (setMember doc key value) = taskScope doc :=
  taskScope_congr fun _ hin => get_setMember_of_ne fun heq => h (heq ▸ hin)

/-- An archive is of the scope of its record. -/
theorem taskScope_archivedDocument (now : ℤ) (iri : String) (doc : Value) :
    taskScope (archivedDocument env now iri doc) = taskScope doc := by
  unfold archivedDocument
  simp only
  split_ifs <;> simp only [taskScope_setMember (show "@id" ∉ _ by decide), taskScope_setMember
    (show "archived_at" ∉ _ by decide), taskScope_setMember (show "read_only" ∉ _ by decide), taskScope_setMember
      (show "status" ∉ _ by decide)]

theorem adds_archiveCompletedTask (s : Blackboard) (now : ℤ) (iri : String) :
    (s.archiveCompletedTask env now iri).1 = s ∨ ∃ node doc, s.nodeCache.lookup iri = some node ∧
      env.fromStr node.jsonLd = .ok doc ∧
        Adds iri (archivedDocument env now iri doc) s (s.archiveCompletedTask env now iri).1 := by
  unfold archiveCompletedTask
  cases hnode : s.nodeCache.lookup iri with
  | none => exact .inl rfl
  | some node =>
    simp only
    cases hdoc : env.fromStr node.jsonLd with
    | error e => exact .inl rfl
    | ok doc =>
      simp only
      split_ifs
      · exact .inl rfl
      · exact .inl rfl
      cases hdefault : s.sync env none iri (archivedDocument env now iri doc) with
      | error e => exact .inl rfl
      | ok s₁ =>
        refine .inr ⟨node, doc, rfl, hdoc, ?_⟩
        simp only
        have h₁ := adds_sync hdefault
        cases hpersist : s₁.persistServerTaskRecord env iri (archivedDocument env now iri doc) with
        | error e => exact h₁
        | ok s₂ =>
          simp only
          have h₂ := h₁.trans (adds_persistServerTaskRecord hpersist)
          cases harchive : s₂.syncNamedTaskGraph env taskArchiveGraph iri (archivedDocument env now iri doc) with
          | error e => exact h₂
          | ok s₃ =>
            have h₃ := h₂.trans (adds_syncNamedTaskGraph harchive)
            simp only
            split <;> exact h₃

theorem ScopesAgree.archiveCompletedTask (h : ScopesAgree env s) {now : ℤ}
    (hreads : ∀ node doc, s.nodeCache.lookup iri = some node → env.fromStr node.jsonLd = .ok doc →
      ReadsBack env (archivedDocument env now iri doc)) :
    ScopesAgree env (s.archiveCompletedTask env now iri).1 := by
  rcases @adds_archiveCompletedTask env s now iri with hsame | ⟨node, doc, hnode, hdoc, hadds⟩
  · rwa [hsame]
  have hscope : ∀ cached, HasDoc env s iri cached → taskScope (archivedDocument env now iri doc) = taskScope cached := by
    intro cached hcached
    rw [taskScope_archivedDocument, hcached.unique ⟨node, hnode, hdoc⟩]
  have hcase := @archivesText_archiveCompletedTask env s now iri
  generalize (s.archiveCompletedTask env now iri).1 = s' at hadds hcase
  cases hcase with
  | finds_none heq => rwa [heq]
  | fails hsyncs hcached => exact h.adds hsyncs.cache hadds hscope
  | @replaces s₁ cached node' found hsyncs hcached hfound htask heq htext =>
    obtain rfl := some.inj (hnode.symm.trans hcached)
    obtain rfl := ok.inj (hdoc.symm.trans hfound)
    subst heq
    have h₁ : ScopesAgree env s₁ := h.adds hsyncs.cache hadds hscope
    intro iri' found hfound'
    rcases lookup_insert_eq_some hfound' with hold | ⟨rfl, rfl⟩
    · exact h₁ iri' found hold
    · obtain ⟨doc', hdoc', hkeeps⟩ := hreads node doc hnode hdoc
      obtain ⟨cached', hcached', hrecords⟩ := h₁ iri' node (hsyncs.cache ▸ hnode)
      refine ⟨doc', htext ▸ hdoc', fun record hrecord => ?_⟩
      rw [hrecords record hrecord, hkeeps]
      exact (hscope cached' ⟨node, hnode, hcached'⟩).symm

/-! ### Writes -/

theorem trackIndexed_store (s : Blackboard) (iri : String) (doc : Value) :
    (s.trackIndexed iri doc).store = s.store := by
  unfold trackIndexed
  cases extractTaskIri iri <;> rfl

/-- A sync, as the store has it after. -/
theorem sync_store (h : s.sync env graph iri doc = .ok s') (graph' : Option String) (iri' : String) :
    s'.store graph' iri' =
      s.syncedStore (if syncTaken env (graph, iri, doc) then [(graph, iri, doc)] else []) graph' iri' := by
  unfold syncTaken syncedStore
  unfold sync at h
  split_ifs at h with htriples
  · cases hupdate : env.update graph iri doc with
    | error e => simp [hupdate] at h
    | ok =>
      simp only [hupdate, ok.injEq] at h
      subst h
      rw [setStore_store]
      by_cases heq : graph' = graph ∧ iri' = iri
      · obtain ⟨rfl, rfl⟩ := heq
        simp [htriples, Except.isOk, Except.toBool]
      · rw [if_neg heq]
        have hne : ¬(graph = graph' ∧ iri = iri') := fun h => heq ⟨h.1.symm, h.2.symm⟩
        simp [htriples, Except.isOk, Except.toBool, hne]
  · cases h
    simp [htriples]

theorem sync_store_of_error {e : BlackboardError} (h : s.sync env graph iri doc = .error e) :
    syncTaken env (graph, iri, doc) = false := by
  unfold sync at h
  unfold syncTaken
  split_ifs at h
  cases hupdate : env.update graph iri doc with
  | error e => simp [Except.isOk, Except.toBool]
  | ok => simp [hupdate] at h

variable {synced : List (Option String × String × Value)}

theorem syncedStore_other
    (h : ∀ item ∈ synced, ¬(item.1 = graph ∧ item.2.1 = iri)) : s.syncedStore synced graph iri = s.store graph iri := by
  unfold syncedStore
  rw [filter_eq_nil_iff.2 fun item hitem => by simpa using h item hitem]
  rfl

theorem writeSync_store (s : Blackboard) (graph graph' : Option String) (iri iri' : String) (doc : Value) :
    (s.writeSync env graph iri doc).store graph' iri' = s.syncedStore
      (if env.testMode = true ∧ syncTaken env (graph, iri, doc) = true then [(graph, iri, doc)] else []) graph' iri' := by
  unfold writeSync
  by_cases htest : env.testMode = true
  · rw [if_pos htest]
    cases hsync : s.sync env graph iri doc with
    | error e =>
      simp only [sync_store_of_error hsync, Bool.false_eq_true, and_false, if_false]
      exact (syncedStore_other fun item hitem => absurd hitem not_mem_nil).symm
    | ok s' =>
      simp only [htest, true_and]
      exact sync_store hsync graph' iri'
  · rw [if_neg htest, if_neg fun h => htest h.1]
    exact (syncedStore_other fun item hitem => absurd hitem not_mem_nil).symm

/-- A batch that is taken, as the store has it after. -/
theorem syncBatch_store {validated : List (String × String × Value × Option String)}
    (h : s.syncBatch env validated = .ok s') (graph : Option String) (iri : String) : s'.store graph iri =
      s.syncedStore ((validated.map fun item => (item.2.2.2, item.1, item.2.2.1)).filter fun item =>
        hasTriples item.2.1 item.2.2) graph iri := by
  unfold syncBatch at h
  obtain ⟨-, -, h⟩ := bind_eq_ok_iff.1 h
  cases h
  unfold syncedStore
  rw [List.filter_map, List.filter_map, List.filter_filter, List.map_map]
  generalize hitems : validated.filter (fun item => hasTriples item.1 item.2.2.1) = items
  have hsplit : validated.filter (fun item =>
      ((fun item : Option String × String × Value => decide (item.1 = graph ∧ item.2.1 = iri)) ∘
        fun item => (item.2.2.2, item.1, item.2.2.1)) item &&
      ((fun item : Option String × String × Value => hasTriples item.2.1 item.2.2) ∘
        fun item => (item.2.2.2, item.1, item.2.2.1)) item) =
      items.filter fun item => decide (item.2.2.2 = graph ∧ item.1 = iri) := by
    rw [← hitems, List.filter_filter]
    rfl
  rw [hsplit]
  have hcleared : ∀ (items : List (String × String × Value × Option String)) (s : Blackboard),
      (items.foldl (fun s item => s.setStore item.2.2.2 item.1 []) s).store graph iri =
        if items.filter (fun item => decide (item.2.2.2 = graph ∧ item.1 = iri)) = [] then s.store graph iri else [] := by
    intro items
    induction items with
    | nil => exact fun s => rfl
    | cons item items ih =>
      intro s
      rw [foldl_cons, ih, setStore_store, filter_cons]
      by_cases heq : item.2.2.2 = graph ∧ item.1 = iri
      · obtain ⟨rfl, rfl⟩ := heq
        simp
      · have hother : ¬(graph = item.2.2.2 ∧ iri = item.1) := fun h => heq ⟨h.1.symm, h.2.symm⟩
        simp only [decide_eq_false heq, hother, Bool.false_eq_true, if_false]
  have happended : ∀ (items : List (String × String × Value × Option String)) (s : Blackboard),
      (items.foldl (fun s item => s.setStore item.2.2.2 item.1 (s.store item.2.2.2 item.1 ++ [item.2.2.1])) s).store
        graph iri = s.store graph iri ++
          (items.filter fun item => decide (item.2.2.2 = graph ∧ item.1 = iri)).map fun item => item.2.2.1 := by
    intro items
    induction items with
    | nil => exact fun s => (append_nil _).symm
    | cons item items ih =>
      intro s
      rw [foldl_cons, ih, setStore_store, filter_cons]
      by_cases heq : item.2.2.2 = graph ∧ item.1 = iri
      · obtain ⟨rfl, rfl⟩ := heq
        simp
      · have hother : ¬(graph = item.2.2.2 ∧ iri = item.1) := fun h => heq ⟨h.1.symm, h.2.symm⟩
        simp only [decide_eq_false heq, hother, Bool.false_eq_true, if_false]
  rw [happended, hcleared]
  generalize hmatched : items.filter (fun item => decide (item.2.2.2 = graph ∧ item.1 = iri)) = matched
  cases matched with
  | nil => simp
  | cons item matched => simp

def Op.IsWrite : Op → Prop
  | .writeNode _ _ _ | .writeNodeToGraph _ _ _ _ | .writeNodesBatch _ _ | .writeBatchToGraphs _ _ => True
  | _ => False

variable {op : Op}

theorem Op.IsWrite.puts (h : op.IsWrite) (hstep : op.step env s = some s') :
    Puts env op.indexes s (op.docs env s) s' := by
  cases op with
  | writeNode now nodeIri jsonLd => exact some.inj hstep ▸ puts_writeNode s now nodeIri jsonLd
  | writeNodeToGraph now nodeIri jsonLd graphName =>
    exact some.inj hstep ▸ puts_writeNodeToGraph s now nodeIri jsonLd graphName
  | writeNodesBatch now nodes => exact some.inj hstep ▸ puts_writeNodesBatch s now nodes
  | writeBatchToGraphs now nodes => exact some.inj hstep ▸ puts_writeBatchToGraphs s now nodes
  | _ => exact h.elim

theorem mem_docs_of_mem_synced {item : Option String × String × Value} (h : item ∈ op.synced env s) :
    item.2 ∈ op.docs env s := by
  cases op with
  | writeNode now nodeIri jsonLd =>
    obtain ⟨doc, hdoc, rfl⟩ := List.mem_map.1 (mem_filter.1 h).1
    exact (mem_filter.1 hdoc).1
  | writeNodeToGraph now nodeIri jsonLd graphName =>
    unfold Op.synced at h
    split_ifs at h
    · obtain ⟨doc, hdoc, rfl⟩ := List.mem_map.1 (mem_filter.1 h).1
      exact hdoc
    · cases h
  | writeBatchToGraphs now nodes =>
    have hitem := (mem_filter.1 h).1
    unfold batchItems at hitem
    unfold Op.docs batchDocs
    cases hcheck : checkBatch env 0 (nodes.map fun node => (node.1, node.2.1, some node.2.2)) with
    | error e => simp [hcheck] at hitem
    | ok validated =>
      simp only [hcheck] at hitem ⊢
      cases hsync : s.syncBatch env validated with
      | error e => simp [hsync] at hitem
      | ok s₁ =>
        simp only [hsync] at hitem ⊢
        obtain ⟨found, hfound, rfl⟩ := List.mem_map.1 hitem
        exact List.mem_map_of_mem hfound
  | _ => cases h

theorem syncedStore_nil (s : Blackboard) (graph : Option String) (iri : String) :
    s.syncedStore [] graph iri = s.store graph iri := rfl

theorem syncedStore_congr (h : s'.store graph iri = s.store graph iri) :
    s'.syncedStore synced graph iri = s.syncedStore synced graph iri := by
  unfold syncedStore
  simp only [h]

theorem writeNode_store (s : Blackboard) (now : ℤ) (nodeIri jsonLd : String) (hgraph : graph ≠ none) (iri : String) :
    (s.writeNode env now nodeIri jsonLd).1.store graph iri =
      s.syncedStore (Op.synced env s (.writeNode now nodeIri jsonLd)) graph iri := by
  rw [Op.synced, Op.docs, writeNode]
  cases hcheck : checkDocument env jsonLd "JSON parse error: " with
  | error e => rfl
  | ok parsed =>
    simp only
    cases hguard : (guardedTaskIri nodeIri).filter fun owner => s.taskRecordIsClosed env owner with
    | some owner => rfl
    | none =>
      simp only
      generalize hwritten : ((s.cacheNode (s.nodeOf now nodeIri jsonLd parsed (textMember parsed "named_graph"))).writeSync
        env none nodeIri parsed).trackIndexed nodeIri parsed = s₁
      -- The default graph is another one.
      have hsame : s₁.store graph iri = s.store graph iri := by
        rw [← hwritten, trackIndexed_store, writeSync_store]
        refine syncedStore_other fun item hitem => ?_
        split_ifs at hitem
        · obtain rfl := mem_singleton.1 hitem
          exact fun heq => hgraph heq.1.symm
        · cases hitem
      by_cases hroot : isPersistentTaskRoot nodeIri parsed = true
      · rw [if_pos hroot]
        have hrecord : (isTaskDocument parsed && documentHasScope parsed) = true := by
          unfold isPersistentTaskRoot at hroot
          simp only [Bool.and_eq_true] at hroot ⊢
          exact ⟨hroot.1.2, hroot.2⟩
        unfold persistServerTaskRecord syncNamedTaskGraph
        rw [if_pos hrecord]
        by_cases hsubject : isSparqlSubject env nodeIri = true
        · rw [if_pos hsubject]
          simp only [filter_cons, hroot, hsubject, Bool.and_self, if_true, filter_nil, map_cons, map_nil]
          cases hsync : s₁.sync env (some taskRecordGraph) nodeIri parsed with
          | error e =>
            simp only [sync_store_of_error hsync, bind, Except.bind]
            exact hsame
          | ok s₂ =>
            have hstore := (sync_store hsync graph iri).trans (syncedStore_congr hsame)
            exact hstore
        · rw [if_neg hsubject]
          simp only [Bool.not_eq_true] at hsubject
          simp only [filter_cons, hsubject, Bool.and_false, Bool.false_eq_true, if_false, filter_nil,
            map_nil, bind, Except.bind]
          exact hsame
      · rw [if_neg hroot]
        simp only [Bool.not_eq_true] at hroot
        simp only [filter_cons, hroot, Bool.false_and, Bool.false_eq_true, if_false, filter_nil, map_nil]
        exact hsame

theorem writeNodeToGraph_store (s : Blackboard) (now : ℤ) (nodeIri jsonLd graphName : String)
    (graph : Option String) (iri : String) : (s.writeNodeToGraph env now nodeIri jsonLd graphName).1.store graph iri =
      s.syncedStore (Op.synced env s (.writeNodeToGraph now nodeIri jsonLd graphName)) graph iri := by
  rw [Op.synced, Op.docs, writeNodeToGraph]
  cases hcheck : checkDocument env jsonLd "JSON parse error: " with
  | error e => simp [syncedStore_nil]
  | ok parsed =>
    simp only [trackIndexed_store, writeSync_store, map_cons, map_nil]
    by_cases htest : env.testMode = true
    · simp only [htest, true_and, if_true, filter_cons, filter_nil]
      rfl
    · simp only [htest]
      rfl

theorem foldl_store {f : Blackboard → α → Blackboard} (h : ∀ s a, (f s a).store = s.store)
    (l : List α) (s : Blackboard) : (l.foldl f s).store = s.store := by
  induction l generalizing s with
  | nil => rfl
  | cons a l ih => exact (ih (f s a)).trans (h s a)

variable {nodes : List (String × String × Option String)}

/-- A batch, as the store has it after. -/
theorem batch_store
    {f : Blackboard → String × String × Value × Option String → Blackboard} (h : ∀ s item, (f s item).store = s.store)
    (s : Blackboard) (graph : Option String) (iri : String) :
    (match (do
        let validated ← checkBatch env 0 nodes
        let s ← s.syncBatch env validated
        return validated.foldl f s : Except BlackboardError Blackboard) with
      | .error _ => s
      | .ok s' => s').store graph iri =
      s.syncedStore ((batchItems env s nodes).filter fun item => hasTriples item.2.1 item.2.2) graph iri := by
  unfold batchItems
  cases hcheck : checkBatch env 0 nodes with
  | error e => rfl
  | ok validated =>
    simp only
    cases hsync : s.syncBatch env validated with
    | error e =>
      simp only [hsync, bind, Except.bind]
      rfl
    | ok s₁ =>
      simp only [hsync, bind, Except.bind, pure, Except.pure]
      rw [foldl_store h]
      exact syncBatch_store hsync graph iri

theorem batchItems_graph (h : ∀ node ∈ nodes, node.2.2 ≠ graph) : ∀ item ∈ batchItems env s nodes, item.1 ≠ graph := by
  have hcheck : ∀ {i : ℕ} {nodes : List (String × String × Option String)}
      {validated : List (String × String × Value × Option String)}, (∀ node ∈ nodes, node.2.2 ≠ graph) →
      checkBatch env i nodes = .ok validated → ∀ item ∈ validated, item.2.2.2 ≠ graph := by
    intro i nodes validated hnodes hcheck
    induction nodes generalizing i validated with
    | nil =>
      cases hcheck
      exact fun item hin => (nomatch hin)
    | cons node nodes ih =>
      obtain ⟨nodeIri, jsonLd, graph'⟩ := node
      obtain ⟨parsed, -, hcheck⟩ := bind_eq_ok_iff.1 hcheck
      obtain ⟨rest, hrest, hcheck⟩ := bind_eq_ok_iff.1 hcheck
      cases hcheck
      rw [forall_mem_cons] at hnodes ⊢
      exact ⟨hnodes.1, ih hnodes.2 hrest⟩
  unfold batchItems
  intro item hitem
  cases hvalid : checkBatch env 0 nodes with
  | error e => simp [hvalid] at hitem
  | ok validated =>
    simp only [hvalid] at hitem
    cases hsync : s.syncBatch env validated with
    | error e => simp [hsync] at hitem
    | ok s₁ =>
      simp only [hsync] at hitem
      obtain ⟨found, hfound, rfl⟩ := List.mem_map.1 hitem
      exact hcheck h hvalid found hfound

/-- **The task graphs after a write.** -/
theorem Op.IsWrite.store (h : op.IsWrite) (hstep : op.step env s = some s') (hgraph : graph ∈ taskGraphs)
    (iri : String) : s'.store graph iri = s.syncedStore (op.synced env s) graph iri := by
  have hnamed : graph ≠ none := by
    rintro rfl
    simp [taskGraphs] at hgraph
  cases op with
  | writeNode now nodeIri jsonLd => exact some.inj hstep ▸ writeNode_store s now nodeIri jsonLd hnamed iri
  | writeNodeToGraph now nodeIri jsonLd graphName =>
    exact some.inj hstep ▸ writeNodeToGraph_store s now nodeIri jsonLd graphName graph iri
  | writeNodesBatch now nodes =>
    cases hstep
    have hitem : ∀ (s : Blackboard) item, (cacheBatchNode now s item).store = s.store := by
      intro s item
      unfold cacheBatchNode trackNode
      cases extractTaskIri item.1 <;> rfl
    have hstore := @batch_store env (nodes.map fun node => (node.1, node.2, none)) _ hitem s graph iri
    have hdefault : ∀ node ∈ nodes.map (fun node => (node.1, node.2, (none : Option String))), node.2.2 ≠ graph := by
      intro node hnode
      obtain ⟨found, -, rfl⟩ := List.mem_map.1 hnode
      exact hnamed.symm
    rw [syncedStore_other fun item hitem heq => batchItems_graph hdefault item (mem_filter.1 hitem).1 heq.1] at hstore
    show _ = s.store graph iri
    rw [← hstore]
    exact congrArg (fun t : Blackboard => t.store graph iri) (fst_outcome s _)
  | writeBatchToGraphs now nodes =>
    cases hstep
    have hitem : ∀ (s : Blackboard) item, (cacheGraphNode now s item).store = s.store := fun s item =>
      trackIndexed_store _ item.1 item.2.2.1
    have hstore := @batch_store env (nodes.map fun node => (node.1, node.2.1, some node.2.2)) _ hitem s graph iri
    rw [Op.synced, ← hstore]
    exact congrArg (fun t : Blackboard => t.store graph iri) (fst_outcome s _)
  | _ => exact h.elim

theorem ScopesAgree.write (h : ScopesAgree env s) (hwrite : op.IsWrite) (hstep : op.step env s = some s')
    (hscopes : ∀ iri doc, lastDoc (op.docs env s) iri = some doc → ∀ graph ∈ taskGraphs,
      ∀ record ∈ s.syncedStore (op.synced env s) graph iri, isPersistentTaskRoot iri record = true →
        taskScope record = taskScope doc) : ScopesAgree env s' := by
  have hputs := hwrite.puts hstep
  intro iri node hnode
  cases hlast : lastDoc (op.docs env s) iri with
  | some doc =>
    obtain ⟨node', hnode', hdoc, -⟩ := hputs.put iri doc hlast
    obtain rfl := some.inj (hnode.symm.trans hnode')
    refine ⟨doc, hdoc, fun record hrecord => ?_⟩
    obtain ⟨graph, hgraph, hstored, hroot⟩ := mem_taskRecords.1 hrecord
    have hin : some graph ∈ taskGraphs := List.mem_map_of_mem hgraph
    rw [hwrite.store hstep hin] at hstored
    exact hscopes iri doc hlast (some graph) hin record hstored hroot
  | none =>
    rw [hputs.kept iri hlast] at hnode
    obtain ⟨doc, hdoc, hrecords⟩ := h iri node hnode
    refine ⟨doc, hdoc, fun record hrecord => hrecords record ?_⟩
    obtain ⟨graph, hgraph, hstored, hroot⟩ := mem_taskRecords.1 hrecord
    rw [hwrite.store hstep (List.mem_map_of_mem hgraph), syncedStore_other] at hstored
    rotate_left
    · rintro item hitem ⟨-, rfl⟩
      exact notMem_of_lastDoc hlast item.2.2 (mem_docs_of_mem_synced hitem)
    exact mem_taskRecords.2 ⟨graph, hgraph, hstored, hroot⟩

/-! ### Runs -/

/-- **One call** that keeps the scopes of tasks. -/
theorem ScopesAgree.step (h : ScopesAgree env s) (hcall : op.IsScopeCall) (hkeeps : op.KeepsScopes env s)
    (hstep : op.step env s = some s') : ScopesAgree env s' := by
  cases op with
  | writeNode now nodeIri jsonLd =>
    exact h.write (show (Op.writeNode now nodeIri jsonLd).IsWrite from trivial) hstep hkeeps
  | writeNodeToGraph now nodeIri jsonLd graphName =>
    exact h.write (show (Op.writeNodeToGraph now nodeIri jsonLd graphName).IsWrite from trivial) hstep hkeeps
  | writeNodesBatch now nodes =>
    exact h.write (show (Op.writeNodesBatch now nodes).IsWrite from trivial) hstep hkeeps
  | writeBatchToGraphs now nodes =>
    exact h.write (show (Op.writeBatchToGraphs now nodes).IsWrite from trivial) hstep hkeeps
  | registerTask taskIri parent =>
    cases hstep
    refine h.shrinks (.of_eq (registerTask_nodeCache s taskIri parent) ?_)
    unfold Blackboard.registerTask
    cases parent with
    | none => rfl
    | some parentIri =>
      simp only
      split <;> rfl
  | completeTask taskIri status =>
    cases hstep
    refine h.shrinks (.of_eq (completeTask_nodeCache s taskIri status) ?_)
    unfold Blackboard.completeTask
    split <;> rfl
  | markDirty nodeIri =>
    cases hstep
    refine h.shrinks ?_
    unfold Blackboard.markDirty
    cases hnode : s.nodeCache.lookup nodeIri with
    | none => exact .refl s
    | some node => exact shrinks_insert hnode rfl
  | readNode now nodeIri => exact hcall.elim
  | rememberTaskDocument now taskIri doc => exact hcall.elim
  | deleteNode nodeIri => exact some.inj hstep ▸ h.shrinks (shrinks_deleteNode s nodeIri)
  | evictNode nodeIri => exact some.inj hstep ▸ h.shrinks (evicts_evictNode s nodeIri).shrinks
  | evictSubtree fuel taskIri => exact h.shrinks (evicts_evictSubtree hstep).shrinks
  | releaseSubtree fuel taskIri => exact h.shrinks (shrinks_releaseSubtree hstep)
  | gcCompletedTasks fuel => exact h.shrinks (evicts_gcCompletedTasks hstep).shrinks
  | flushNodes l0env now l0 iris => exact some.inj hstep ▸ h.shrinks (shrinks_flushNodes l0env now s l0 iris)
  | archiveCompletedTask now taskIri => exact some.inj hstep ▸ h.archiveCompletedTask hkeeps
  | discardRecordedNodes recorded =>
    cases hstep
    have hdeleted := Shrinks.foldl (@shrinks_deleteNode env) recorded s
    exact h.shrinks ⟨hdeleted.cache, hdeleted.store⟩
  | flushOxigraph order => exact some.inj hstep ▸ h.flushOxigraph order hkeeps
  | runSync i => exact some.inj hstep ▸ h.runSync hkeeps

def tenantTask (tenantId : String) : Value :=
  .object [("@type", .string "Task"), ("project_id", .string "p"), ("tenant_id", .string tenantId)]

def tenantText (tenantId : String) : String :=
  "\x7b\"@type\":\"Task\",\"project_id\":\"p\",\"tenant_id\":\"" ++ tenantId ++ "\"\x7d"

def tenantBoard : BlackboardEnv :=
  { sampleBoard with
    fromStr := fun text =>
      if text = tenantText "one" then .ok (tenantTask "one")
      else if text = tenantText "two" then .ok (tenantTask "two")
      else .error "expected value" }

theorem lists_of_writes {ops : List Op} (hops : ∀ op ∈ ops, op.IsWrite) {subject : String}
    (hdocs : ∀ before op s, before ++ [op] <+: ops → run env (withStore fun _ _ => []) before = some s →
      ∀ item ∈ op.docs env s, item.1 = subject)
    (hrun : run env (withStore fun _ _ => []) ops = some s) : Lists s [subject] := by
  refine ⟨nodup_singleton subject, fun graph hgraph iri hne => ?_⟩
  rw [mem_singleton]
  by_contra hout
  refine hne ?_
  clear hne
  induction ops using reverseRecOn generalizing s with
  | nil =>
    cases hrun
    rfl
  | append_singleton ops op ih =>
    rw [run_concat] at hrun
    obtain ⟨s₁, hrun₁, hstep⟩ := bind_eq_some_iff.1 hrun
    have hwrite := hops op mem_concat_self
    rw [hwrite.store hstep (List.mem_map_of_mem hgraph), syncedStore_other]
    · exact ih (fun op hop => hops op (mem_append_left _ hop))
        (fun before op s hwithin => hdocs before op s (hwithin.trans (prefix_append ops _))) hrun₁
    · rintro item hitem ⟨-, rfl⟩
      exact hout (hdocs ops op s₁ prefix_rfl hrun₁ item.2 (mem_docs_of_mem_synced hitem))

/-- A task of the tenant `one` is stored, and its node is replaced through a graph. -/
def replanting (tenantId : String) : List Op :=
  [.writeNode 0 "iri://task/a" (tenantText "one"),
    .writeNodeToGraph 1 "iri://task/a" (tenantText tenantId) "iri://graph/g"]

def replanted (tenantId : String) : Blackboard :=
  (((withStore fun _ _ => []).writeNode tenantBoard 0 "iri://task/a" (tenantText "one")).1.writeNodeToGraph tenantBoard 1
    "iri://task/a" (tenantText tenantId) "iri://graph/g").1

theorem run_replanting (tenantId : String) :
    run tenantBoard (withStore fun _ _ => []) (replanting tenantId) = some (replanted tenantId) := rfl

theorem forall_replanting {P : List Op → Op → Blackboard → Prop} {tenantId : String}
    (hfirst : P [] (.writeNode 0 "iri://task/a" (tenantText "one")) (withStore fun _ _ => []))
    (hsecond : P [.writeNode 0 "iri://task/a" (tenantText "one")]
      (.writeNodeToGraph 1 "iri://task/a" (tenantText tenantId) "iri://graph/g")
      ((withStore fun _ _ => []).writeNode tenantBoard 0 "iri://task/a" (tenantText "one")).1) :
    ∀ before op s, before ++ [op] <+: replanting tenantId →
      run tenantBoard (withStore fun _ _ => []) before = some s → P before op s := by
  intro before op s hwithin hrun
  rcases concat_isPrefix_cons.1 hwithin with ⟨rfl, rfl⟩ | ⟨rest, rfl, hrest⟩
  · exact some.inj hrun ▸ hfirst
  rcases concat_isPrefix_cons.1 hrest with ⟨rfl, rfl⟩ | ⟨last, rfl, hnone⟩
  · exact some.inj hrun ▸ hsecond
  · simp at hnone

theorem isWrite_replanting (tenantId : String) : ∀ op ∈ replanting tenantId, op.IsWrite := by
  intro op hop
  simp only [replanting, mem_cons, not_mem_nil, or_false] at hop
  rcases hop with rfl | rfl <;> trivial

end WildAgentOs.Memory.Blackboard
