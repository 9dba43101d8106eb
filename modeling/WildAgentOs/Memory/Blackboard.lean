import WildAgentOs.Core.Workflow
import WildAgentOs.Lib.Worklist
import WildAgentOs.Memory.L0Store

/-!
# The blackboard

`memory/l2_blackboard.rs`: the working cache of nodes, the tree of tasks, the indexes that queries read, and
the triples in the persistent graph.

The graph is modelled by the documents whose triples it holds of each subject; what it says to an update, and
what it takes for an IRI, are parameters, as are the JSON reader and writer.  Counters are left out, for
nothing here reads them.

* `Node`, `TaskTreeNode`, `Blackboard`;
* `extractTaskIri`, `guardedTaskIri`, the predicates of task documents;
* `writeNode`, `writeNodeToGraph`, `writeNodesBatch`, `writeBatchToGraphs`;
* `readNode`, `deleteNode`, `evictNode`, `evictSubtree`, `releaseSubtree`, `gcCompletedTasks`;
* `flushNodes`, `flushDirtySubtree`, `archiveCompletedTask`.
-/

namespace WildAgentOs.Memory

open Core Json Text List

/-! ### IRIs -/

def extractTaskIri (nodeIri : String) : Option String :=
  match stripStart "iri://task/".toList nodeIri.toList with
  | some rest => some (String.ofList ("iri://task/".toList ++ rest.takeWhile (· ≠ '/')))
  | none =>
    match stripStart "iri://".toList nodeIri.toList with
    | some rest =>
      let ns := "iri://".toList ++ rest.takeWhile (· ≠ '/')
      match rest.dropWhile (· ≠ '/') with
      | [] => some (String.ofList ns)
      | sep :: after => some (String.ofList (ns ++ sep :: after.takeWhile (· ≠ '/')))
    | none => none

def guardedTaskIri (nodeIri : String) : Option String :=
  match rsplitOnce "/node_".toList nodeIri.toList with
  | some (task, _) =>
    if "iri://".toList <+: task then some (String.ofList task) else extractTaskIri nodeIri
  | none => extractTaskIri nodeIri

example : extractTaskIri "iri://task/abc/turn_1" = some "iri://task/abc" ∧
    extractTaskIri "iri://project/xyz/node_1" = some "iri://project/xyz" ∧
    extractTaskIri "not_an_iri" = none := by
  decide

/-! ### Documents -/

/-- The member of a document that is a text. -/
def textMember (doc : Value) (key : String) : Option String := (doc.get key).bind Value.asStr

def extractJsonldTypes (parsed : Value) : List String :=
  match parsed.get "@type" with
  | some (.string name) => [name]
  | some (.array items) => Value.strings items
  | _ => []

def isTaskDocument (doc : Value) : Bool :=
  match doc.get "@type" with
  | some (.string name) => name = "Task"
  | some (.array items) => items.any fun item => item.asStr = some "Task"
  | _ => false

def documentScope (doc : Value) : Option (String × String) := do
  let tenant ← textMember doc "tenant_id"
  let project ← textMember doc "project_id"
  if tenant = "" ∨ project = "" then none else some (tenant, project)

def documentHasScope (doc : Value) : Bool := (documentScope doc).isSome

def documentInScope (doc : Value) (tenantId projectId : String) : Bool :=
  decide (documentScope doc = some (tenantId, projectId)) && isTaskDocument doc

def documentIsArchive (doc : Value) : Bool :=
  match doc.get "read_only" with
  | some (.bool b) => b
  | _ => false

def isTerminalStatus (status : String) : Bool :=
  status ∈ ["completed", "failed", "cancelled", "canceled", "success", "succeeded"]

def documentIsClosed (doc : Value) : Bool := documentIsArchive doc || ((textMember doc "status").any isTerminalStatus)

def isPersistentTaskRoot (nodeIri : String) (parsed : Value) : Bool :=
  decide (¬"/node_".toList <:+: nodeIri.toList) && decide (extractTaskIri nodeIri = some nodeIri) &&
    isTaskDocument parsed && documentHasScope parsed

/-- `doc[key] = value`, for a document that is an object. -/
def setMember (doc : Value) (key : String) (value : Value) : Value :=
  match doc with
  | .object members =>
    if (members.map Prod.fst).contains key then
      .object (members.map fun member => if member.1 = key then (key, value) else member)
    else .object (members ++ [(key, value)])
  | other => other

theorem lookup_map_replace (members : List (String × Value)) (key key' : String) (value : Value) :
    (members.map fun member => if member.1 = key then (key, value) else member).lookup key' =
      if key' = key then (members.lookup key).map fun _ => value else members.lookup key' := by
  induction members with
  | nil => simp
  | cons member members ih =>
    obtain ⟨name, old⟩ := member
    by_cases hname : name = key
    · subst hname
      by_cases hkey : key' = name
      · simp [hkey]
      · simp [hkey, lookup_cons, ih, beq_eq_false_iff_ne.2 hkey]
    · by_cases hkey : key' = key
      · subst hkey
        simp [hname, lookup_cons, ih, beq_eq_false_iff_ne.2 (Ne.symm hname)]
      · simp [hname, hkey, lookup_cons, ih]

/-- A document that is an object, with a member set. -/
theorem get_setMember {members : List (String × Value)} (key key' : String) (value : Value) :
    ∃ members', setMember (.object members) key value = .object members' ∧
      members'.lookup key' = if key' = key then some value else members.lookup key' := by
  unfold setMember
  simp only
  split_ifs with hin hkey hkey
  · refine ⟨_, rfl, ?_⟩
    rw [lookup_map_replace, if_pos hkey]
    obtain ⟨member, hmember, heq⟩ := mem_map.1 (contains_iff_mem.1 hin)
    cases hlookup : members.lookup key with
    | some old => rfl
    | none =>
      have hne := lookup_eq_none_iff.1 hlookup member hmember
      simp [heq] at hne
  · exact ⟨_, rfl, by rw [lookup_map_replace, if_neg hkey]⟩
  · refine ⟨_, rfl, ?_⟩
    have hnone : members.lookup key = none := by
      rw [lookup_eq_none_iff]
      intro member hmember
      rw [bne_iff_ne]
      rintro rfl
      exact hin (contains_iff_mem.2 (mem_map.2 ⟨member, hmember, rfl⟩))
    rw [hkey, lookup_append, hnone]
    simp
  · refine ⟨_, rfl, ?_⟩
    rw [lookup_append]
    simp [lookup_cons, beq_eq_false_iff_ne.2 hkey]

/-- `parse::<AgentRole>`. -/
def parseAgentRole (s : String) : Option AgentRole :=
  let upper := String.ofList (s.toList.map Char.toUpper)
  if upper = "PA" ∨ upper = "PLAN" then some .plan
  else if upper = "DA" ∨ upper = "DO" then some .doing
  else if upper = "CA" ∨ upper = "CHECK" then some .check
  else if upper = "AA" ∨ upper = "ACT" then some .act
  else none

/-! ### The state -/

structure Node where
  iri : String
  jsonLd : String
  size : ℕ
  createdAt : ℤ
  createdBy : Option String
  tags : List String
  nodeType : Option String
  dirty : Bool
  mesiState : MesiState
  parentTask : Option String
  namedGraph : Option String
  jsonldTypes : List String
  deriving DecidableEq

structure TaskTreeNode where
  parent : Option String
  children : List String
  dependencies : List String
  dependents : List String
  status : String
  nodeIris : List String
  deriving DecidableEq

/-- A sync that a write has left to a thread: the graph, the node and its document. -/
structure PendingSync where
  graph : Option String
  nodeIri : String
  doc : Value

structure Blackboard where
  nodeCache : AList fun _ : String => Node
  taskNodes : AList fun _ : String => List String
  taskTree : AList fun _ : String => TaskTreeNode
  roleIndex : String × AgentRole → List String
  cycleIndex : String × String → List String
  typeIndex : String × String → List String
  /-- The documents whose triples a graph holds of a subject. -/
  store : Option String → String → List Value
  pendingSyncs : List PendingSync
  serverTaskIris : List String

inductive BlackboardError
  | nodeTooLarge (size max : ℕ)
  | invalidJsonLd (message : String)
  | taskNotFound (iri : String)
  | sparqlError (message : String)
  | core (e : CoreError)
  deriving DecidableEq

def taskRecordGraph : String := "https://wildagentos.org/graph/tasks"

def taskArchiveGraph : String := "https://wildagentos.org/graph/task-archive"

/-- What the blackboard uses: the JSON reader and writer, the answer of the store to the update that replaces
the triples of a subject, whether it takes a text for an IRI, which of the two task graphs it lists first,
and the limit of the configuration. -/
structure BlackboardEnv where
  fromStr : String → Except String Value
  toString : Value → String
  toRfc3339 : ℤ → String
  parseFromRfc3339 : String → Option ℤ
  update : Option String → String → Value → Except String Unit
  deletes : Option String → String → Bool
  isNamedNode : String → Bool
  archiveFirst : Bool
  /-- `sync_to_oxigraph` in the thread of the write, as under `CARGO_MANIFEST_DIR`. -/
  testMode : Bool
  maxNodeSize : ℕ

namespace Blackboard

def new : Blackboard where
  nodeCache := ∅
  taskNodes := ∅
  taskTree := ∅
  roleIndex _ := []
  cycleIndex _ := []
  typeIndex _ := []
  store _ _ := []
  pendingSyncs := []
  serverTaskIris := []

variable (env : BlackboardEnv)

/-! ### The graph -/

/-- Whether `build_triples` gives any triple. -/
def hasTriples (nodeIri : String) (doc : Value) : Bool :=
  ((doc.asObject.getD []).any fun member =>
    if member.1.toList.head? = some '@' then
      decide (member.1 = "@type") && !(extractJsonldTypes (.object [member])).isEmpty
    else match member.2 with
      | .null => false
      | _ => true) || isPersistentTaskRoot nodeIri doc

/-- A graph holds the triples of these documents of a subject. -/
def setStore (s : Blackboard) (graph : Option String) (nodeIri : String) (docs : List Value) : Blackboard :=
  { s with store := Function.update s.store graph (Function.update (s.store graph) nodeIri docs) }

/-- Replace the triples of a subject in a graph: nothing is done if there are none to insert, or if the
store refuses the update. -/
def sync (s : Blackboard) (graph : Option String) (nodeIri : String) (doc : Value) :
    Except BlackboardError Blackboard :=
  if hasTriples nodeIri doc then
    match env.update graph nodeIri doc with
    | .error e => .error (.sparqlError e)
    | .ok () => .ok (s.setStore graph nodeIri [doc])
  else .ok s

/-- The sync of a write: at once, or left to a thread.  An error is only logged. -/
def writeSync (s : Blackboard) (graph : Option String) (nodeIri : String) (doc : Value) : Blackboard :=
  if env.testMode then
    match s.sync env graph nodeIri doc with
    | .ok s' => s'
    | .error _ => s
  else { s with pendingSyncs := s.pendingSyncs ++ [⟨graph, nodeIri, doc⟩] }

/-- A thread comes to its end. -/
def runSync (s : Blackboard) (i : ℕ) : Blackboard :=
  match s.pendingSyncs[i]? with
  | none => s
  | some pending =>
    let s := { s with pendingSyncs := s.pendingSyncs.eraseIdx i }
    match s.sync env pending.graph pending.nodeIri pending.doc with
    | .ok s' => s'
    | .error _ => s

/-- The documents that a task graph holds as texts. -/
def recordsIn (s : Blackboard) (graph taskIri : String) : List Value :=
  (s.store (some graph) taskIri).filter (isPersistentTaskRoot taskIri)

def preferArchive (existing : Option Value) (candidate : Value) : Value :=
  match existing with
  | some current => if documentIsArchive current && !documentIsArchive candidate then current else candidate
  | none => candidate

def persistedTaskDocument (s : Blackboard) (taskIri : String) : Option Value :=
  if env.isNamedNode taskIri then
    let graphs := if env.archiveFirst then [taskArchiveGraph, taskRecordGraph]
      else [taskRecordGraph, taskArchiveGraph]
    (graphs.flatMap fun graph => s.recordsIn graph taskIri).foldl
      (fun best doc => some (preferArchive best doc)) none
  else none

/-- `sparql_subject` gives a subject. -/
def isSparqlSubject (iri : String) : Bool :=
  !(iri.toList.isEmpty || iri.toList.any fun c => isWhitespace c || c ∈ ['<', '>', '"', '{', '}', '\\', '`'])
    && env.isNamedNode iri

def syncNamedTaskGraph (s : Blackboard) (graph taskIri : String) (doc : Value) : Except BlackboardError Blackboard :=
  if isSparqlSubject env taskIri then s.sync env (some graph) taskIri doc
  else .error (.sparqlError ("task IRI cannot be stored: " ++ taskIri))

def persistServerTaskRecord (s : Blackboard) (taskIri : String) (doc : Value) : Except BlackboardError Blackboard :=
  if isTaskDocument doc && documentHasScope doc then do
    let s ← s.syncNamedTaskGraph env taskRecordGraph taskIri doc
    return { s with serverTaskIris := s.serverTaskIris.insert taskIri }
  else .ok s

/-! ### The indexes -/

/-- Push an IRI that is not there yet. -/
def pushNew (iris : List String) (iri : String) : List String := if iri ∈ iris then iris else iris ++ [iri]

/-- The entry of a task in `task_nodes` and in the tree. -/
def trackTask (s : Blackboard) (taskIri nodeIri : String) : Blackboard :=
  let tree := (s.taskTree.lookup taskIri).getD ⟨none, [], [], [], "running", []⟩
  { s with
    taskNodes := s.taskNodes.insert taskIri (pushNew ((s.taskNodes.lookup taskIri).getD []) nodeIri)
    taskTree := s.taskTree.insert taskIri { tree with nodeIris := pushNew tree.nodeIris nodeIri } }

/-- Another list for the key that a document gives, if it gives one. -/
def atKey {α : Type} [DecidableEq α] (index : String × α → List String) (taskIri : String) (key : Option α)
    (f : List String → List String) : String × α → List String :=
  match key with
  | some key => Function.update index (taskIri, key) (f (index (taskIri, key)))
  | none => index

/-- The secondary indexes. -/
def indexNode (s : Blackboard) (taskIri nodeIri : String) (parsed : Value) : Blackboard :=
  { s with
    roleIndex := atKey s.roleIndex taskIri ((textMember parsed "role").bind parseAgentRole) (pushNew · nodeIri)
    cycleIndex := atKey s.cycleIndex taskIri (textMember parsed "cycle_id") (pushNew · nodeIri)
    typeIndex := atKey s.typeIndex taskIri (extractJsonldTypes parsed).head? (pushNew · nodeIri) }

def unindexNode (s : Blackboard) (nodeIri : String) (node : Node) : Blackboard :=
  match extractTaskIri nodeIri with
  | none => s
  | some taskIri =>
    let drop (iris : List String) : List String := iris.filter (· ≠ nodeIri)
    let s := match s.taskNodes.lookup taskIri with
      | some iris => { s with taskNodes := s.taskNodes.insert taskIri (drop iris) }
      | none => s
    match env.fromStr node.jsonLd with
    | .error _ => s
    | .ok parsed =>
      { s with
        roleIndex := atKey s.roleIndex taskIri ((textMember parsed "role").bind parseAgentRole) drop
        cycleIndex := atKey s.cycleIndex taskIri (textMember parsed "cycle_id") drop
        typeIndex := fun key =>
          if key.1 = taskIri ∧ key.2 ∈ node.jsonldTypes then drop (s.typeIndex key) else s.typeIndex key }

/-! ### Writes -/

/-- The node of a write. -/
def nodeOf (s : Blackboard) (now : ℤ) (nodeIri jsonLd : String) (parsed : Value)
    (namedGraph : Option String) : Node where
  iri := nodeIri
  jsonLd
  size := jsonLd.utf8ByteSize
  createdAt := now
  createdBy := textMember parsed "created_by"
  tags := Value.strings (((parsed.get "tags").bind Value.asArray).getD [])
  nodeType := (extractJsonldTypes parsed).head?
  dirty := (s.nodeCache.lookup nodeIri).isSome
  mesiState := if (s.nodeCache.lookup nodeIri).isSome then .modified else .shared
  parentTask := extractTaskIri nodeIri
  namedGraph
  jsonldTypes := extractJsonldTypes parsed

def cacheNode (s : Blackboard) (node : Node) : Blackboard := { s with nodeCache := s.nodeCache.insert node.iri node }

/-- The entries of a node under its task. -/
def trackNode (s : Blackboard) (nodeIri : String) : Blackboard :=
  match extractTaskIri nodeIri with
  | some taskIri => s.trackTask taskIri nodeIri
  | none => s

/-- The entries of a node under its task, and in the secondary indexes. -/
def trackIndexed (s : Blackboard) (nodeIri : String) (parsed : Value) : Blackboard :=
  match extractTaskIri nodeIri with
  | some taskIri => (s.trackTask taskIri nodeIri).indexNode taskIri nodeIri parsed
  | none => s

def checkDocument (jsonLd : String) (context : String) : Except BlackboardError Value :=
  if env.maxNodeSize < jsonLd.utf8ByteSize then
    .error (.nodeTooLarge jsonLd.utf8ByteSize env.maxNodeSize)
  else (env.fromStr jsonLd).mapError fun e => .invalidJsonLd (context ++ e)

/-- The text of a document is closed. -/
def taskJsonIsClosed (jsonLd : String) : Bool :=
  match env.fromStr jsonLd with
  | .ok doc => documentIsClosed doc
  | .error _ => false

def taskRecordIsClosed (s : Blackboard) (taskIri : String) : Bool :=
  ((s.nodeCache.lookup taskIri).any fun node => taskJsonIsClosed env node.jsonLd) ||
    (s.persistedTaskDocument env taskIri).any documentIsClosed

/-- `write_node`.  The node is cached even if its record cannot be stored. -/
def writeNode (s : Blackboard) (now : ℤ) (nodeIri jsonLd : String) : Blackboard × Except BlackboardError Unit :=
  match checkDocument env jsonLd "JSON parse error: " with
  | .error e => (s, .error e)
  | .ok parsed =>
    match (guardedTaskIri nodeIri).filter fun owner => s.taskRecordIsClosed env owner with
    | some owner => (s, .error (.taskNotFound owner))
    | none =>
      let s' := s.cacheNode (s.nodeOf now nodeIri jsonLd parsed (textMember parsed "named_graph"))
      let s' := s'.writeSync env none nodeIri parsed
      let s' := s'.trackIndexed nodeIri parsed
      if isPersistentTaskRoot nodeIri parsed then
        match s'.persistServerTaskRecord env nodeIri parsed with
        | .error e => (s', .error e)
        | .ok s'' => (s'', .ok ())
      else (s', .ok ())

def writeNodeToGraph (s : Blackboard) (now : ℤ) (nodeIri jsonLd graphName : String) :
    Blackboard × Except BlackboardError Unit :=
  match checkDocument env jsonLd "JSON parse error: " with
  | .error e => (s, .error e)
  | .ok parsed =>
    let s' := s.cacheNode (s.nodeOf now nodeIri jsonLd parsed (some graphName))
    let s' := s'.writeSync env (some graphName) nodeIri parsed
    (s'.trackIndexed nodeIri parsed, .ok ())

def checkBatch : ℕ → List (String × String × Option String) →
    Except BlackboardError (List (String × String × Value × Option String))
  | _, [] => .ok []
  | i, (nodeIri, jsonLd, graph) :: nodes => do
    let parsed ← checkDocument env jsonLd ("Batch item " ++ ToString.toString i ++ " JSON parse error: ")
    let validated ← checkBatch (i + 1) nodes
    return (nodeIri, jsonLd, parsed, graph) :: validated

/-- The update of a batch: all of it, or nothing.  The subjects are cleared before the triples are
inserted. -/
def syncBatch (s : Blackboard) (validated : List (String × String × Value × Option String)) :
    Except BlackboardError Blackboard := do
  let items := validated.filter fun item => hasTriples item.1 item.2.2.1
  for item in items do
    (env.update item.2.2.2 item.1 item.2.2.1).mapError BlackboardError.sparqlError
  let cleared := items.foldl (fun s item => s.setStore item.2.2.2 item.1 []) s
  return items.foldl (fun s item =>
    s.setStore item.2.2.2 item.1 (s.store item.2.2.2 item.1 ++ [item.2.2.1])) cleared

/-- One node of `write_nodes_batch`: the secondary indexes are left as they are. -/
def cacheBatchNode (now : ℤ) (s : Blackboard) (item : String × String × Value × Option String) : Blackboard :=
  (s.cacheNode (s.nodeOf now item.1 item.2.1 item.2.2.1 (textMember item.2.2.1 "named_graph"))).trackNode
    item.1

def writeNodesBatch (s : Blackboard) (now : ℤ) (nodes : List (String × String)) :
    Blackboard × Except BlackboardError Unit :=
  let outcome : Except BlackboardError Blackboard := do
    let validated ← checkBatch env 0 (nodes.map fun node => (node.1, node.2, none))
    let s ← s.syncBatch env validated
    return validated.foldl (cacheBatchNode now) s
  match outcome with
  | .error e => (s, .error e)
  | .ok s' => (s', .ok ())

/-- One node of `write_batch_to_graphs`. -/
def cacheGraphNode (now : ℤ) (s : Blackboard) (item : String × String × Value × Option String) : Blackboard :=
  (s.cacheNode (s.nodeOf now item.1 item.2.1 item.2.2.1 item.2.2.2)).trackIndexed item.1 item.2.2.1

def writeBatchToGraphs (s : Blackboard) (now : ℤ) (nodes : List (String × String × String)) :
    Blackboard × Except BlackboardError Unit :=
  let outcome : Except BlackboardError Blackboard := do
    let validated ← checkBatch env 0 (nodes.map fun node => (node.1, node.2.1, some node.2.2))
    let s ← s.syncBatch env validated
    return validated.foldl (cacheGraphNode now) s
  match outcome with
  | .error e => (s, .error e)
  | .ok s' => (s', .ok ())

def registerTask (s : Blackboard) (taskIri : String) (parent : Option String) : Blackboard :=
  let node := (s.taskTree.lookup taskIri).getD ⟨parent, [], [], [], "running", []⟩
  let tree := s.taskTree.insert taskIri { node with parent }
  match parent with
  | none => { s with taskTree := tree }
  | some parentIri =>
    match tree.lookup parentIri with
    | none => { s with taskTree := tree }
    | some parentNode => { s with
        taskTree := tree.insert parentIri
          { parentNode with children := pushNew parentNode.children taskIri } }

def completeTask (s : Blackboard) (taskIri status : String) : Blackboard :=
  match s.taskTree.lookup taskIri with
  | some node => { s with taskTree := s.taskTree.insert taskIri { node with status } }
  | none => s

def markDirty (s : Blackboard) (nodeIri : String) : Blackboard :=
  match s.nodeCache.lookup nodeIri with
  | some node => { s with
      nodeCache := s.nodeCache.insert nodeIri { node with dirty := true, mesiState := .modified } }
  | none => s

/-! ### Reads -/

def nodeFromDocument (now : ℤ) (taskIri : String) (doc : Value) : Node where
  iri := taskIri
  jsonLd := env.toString doc
  size := (env.toString doc).utf8ByteSize
  createdAt := ((textMember doc "created_at").bind env.parseFromRfc3339).getD now
  createdBy := textMember doc "created_by"
  tags := Value.strings (((doc.get "tags").bind Value.asArray).getD [])
  nodeType := (extractJsonldTypes doc).head?
  dirty := false
  mesiState := .shared
  parentTask := extractTaskIri taskIri
  namedGraph := none
  jsonldTypes := extractJsonldTypes doc

def trackTaskIndexes (s : Blackboard) (nodeIri : String) (parsed : Value) : Blackboard :=
  match extractTaskIri nodeIri with
  | none => s
  | some taskIri =>
    let status := (textMember parsed "status").getD "running"
    ((s.trackTask taskIri nodeIri).completeTask taskIri status).indexNode taskIri nodeIri parsed

def rememberTaskDocument (s : Blackboard) (now : ℤ) (taskIri : String) (doc : Value) : Blackboard × Option Node :=
  if isTaskDocument doc then
    let s := { s with serverTaskIris := s.serverTaskIris.insert taskIri }
    match s.nodeCache.lookup taskIri with
    | some node => (s, some node)
    | none =>
      let node := nodeFromDocument env now taskIri doc
      ((s.cacheNode node).trackTaskIndexes taskIri doc, some node)
  else (s, none)

def readNode (s : Blackboard) (now : ℤ) (nodeIri : String) : Blackboard × Option Node :=
  match s.nodeCache.lookup nodeIri with
  | some node => (s, some node)
  | none =>
    match s.persistedTaskDocument env nodeIri with
    | some doc => s.rememberTaskDocument env now nodeIri doc
    | none => (s, none)

def queryNodes (s : Blackboard) (taskIri : String) : List Node :=
  ((s.taskNodes.lookup taskIri).getD []).filterMap fun iri => s.nodeCache.lookup iri

/-! ### Deletion and eviction -/

def evictNode (s : Blackboard) (nodeIri : String) : Blackboard :=
  match s.nodeCache.lookup nodeIri with
  | none => s
  | some node => { s with nodeCache := s.nodeCache.erase nodeIri }.unindexNode env nodeIri node

/-- A `DELETE` that the store may refuse, which is only logged. -/
def dropStore (s : Blackboard) (graph : Option String) (nodeIri : String) : Blackboard :=
  if env.deletes graph nodeIri then s.setStore graph nodeIri [] else s

/-- The triples of a node are deleted in the graph that its document names, and in the task graphs. -/
def dropTriples (s : Blackboard) (graph : Option String) (nodeIri : String) : Blackboard :=
  let s := s.dropStore env graph nodeIri
  let s := if isSparqlSubject env nodeIri then
      (s.dropStore env (some taskArchiveGraph) nodeIri).dropStore env (some taskRecordGraph) nodeIri
    else s
  { s with serverTaskIris := s.serverTaskIris.erase nodeIri }

def deleteNode (s : Blackboard) (nodeIri : String) : Blackboard :=
  match s.nodeCache.lookup nodeIri with
  | none => s
  | some node =>
    ({ s with nodeCache := s.nodeCache.erase nodeIri }.dropTriples env node.namedGraph nodeIri).unindexNode
      env nodeIri node

/-- The sub-tasks of a task. -/
def childrenOf (s : Blackboard) (taskIri : String) : List String :=
  ((s.taskTree.lookup taskIri).map TaskTreeNode.children).getD []

/-- The nodes of a task. -/
def nodesOf (s : Blackboard) (taskIri : String) : List String :=
  ((s.taskTree.lookup taskIri).map TaskTreeNode.nodeIris).getD []

/-- The loop over `tasks_to_release`, which does not end on a task that is among its own sub-tasks. -/
def tasksToRelease (fuel : ℕ) (s : Blackboard) (taskIri : String) : Option (List String) :=
  Worklist.expand s.childrenOf fuel [taskIri]

def evictSubtree (fuel : ℕ) (s : Blackboard) (taskIri : String) : Option Blackboard := do
  let tasks ← s.tasksToRelease fuel taskIri
  let s' := (tasks.flatMap s.nodesOf).foldl (evictNode env) s
  return { s' with
    taskTree := tasks.foldl (fun tree task => tree.erase task) s'.taskTree
    taskNodes := s'.taskNodes.erase taskIri }

def releaseSubtree (fuel : ℕ) (s : Blackboard) (taskIri : String) : Option Blackboard := do
  let tasks ← s.tasksToRelease fuel taskIri
  let s' := (tasks.flatMap s.nodesOf).foldl (deleteNode env) s
  return { s' with taskTree := tasks.foldl (fun tree task => tree.erase task) s'.taskTree }

/-- The tasks that `gc_completed_tasks` releases. -/
def completedTasks (s : Blackboard) : List String :=
  s.taskTree.entries.filterMap fun entry =>
    if (entry.2.status = "completed" ∨ entry.2.status = "failed") ∧ entry.2.children = [] then
      some entry.1
    else none

def gcCompletedTasks (fuel : ℕ) (s : Blackboard) : Option Blackboard :=
  s.completedTasks.foldlM (evictSubtree env fuel) s

def discardRecordedNodes (s : Blackboard) (recorded : List String) : Blackboard :=
  let s' := recorded.foldl (deleteNode env) s
  { s' with taskTree := recorded.foldl (fun tree iri => tree.erase iri) s'.taskTree }

/-! ### Flushes -/

/-- The walk of `subtree_node_iris`, which looks at each task once.  It sees no more tasks than there are
sub-tasks. -/
def subtreeTasks (s : Blackboard) (taskIri : String) : List String :=
  Worklist.visit s.childrenOf (1 + (s.taskTree.entries.flatMap fun entry => entry.2.children).length)
    [taskIri] [taskIri]

def subtreeNodeIris (s : Blackboard) (taskIri : String) : List String :=
  ((s.subtreeTasks taskIri).flatMap s.nodesOf).dedup

/-- The entry of a node that is flushed. -/
def flushEntry (now : ℤ) (node : Node) : L0Entry where
  iri := node.iri
  content := node.jsonLd
  -- `0.5`
  importance := ⟨0x3F000000⟩
  accessCount := 0
  createdAt := node.createdAt
  lastAccessed := now
  tags := node.tags
  metadata := []
  mesiState := .shared
  contentHash := ""
  namedGraph := node.namedGraph
  jsonldContext := none
  jsonldTypes := node.jsonldTypes
  hyperspacePointId := none

/-- `flush_nodes`: up to the first node that the store refuses. -/
def flushNodes (l0env : L0Env) (now : ℤ) (s : Blackboard) (l0 : L0Store) :
    List String → (Blackboard × L0Store) × Except BlackboardError Unit
  | [] => ((s, l0), .ok ())
  | iri :: iris =>
    match s.nodeCache.lookup iri with
    | none => s.flushNodes l0env now l0 iris
    | some node =>
      match l0.storeEntry l0env now (flushEntry now node) with
      | .error e => ((s, l0), .error (.core e))
      | .ok l0 =>
        { s with nodeCache := s.nodeCache.insert iri { node with dirty := false, mesiState := .shared }
          }.flushNodes l0env now l0 iris

/-- A flush changes the flags of one node after another. -/
theorem flushNodes_rel {R : Blackboard → Blackboard → Prop} (hrefl : ∀ s, R s s)
    (htrans : ∀ {s₁ s₂ s₃ : Blackboard}, R s₁ s₂ → R s₂ s₃ → R s₁ s₃)
    (hflag : ∀ {s : Blackboard} {iri : String} {node : Node}, s.nodeCache.lookup iri = some node →
      R s { s with nodeCache := s.nodeCache.insert iri { node with dirty := false, mesiState := .shared } })
    (l0env : L0Env) (now : ℤ) (s : Blackboard) (l0 : L0Store) (iris : List String) :
    R s (s.flushNodes l0env now l0 iris).1.1 := by
  induction iris generalizing s l0 with
  | nil => exact hrefl s
  | cons iri iris ih =>
    rw [flushNodes]
    cases hnode : s.nodeCache.lookup iri with
    | none => exact ih s l0
    | some node =>
      simp only
      cases l0.storeEntry l0env now (flushEntry now node) with
      | error e => exact hrefl s
      | ok l0' => exact htrans (hflag hnode) (ih _ l0')

/-- The dirty nodes among IRIs. -/
def dirtyIris (s : Blackboard) (iris : List String) : List String :=
  iris.filter fun iri => ((s.nodeCache.lookup iri).map Node.dirty).getD false

def flushDirtySubtree (l0env : L0Env) (now : ℤ) (s : Blackboard) (l0 : L0Store) (taskIri : String) :
    (Blackboard × L0Store) × Except BlackboardError Unit :=
  s.flushNodes l0env now l0 (s.dirtyIris (s.subtreeNodeIris taskIri))

def flushNode (l0env : L0Env) (now : ℤ) (s : Blackboard) (l0 : L0Store) (nodeIri : String) :
    (Blackboard × L0Store) × Except BlackboardError Unit :=
  s.flushNodes l0env now l0 (s.dirtyIris [nodeIri])

/-- `flush_oxigraph`: threads end in the given order, and after them the others. -/
def flushOxigraph (order : List ℕ) (s : Blackboard) : Blackboard :=
  let s := order.foldl (runSync env) s
  (List.replicate s.pendingSyncs.length 0).foldl (runSync env) s

/-- The document of the archive. -/
def archivedDocument (now : ℤ) (taskIri : String) (doc : Value) : Value :=
  let doc := if isTerminalStatus ((textMember doc "status").getD "") then doc
    else setMember doc "status" (.string "completed")
  let doc := setMember doc "read_only" (.bool true)
  let doc := if (textMember doc "archived_at").isNone then
      setMember doc "archived_at" (.string (env.toRfc3339 now))
    else doc
  if (doc.get "@id").isNone then setMember doc "@id" (.string taskIri) else doc

/-- `archive_completed_task`, after `flush_oxigraph`. -/
def archiveCompletedTask (s : Blackboard) (now : ℤ) (taskIri : String) : Blackboard × Except BlackboardError Bool :=
  match s.nodeCache.lookup taskIri with
  | none => (s, .ok false)
  | some node =>
    match env.fromStr node.jsonLd with
    | .error _ => (s, .ok false)
    | .ok doc =>
      if !isTaskDocument doc || !documentHasScope doc then (s, .ok false)
      else
        let doc := archivedDocument env now taskIri doc
        if !isSparqlSubject env taskIri then
          (s, .error (.sparqlError ("task IRI cannot be archived: " ++ taskIri)))
        else
          match s.sync env none taskIri doc with
          | .error e => (s, .error e)
          | .ok s =>
            match s.persistServerTaskRecord env taskIri doc with
            | .error e => (s, .error e)
            | .ok s =>
              match s.syncNamedTaskGraph env taskArchiveGraph taskIri doc with
              | .error e => (s, .error e)
              | .ok s =>
                let archived := env.toString doc
                match s.nodeCache.lookup taskIri with
                | some node => ({ s with
                    nodeCache := s.nodeCache.insert taskIri
                      { node with size := archived.utf8ByteSize, jsonLd := archived, dirty := false } },
                    .ok true)
                | none => (s, .ok true)

end Blackboard

end WildAgentOs.Memory
