import WildAgentOs.Lib.Text
import WildAgentOs.Lib.Waves

/-!
# Workflows

`core/workflow`: workflow definitions, the graph that `build_dag` makes of one, the conditions of its
branches, and the way between workflows and execution plans.

* `WorkflowNodeDef`, `WorkflowDefinition`, `WorkflowDag`, `buildDag`, `shouldBranch`;
* `PlanStep`, `ExecutionPlan`, `planToWorkflow`, `nodeToPlanstep`, `dagToExecutionPlan`.
-/

namespace WildAgentOs.Core

open Text

/-- `Plan`, `Do`, `Check` and `Act`. -/
inductive AgentRole
  | plan
  | doing
  | check
  | act
  deriving DecidableEq

/-- `{:?}`. -/
def AgentRole.debug : AgentRole → String
  | .plan => "Plan"
  | .doing => "Do"
  | .check => "Check"
  | .act => "Act"

structure BranchCondition where
  condition : String
  target : String
  deriving DecidableEq

structure WorkflowNodeDef where
  id : String
  nodeType : String
  agentRole : String
  objective : String
  next : Option String
  nextNodes : List String
  dependencies : List String
  tools : List String
  expectedOutput : String
  successCriteria : String
  branchOnFailure : Option BranchCondition
  approvalPrompt : String
  approvalNextOnApprove : Option String
  approvalNextOnReject : Option String
  deriving DecidableEq

structure WorkflowDefinition where
  id : String
  name : String
  entryNode : String
  nodes : List WorkflowNodeDef
  deriving DecidableEq

structure NodeResult where
  status : String
  summary : String
  deriving DecidableEq

/-! ### The graph -/

/-- `"next"`, `"dependency"` and `"branch"`. -/
inductive EdgeRelation
  | next
  | dependency
  | branch
  deriving DecidableEq

structure GraphEdge (n : ℕ) where
  source : Fin n
  target : Fin n
  relation : EdgeRelation
  deriving DecidableEq

structure WorkflowDag where
  nodes : List WorkflowNodeDef
  edges : List (GraphEdge nodes.length)
  entryNode : Fin nodes.length
  deriving DecidableEq

namespace WorkflowDag

abbrev NodeIndex (dag : WorkflowDag) : Type := Fin dag.nodes.length

/-- `dag.graph[ni].def`. -/
def nodeDef (dag : WorkflowDag) (ni : dag.NodeIndex) : WorkflowNodeDef := dag.nodes.get ni

/-- `neighbors_directed(ni, Incoming)`. -/
def incoming (dag : WorkflowDag) (ni : dag.NodeIndex) : List dag.NodeIndex :=
  (dag.edges.filter fun edge => edge.target = ni).map GraphEdge.source

end WorkflowDag

/-- `node_index`: an id stands for its last node. -/
def nodeIndex (nodes : List WorkflowNodeDef) (id : String) : Option (Fin nodes.length) :=
  (List.finRange nodes.length).reverse.find? fun i => (nodes.get i).id = id

/-- The edges that `build_dag` adds for a node.  Ids that no node has are left out. -/
def nodeEdges (nodes : List WorkflowNodeDef) (node : WorkflowNodeDef) : Except String (List (GraphEdge nodes.length)) :=
  match nodeIndex nodes node.id with
  | none => .error ("Node " ++ node.id ++ " not found in node_index")
  | some src => .ok (
    (node.next.toList ++ node.nextNodes).filterMap
      (fun id => (nodeIndex nodes id).map fun dst => ⟨src, dst, .next⟩) ++
    node.dependencies.filterMap
      (fun id => (nodeIndex nodes id).map fun dep => ⟨dep, src, .dependency⟩) ++
    (node.branchOnFailure.toList.filter fun branch => branch.target ≠ node.id).filterMap
      (fun branch => (nodeIndex nodes branch.target).map fun dst => ⟨src, dst, .branch⟩))

def buildDag (wf : WorkflowDefinition) : Except String WorkflowDag :=
  if wf.nodes = [] then .error "No nodes in workflow definition"
  else do
    let edges ← wf.nodes.mapM (nodeEdges wf.nodes)
    match nodeIndex wf.nodes wf.entryNode with
    | none => .error ("Entry node '" ++ wf.entryNode ++ "' not found in node list")
    | some entryNode => .ok ⟨wf.nodes, edges.flatten, entryNode⟩

def shouldBranch (node : WorkflowNodeDef) (result : NodeResult) : Option String :=
  node.branchOnFailure.bind fun branch =>
    let isMatch :=
      if branch.condition = "$.result.status == 'failed'" then decide (result.status = "failed")
      else if branch.condition = "$.result.status == 'success'" then decide (result.status = "success")
      else
        let cond := trim branch.condition.toList
        decide (result.status.toList = cond) || decide (cond <:+: result.summary.toList)
    if isMatch then some branch.target else none

/-! ### Plans -/

structure PlanStep where
  stepId : String
  role : AgentRole
  objective : String
  expectedOutput : String
  dependencies : List String
  toolsAllowed : List String
  successCriteria : String
  deriving DecidableEq

structure ExecutionPlan where
  planId : String
  agentSequence : List AgentRole
  parallelGroups : List (List AgentRole)
  description : String
  steps : List PlanStep
  dagJsonld : Option String
  verifyFirst : Bool
  fallbackSteps : List PlanStep
  deriving DecidableEq

def parseRoleFromStr (role : String) : AgentRole :=
  let role := String.ofList (toLowercase role.toList)
  if role = "plan" ∨ role = "pa" then .plan
  else if role = "do" ∨ role = "da" ∨ role = "executor" then .doing
  else if role = "check" ∨ role = "ca" ∨ role = "reviewer" then .check
  else if role = "act" ∨ role = "aa" ∨ role = "decision" then .act
  else .doing

def nodeToPlanstep (node : WorkflowNodeDef) : PlanStep where
  stepId := node.id
  role := parseRoleFromStr node.agentRole
  objective := node.objective
  expectedOutput := if node.expectedOutput = "" then node.successCriteria else node.expectedOutput
  dependencies := node.dependencies
  toolsAllowed := node.tools
  successCriteria := node.successCriteria

/-- The node of a step, before it is linked to others. -/
def stepToNode (planId : String) (step : PlanStep) : WorkflowNodeDef where
  id := "wf:" ++ planId ++ "/" ++ step.stepId
  nodeType := "AgentNode"
  agentRole := step.role.debug
  objective := step.objective
  next := none
  nextNodes := []
  dependencies := step.dependencies
  tools := step.toolsAllowed
  expectedOutput := step.expectedOutput
  successCriteria := step.successCriteria
  branchOnFailure := none
  approvalPrompt := ""
  approvalNextOnApprove := none
  approvalNextOnReject := none

/-- Change the first node with an id. -/
def updateFirst (nodes : List WorkflowNodeDef) (id : String)
    (f : WorkflowNodeDef → WorkflowNodeDef) : List WorkflowNodeDef :=
  match nodes.findIdx? fun node => node.id = id with
  | some i => nodes.modify i f
  | none => nodes

/-- The loop of `plan_to_workflow`: each node is the next one of the node before it. -/
def chainSteps (planId : String) (nodes : List WorkflowNodeDef) : Option String → List PlanStep → List WorkflowNodeDef
  | _, [] => nodes
  | none, step :: steps =>
    let node := stepToNode planId step
    chainSteps planId (nodes ++ [node]) (some node.id) steps
  | some pid, step :: steps =>
    let node := stepToNode planId step
    let nodes := updateFirst nodes pid fun prev => { prev with next := some node.id }
    let node := if pid ∈ node.dependencies then node
      else { node with dependencies := node.dependencies ++ [pid] }
    chainSteps planId (nodes ++ [node]) (some node.id) steps

/-- The fork before a parallel group. -/
def parallelUpdate (nodes : List WorkflowNodeDef) (group : List AgentRole) : Option (String × List String) := do
  let roles := group.map AgentRole.debug
  let firstIdx ← nodes.findIdx? fun node => node.agentRole ∈ roles
  if firstIdx = 0 then none
  else
    let prev ← nodes[firstIdx - 1]?
    some (prev.id, ((nodes.drop firstIdx).filter fun node => node.agentRole ∈ roles).map (·.id))

def planToWorkflow (plan : ExecutionPlan) : WorkflowDefinition :=
  let nodes := chainSteps plan.planId [] none plan.steps
  let updates := (plan.parallelGroups.filter fun group => 1 < group.length).filterMap
    (parallelUpdate nodes)
  { id := "iri://workflow/" ++ plan.planId
    name := plan.description
    entryNode := (nodes.head?.map (·.id)).getD ""
    nodes := updates.foldl (fun nodes update => updateFirst nodes update.1 fun prev =>
      { prev with nextNodes := update.2, next := none }) nodes }

/-- `topological_order`, by what `toposort` answers: an order, or a node of a cycle. -/
def topologicalOrder (dag : WorkflowDag)
    (toposort : (n : ℕ) → List (Fin n × Fin n) → Except (Fin n) (List (Fin n))) :
    Except String (List dag.NodeIndex) :=
  (toposort dag.nodes.length (dag.edges.map fun edge => (edge.source, edge.target))).mapError
    fun cycleNode => "Cycle detected involving node: " ++ (dag.nodeDef cycleNode).id

/-- `dag_to_execution_plan`, in the order of `topological_order`, or else of the nodes. -/
def dagToExecutionPlan (dag : WorkflowDag) (order : Except String (List dag.NodeIndex))
    (wf : WorkflowDefinition) : ExecutionPlan :=
  let order := match order with
    | .ok order => order
    | .error _ => List.finRange dag.nodes.length
  let steps := order.map fun ni => nodeToPlanstep (dag.nodeDef ni)
  { planId := wf.id
    agentSequence := steps.map PlanStep.role
    parallelGroups := []
    description := wf.name
    steps
    dagJsonld := none
    verifyFirst := false
    fallbackSteps := [] }

end WildAgentOs.Core
