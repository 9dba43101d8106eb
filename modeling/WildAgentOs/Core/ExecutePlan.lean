import WildAgentOs.Core.Workflow
import WildAgentOs.Lib.Result
import WildAgentOs.Memory.L0Store

/-!
# The execution of a plan

`execute_plan` of `core/sa/execution.rs`: the graph of a plan, wave by wave.  The nodes of a wave are
prepared one after the other (skipped, asked for approval, or made a task), and the tasks are dispatched
together; then their results are handled in the order of the wave.

What the supervisor is told from outside is a parameter: the replies to approval requests, what comes of
the supplementary input, and the results of the agents.

* `TaskResult`, `AgentOutcome`, `dispatchAgentsParallel`, `ExecEnv`, `PlanEvent`, `ExecState`;
* `preNode`, `handleStepResult`, `execWave`, `executeDag`, `executePlan`.
-/

namespace WildAgentOs.Core

open Memory List Except

inductive TaskVerdict
  | success
  | partialSuccess
  | failed
  | blocked
  | timeout
  deriving DecidableEq

inductive ActionStatus
  | success
  | failed
  | retried
  deriving DecidableEq

/-- A tool call of an agent. -/
structure TrackedAction where
  actionId : String
  toolName : String
  agentRole : String
  status : ActionStatus
  error : Option String
  deriving DecidableEq

structure TaskResult where
  status : String
  verdict : Option TaskVerdict
  summary : String
  errors : List String
  trackedActions : List TrackedAction
  deriving DecidableEq

/-- What `should_branch` looks at. -/
def TaskResult.toNodeResult (result : TaskResult) : NodeResult := ⟨result.status, result.summary⟩

/-- `carry_tracked_actions`: the tool calls of the result before, and those of this one. -/
def carryTrackedActions (result : TaskResult) : Option TaskResult → TaskResult
  | none => result
  | some prior =>
    if prior.trackedActions = [] then result
    else { result with trackedActions := prior.trackedActions ++ result.trackedActions }

def collectTrackedActions (prior : Option TaskResult) (results : List TaskResult) : List TrackedAction :=
  (prior.map TaskResult.trackedActions).getD [] ++ results.flatMap TaskResult.trackedActions

/-- What is joined of an agent that was spawned. -/
inductive AgentOutcome
  | returned (result : TaskResult)
  | error (e : CoreError)
  | panicked (message : String)
  deriving DecidableEq

def AgentOutcome.result? : AgentOutcome → Option TaskResult
  | .returned result => some result
  | .error _ => none
  | .panicked _ => none

/-- `dispatch_agents_parallel`: so many agents are spawned, and the results of those that return one are
kept.  An error and a panic are logged. -/
def dispatchAgentsParallel (count : ℕ) (outcome : ℕ → AgentOutcome) : List TaskResult :=
  (List.range count).filterMap fun i => (outcome i).result?

/-- The result of an approval, as it came. -/
structure ApprovalReply where
  approved : Option Bool
  comment : Option String
  deriving DecidableEq

structure HumanApprovalNodeResult where
  nodeId : String
  approved : Bool
  comment : Option String
  deriving DecidableEq

/-- `request_human_approval_general`, by the reply that came in time. -/
def requestHumanApprovalGeneral (nodeId : String) : Option ApprovalReply → HumanApprovalNodeResult
  | some reply => ⟨nodeId, reply.approved.getD false, reply.comment⟩
  | none => ⟨nodeId, false, some "Approval timeout, default rejected"⟩

/-- The text of an error. -/
def displayError : CoreError → String
  | .permissionDenied agent resource action =>
    "Permission denied: agent '" ++ agent ++ "' cannot " ++ action ++ " on '" ++ resource ++ "'"
  | .storageError message => "Storage error: " ++ message
  | .internal message => "Internal error: " ++ message

variable {dag : WorkflowDag}

/-- What comes from outside, at each node, and of each of the agents of a parallel group. -/
structure ExecEnv (dag : WorkflowDag) where
  reply : dag.NodeIndex → Option ApprovalReply
  supplementary : dag.NodeIndex → Except CoreError Unit
  agent : dag.NodeIndex → Except CoreError TaskResult
  parallelAgents : dag.NodeIndex → ℕ → AgentOutcome

namespace ExecEnv

def approval (env : ExecEnv dag) (ni : dag.NodeIndex) : HumanApprovalNodeResult :=
  requestHumanApprovalGeneral (dag.nodeDef ni).id (env.reply ni)

end ExecEnv

/-- What is done. -/
inductive PlanEvent (dag : WorkflowDag)
  | asked (ni : dag.NodeIndex)
  | answered (ni : dag.NodeIndex) (approved : Bool)
  | dispatched (ni : dag.NodeIndex)
  /-- The result of a step is handled, and its checkpoint written. -/
  | completed (ni : dag.NodeIndex) (result : TaskResult)
  /-- The supplementary input of a step ends the plan. -/
  | interrupted (ni : dag.NodeIndex)
  deriving DecidableEq

/-- The variables of `execute_plan`, with what was done, and how it ended. -/
structure ExecState (dag : WorkflowDag) where
  skipNodes : List String
  agentTasks : List (dag.NodeIndex × ℕ)
  lastResult : Option TaskResult
  events : List (PlanEvent dag)
  ended : Option (Except CoreError TaskResult)

namespace ExecState

def start : ExecState dag := ⟨[], [], none, [], none⟩

def emit (s : ExecState dag) (event : PlanEvent dag) : ExecState dag := { s with events := s.events ++ [event] }

/-- `return`. -/
def finish (s : ExecState dag) (result : Except CoreError TaskResult) : ExecState dag := { s with ended := some result }

end ExecState

/-- What `execute_plan` runs with: the parallel groups of the plan, the order, and the phases that were
completed before. -/
structure ExecParams (dag : WorkflowDag) where
  parallelGroups : List (List AgentRole)
  order : List dag.NodeIndex
  resumeSkipPhases : List AgentRole

variable (params : ExecParams dag) (env : ExecEnv dag)

namespace ExecParams

/-- The ids after a position. -/
def idsAfter (wi : ℕ) : List String := (params.order.drop (wi + 1)).map fun ni => (dag.nodeDef ni).id

/-- The ids from a position to a target, or to the end. -/
def jump (wi : ℕ) (target : String) : List String :=
  if target ∈ params.idsAfter wi then (params.idsAfter wi).takeWhile fun id => id ≠ target
  else params.idsAfter wi

/-- Where an answer leads to. -/
def approvalTarget (node : WorkflowNodeDef) (approved : Bool) : Option String :=
  if approved then node.approvalNextOnApprove else node.approvalNextOnReject

/-- The ids that an answer skips. -/
def jumped (ni : dag.NodeIndex) (wi : ℕ) (approved : Bool) : List String :=
  match approvalTarget (dag.nodeDef ni) approved with
  | some target => params.jump wi target
  | none => []

def isParallel (role : AgentRole) : Bool := params.parallelGroups.any fun group => 1 < group.length ∧ role ∈ group

/-- `matching_groups.first()`: the group that says how many agents a step has.  A group of one is not left
out here. -/
def parallelGroup (role : AgentRole) : Option (List AgentRole) := params.parallelGroups.find? fun group => role ∈ group

end ExecParams

/-- The result that stands for an approval. -/
def approvalResult (approval : HumanApprovalNodeResult) : TaskResult where
  status := if approval.approved then "approved" else "rejected"
  verdict := none
  summary := "[HumanApproval] " ++ (if approval.approved then "Approved" else "Rejected") ++ ": " ++
    approval.comment.getD ""
  errors := []
  trackedActions := []

/-- `HumanApprovalNode`: the request, the answer, and the jump. -/
def approvalNode (s : ExecState dag) (ni : dag.NodeIndex) (wi : ℕ) : ExecState dag :=
  let approval := env.approval ni
  { s with
    events := s.events ++ [.asked ni, .answered ni approval.approved]
    lastResult := some (carryTrackedActions (approvalResult approval) s.lastResult)
    skipNodes := s.skipNodes ++ params.jumped ni wi approval.approved }

/-- What is returned when an agent of a parallel group failed. -/
def partialFailure (role : AgentRole) (failed : TaskResult) (trackedActions : List TrackedAction) : TaskResult where
  status := "partial_failure"
  verdict := none
  summary := "Some parallel " ++ role.debug ++ " agents failed"
  errors := failed.errors
  trackedActions

/-- The last result after those of a parallel group, which may be none. -/
def lastOfParallel (prior : Option TaskResult) (results : List TaskResult) : Option TaskResult :=
  let trackedActions := collectTrackedActions prior results
  match results.getLast? with
  | some result => some { result with trackedActions }
  | none => prior.map fun prior => { prior with trackedActions }

/-- A step of a parallel group: its agents are dispatched at once. -/
def parallelNode (s : ExecState dag) (ni : dag.NodeIndex) (role : AgentRole) : ExecState dag :=
  match params.parallelGroup role with
  | none => s
  | some group =>
    let s := s.emit (.dispatched ni)
    let results := dispatchAgentsParallel group.length (env.parallelAgents ni)
    match results.find? fun result => result.status = "failed" with
    | some failed =>
      s.finish (.ok (partialFailure role failed (collectTrackedActions s.lastResult results)))
    | none => { s with lastResult := lastOfParallel s.lastResult results }

/-- The first phase, for one node. -/
def preNode (s : ExecState dag) (slot : dag.NodeIndex × ℕ) : ExecState dag :=
  if s.ended.isSome then s
  else
    let nd := dag.nodeDef slot.1
    let step := nodeToPlanstep nd
    if nd.id ∈ s.skipNodes then s
    else if step.role ∈ params.resumeSkipPhases then s
    else if nd.nodeType = "HumanApprovalNode" then approvalNode params env s slot.1 slot.2
    else
      match env.supplementary slot.1 with
      | .error e => (s.emit (.interrupted slot.1)).finish (.error e)
      | .ok () =>
        if params.isParallel step.role then parallelNode params env s slot.1 step.role
        else { s with agentTasks := s.agentTasks ++ [slot] }

/-- `handle_step_result`: a failure ends the plan, and after an `Act` everything is skipped. -/
def handleStepResult (s : ExecState dag) (slot : dag.NodeIndex × ℕ) (result : TaskResult) :
    ExecState dag :=
  let step := nodeToPlanstep (dag.nodeDef slot.1)
  if result.status = "failed" then
    s.finish (.ok
      { status := "failed"
        verdict := none
        summary := "Agent " ++ step.role.debug ++ " failed at step " ++ step.stepId ++
          (match result.errors.head? with
          | some e => "\n\n**Error details**: " ++ e
          | none => "")
        errors := result.errors
        trackedActions := collectTrackedActions s.lastResult [result] })
  else
    { s with
      skipNodes := s.skipNodes ++ (if step.role = .act then params.idsAfter slot.2 else [])
      lastResult := some (carryTrackedActions result s.lastResult)
      events := s.events ++ [.completed slot.1 result] }

/-- What comes of one of several tasks of a wave. -/
def handleWaveResult (s : ExecState dag) (slot : dag.NodeIndex × ℕ) : ExecState dag :=
  if s.ended.isSome then s
  else
    match env.agent slot.1 with
    | .error e => s.finish (.ok
        ⟨"failed", none, "Wave node dispatch failed: " ++ displayError e, [],
          collectTrackedActions s.lastResult []⟩)
    | .ok result => handleStepResult params s slot result

/-- The second phase: all tasks of the wave are dispatched, then their results are handled. -/
def dispatchTasks (s : ExecState dag) : ExecState dag :=
  match s.agentTasks with
  | [] => s
  | [slot] =>
    let s := s.emit (.dispatched slot.1)
    match env.agent slot.1 with
    | .error e => s.finish (.error e)
    | .ok result => handleStepResult params s slot result
  | tasks =>
    tasks.foldl (handleWaveResult params env)
      { s with events := s.events ++ tasks.map fun slot => .dispatched slot.1 }

def execWave (s : ExecState dag) (wave : List (dag.NodeIndex × ℕ)) : ExecState dag :=
  if s.ended.isSome then s
  else
    let s := wave.foldl (preNode params env) { s with agentTasks := [] }
    if s.ended.isSome then s else dispatchTasks params env s

/-- The loop over the waves. -/
def executeDag : ExecState dag := (Waves.waves dag.incoming params.order).foldl (execWave params env) .start

/-- What is returned. -/
def ExecState.result (s : ExecState dag) : Except CoreError TaskResult :=
  match s.ended with
  | some result => result
  | none => .ok (s.lastResult.getD ⟨"completed", none, "No agents executed", [], []⟩)

/-! ### Plans -/

/-- The reader of workflows, and `petgraph::algo::toposort`. -/
structure PlanEnv where
  loadWorkflowJsonld : String → Except String WorkflowDefinition
  toposort : (n : ℕ) → List (Fin n × Fin n) → Except (Fin n) (List (Fin n))

/-- The graph of a plan: that of its workflow, or of its steps. -/
def planDag (penv : PlanEnv) (plan : ExecutionPlan) : Except CoreError WorkflowDag := do
  let wf ← match plan.dagJsonld with
    | some json => (penv.loadWorkflowJsonld json).mapError fun e =>
        CoreError.internal ("Workflow parsing failed: " ++ e)
    | none => Except.ok (planToWorkflow plan)
  (buildDag wf).mapError fun e => .internal ("DAG build failed: " ++ e)

/-- The graph and the order that a plan is executed with, and the execution. -/
structure PlanRun where
  dag : WorkflowDag
  params : ExecParams dag
  final : ExecState dag

def executePlan (penv : PlanEnv) (oracle : (dag : WorkflowDag) → ExecEnv dag) (plan : ExecutionPlan)
    (resumeSkipPhases : List AgentRole) : Except CoreError PlanRun := do
  let dag ← planDag penv plan
  let order ← (topologicalOrder dag penv.toposort).mapError fun e =>
    .internal ("Topological sort failed: " ++ e)
  let params : ExecParams dag := ⟨plan.parallelGroups, order, resumeSkipPhases⟩
  return ⟨dag, params, executeDag params (oracle dag)⟩

/-- The plan that `process_task_with_context` makes of a workflow. -/
def workflowPlan (penv : PlanEnv) (json : String) : Except CoreError ExecutionPlan := do
  let wf ← (penv.loadWorkflowJsonld json).mapError fun e =>
    CoreError.internal ("Workflow parsing failed: " ++ e)
  let dag ← (buildDag wf).mapError fun e => CoreError.internal ("DAG build failed: " ++ e)
  return { dagToExecutionPlan dag (topologicalOrder dag penv.toposort) wf with dagJsonld := some json }

/-- `toposort` orders each node before its successors. -/
def ToposortLaw (toposort : (n : ℕ) → List (Fin n × Fin n) → Except (Fin n) (List (Fin n))) : Prop :=
  ∀ n edges order, toposort n edges = .ok order → order.Nodup ∧ (∀ v, v ∈ order) ∧
    ∀ edge ∈ edges, order.idxOf edge.1 < order.idxOf edge.2

variable {penv : PlanEnv} {dag : WorkflowDag} {order : List dag.NodeIndex}

theorem isTopological_of_topologicalOrder (hlaw : ToposortLaw penv.toposort)
    (h : topologicalOrder dag penv.toposort = .ok order) : Waves.IsTopological dag.incoming order := by
  unfold topologicalOrder at h
  obtain ⟨hnodup, hmem, hlt⟩ := hlaw _ _ order (mapError_eq_ok_iff.1 h)
  refine Waves.isTopological_of_idxOf hnodup hmem fun p n hp => ?_
  obtain ⟨edge, hedge, rfl⟩ := mem_map.1 hp
  rw [mem_filter, decide_eq_true_eq] at hedge
  obtain ⟨hin, rfl⟩ := hedge
  exact hlt (edge.source, edge.target) (mem_map_of_mem hin)

variable {oracle : (dag : WorkflowDag) → ExecEnv dag} {plan : ExecutionPlan} {resumeSkipPhases : List AgentRole}

variable {run : PlanRun}

theorem exists_parts (h : executePlan penv oracle plan resumeSkipPhases = .ok run) :
    planDag penv plan = .ok run.dag ∧ topologicalOrder run.dag penv.toposort = .ok run.params.order ∧
      run.params.parallelGroups = plan.parallelGroups ∧
      run.params.resumeSkipPhases = resumeSkipPhases ∧
      run.final = executeDag run.params (oracle run.dag) := by
  unfold executePlan at h
  obtain ⟨dag, hdag, h⟩ := bind_eq_ok_iff.1 h
  obtain ⟨order, horder, h⟩ := bind_eq_ok_iff.1 h
  cases h
  exact ⟨hdag, mapError_eq_ok_iff.1 horder, rfl, rfl, rfl⟩

theorem executePlan_eq_ok (hlaw : ToposortLaw penv.toposort)
    (h : executePlan penv oracle plan resumeSkipPhases = .ok run) :
    planDag penv plan = .ok run.dag ∧ Waves.IsTopological run.dag.incoming run.params.order ∧
      run.params.parallelGroups = plan.parallelGroups ∧
      run.params.resumeSkipPhases = resumeSkipPhases ∧
      run.final = executeDag run.params (oracle run.dag) := by
  obtain ⟨hdag, horder, hrest⟩ := exists_parts h
  exact ⟨hdag, isTopological_of_topologicalOrder hlaw horder, hrest⟩

theorem executePlan_of_parts (hdag : planDag penv plan = .ok dag)
    (horder : topologicalOrder dag penv.toposort = .ok order)
    (oracle : (dag : WorkflowDag) → ExecEnv dag) (resumeSkipPhases : List AgentRole) :
    executePlan penv oracle plan resumeSkipPhases =
      .ok ⟨dag, ⟨plan.parallelGroups, order, resumeSkipPhases⟩,
        executeDag ⟨plan.parallelGroups, order, resumeSkipPhases⟩ (oracle dag)⟩ :=
  bind_eq_ok_iff.2 ⟨dag, hdag, bind_eq_ok_iff.2 ⟨order, mapError_eq_ok_iff.2 horder, rfl⟩⟩

/-- An order that is found by trial, from the last node to the first. -/
def trialToposort (n : ℕ) (edges : List (Fin n × Fin n)) : Except (Fin n) (List (Fin n)) :=
  match (List.finRange n).reverse.permutations'.find? fun order =>
      edges.all fun edge => order.idxOf edge.1 < order.idxOf edge.2 with
  | some order => .ok order
  | none =>
    match edges with
    | [] => .ok (List.finRange n).reverse
    | edge :: _ => .error edge.1

theorem toposortLaw_trialToposort : ToposortLaw trialToposort := by
  intro n edges order h
  have hofPerm : order.Perm (List.finRange n).reverse → order.Nodup ∧ ∀ v, v ∈ order := fun hperm =>
    ⟨hperm.nodup_iff.2 (nodup_reverse.2 (nodup_finRange n)), fun v =>
      hperm.mem_iff.2 (mem_reverse.2 (mem_finRange v))⟩
  unfold trialToposort at h
  split at h
  next found hfound =>
    cases h
    obtain ⟨hnodup, hmem⟩ := hofPerm (mem_permutations'.1 (mem_of_find?_eq_some hfound))
    refine ⟨hnodup, hmem, fun edge hedge => ?_⟩
    have hall := find?_some hfound
    exact of_decide_eq_true (all_eq_true.1 hall edge hedge)
  next =>
    split at h
    next =>
      cases h
      obtain ⟨hnodup, hmem⟩ := hofPerm (Perm.refl _)
      exact ⟨hnodup, hmem, fun _ h => (nomatch h)⟩
    next => cases h

end WildAgentOs.Core
