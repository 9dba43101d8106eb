import WildAgentOs.Core.Approvals
import WildAgentOs.Core.Reached

/-!
# Failure branches

The edge of a branch is an edge of the graph like others, and its condition is looked at by nothing: a node
behind a branch has its turn in its wave, whatever the results of its sources, and after a failure no later
node has.

* `BranchOnly`, `Fires`;
* `not_runs_of_fails`: no failure leads to the target of a branch;
* `branchesObeyed_iff`.
-/

namespace WildAgentOs.Core

open Memory Waves

variable {dag : WorkflowDag}

/-- All edges to the node are branches, and there is one. -/
def WorkflowDag.BranchOnly (dag : WorkflowDag) (v : dag.NodeIndex) : Prop :=
  (∃ edge ∈ dag.edges, edge.target = v) ∧ ∀ edge ∈ dag.edges, edge.target = v → edge.relation = .branch

/-- The result of a node that is run: what its agent returns, or the answer. -/
def nodeResult (env : ExecEnv dag) (n : dag.NodeIndex) : Option NodeResult :=
  if dag.IsApproval n then some (approvalResult (env.approval n)).toNodeResult
  else (env.agent n).toOption.map TaskResult.toNodeResult

/-- `should_branch` returns the node for the result of a source that is run. -/
def Fires (env : ExecEnv dag) (runs : dag.NodeIndex → Prop) (v : dag.NodeIndex) : Prop :=
  ∃ edge ∈ dag.edges, edge.relation = .branch ∧ edge.target = v ∧ runs edge.source ∧
    ∃ result, nodeResult env edge.source = some result ∧
      shouldBranch (dag.nodeDef edge.source) result = some (dag.nodeDef v).id

/-- The nodes behind branches run exactly upon their conditions. -/
def BranchesObeyed (env : ExecEnv dag) (events : List (PlanEvent dag)) : Prop :=
  ∀ v, dag.BranchOnly v → (Ran events v ↔ Fires env (Ran events) v)

/-- The results suit the branches.  A node behind branches that nothing keeps from its turn has a source that
meets its condition without a failure; and one that is kept from it has none that meets it. -/
structure SuitsBranches (params : ExecParams dag) (env : ExecEnv dag) : Prop where
  met : ∀ v, dag.BranchOnly v → Runs params env v →
    ∃ edge ∈ dag.edges, edge.relation = .branch ∧ edge.target = v ∧ Runs params env edge.source ∧
      ∃ result, nodeResult env edge.source = some result ∧ result.status ≠ "failed" ∧
        shouldBranch (dag.nodeDef edge.source) result = some (dag.nodeDef v).id
  unmet : ∀ v, dag.BranchOnly v → ¬Runs params env v → ¬Fires env (Runs params env) v

variable {params : ExecParams dag} {env : ExecEnv dag}

variable {edge : GraphEdge dag.nodes.length}

theorem incoming_of_edge (hedge : edge ∈ dag.edges) : edge.source ∈ dag.incoming edge.target :=
  List.mem_map_of_mem (List.mem_filter.2 ⟨hedge, decide_eq_true rfl⟩)

/-- A source that fails keeps the target from its turn, whatever the edge. -/
theorem not_runs_of_fails (horder : IsTopological dag.incoming params.order) (hedge : edge ∈ dag.edges)
    (hruns : Runs params env edge.source) (hagent : ¬dag.IsApproval edge.source) (hfails : Fails env edge.source) :
    ¬Runs params env edge.target := by
  intro htarget
  have hlt := waveOf_lt_of_pred horder (incoming_of_edge hedge)
  have hbefore := idxOf_lt_of_waveOf_lt horder.nodup horder.mem hlt
  have hpass : LetsPass params env edge.source edge.target := (due_iff.1 htarget.1).2 edge.source hbefore hruns.1
  exact ((hpass.2 hagent).2 hlt).1 hfails

/-- What keeps the target from its turn is the status of the source, not the branch. -/
theorem status_ne_failed_of_runs (horder : IsTopological dag.incoming params.order) (hedge : edge ∈ dag.edges)
    (hruns : Runs params env edge.source) (htarget : Runs params env edge.target) {result : NodeResult}
    (hresult : nodeResult env edge.source = some result) : result.status ≠ "failed" := by
  intro hfailed
  unfold nodeResult at hresult
  split_ifs at hresult with happroval
  · cases hresult
    unfold approvalResult TaskResult.toNodeResult at hfailed
    dsimp only at hfailed
    split_ifs at hfailed <;> exact absurd hfailed (by decide)
  · obtain ⟨returned, hreturned, rfl⟩ := Option.map_eq_some_iff.1 hresult
    refine not_runs_of_fails horder hedge hruns happroval (fun other hother => ?_) htarget
    rw [hother] at hreturned
    exact Option.some.inj hreturned ▸ hfailed

theorem parallelGroups_of_workflowPlan {penv : PlanEnv} {json : String} {plan : ExecutionPlan}
    (h : workflowPlan penv json = .ok plan) : plan.parallelGroups = [] := by
  unfold workflowPlan at h
  obtain ⟨wf, -, h⟩ := Except.bind_eq_ok_iff.1 h
  obtain ⟨dag, -, h⟩ := Except.bind_eq_ok_iff.1 h
  cases h
  rfl

/-- **When the branches of a workflow are obeyed.** -/
theorem branchesObeyed_iff {penv : PlanEnv} {oracle : (dag : WorkflowDag) → ExecEnv dag} {json : String}
    {plan : ExecutionPlan} {resumeSkipPhases : List AgentRole} {run : PlanRun} (hlaw : ToposortLaw penv.toposort)
    (hplan : workflowPlan penv json = .ok plan) (h : executePlan penv oracle plan resumeSkipPhases = .ok run) :
    BranchesObeyed (oracle run.dag) run.final.events ↔ SuitsBranches run.params (oracle run.dag) := by
  obtain ⟨-, horder, hgroups, -, hfinal⟩ := executePlan_eq_ok hlaw h
  have hparallel : run.params.parallelGroups = [] := hgroups.trans (parallelGroups_of_workflowPlan hplan)
  have hran : Ran run.final.events = Runs run.params (oracle run.dag) := by
    funext v
    rw [hfinal]
    exact propext (ran_iff hparallel horder)
  unfold BranchesObeyed
  rw [hran]
  constructor
  · intro hobeyed
    refine ⟨fun v hv hruns => ?_, fun v hv => mt (hobeyed v hv).2⟩
    obtain ⟨edge, hedge, hbranch, rfl, hsource, result, hresult, hshould⟩ := (hobeyed v hv).1 hruns
    exact ⟨edge, hedge, hbranch, rfl, hsource, result, hresult,
      status_ne_failed_of_runs horder hedge hsource hruns hresult, hshould⟩
  · intro hsuits v hv
    refine ⟨fun hruns => ?_, not_imp_not.1 (hsuits.unmet v hv)⟩
    obtain ⟨edge, hedge, hbranch, htarget, hsource, result, hresult, -, hshould⟩ := hsuits.met v hv hruns
    exact ⟨edge, hedge, hbranch, htarget, hsource, result, hresult, hshould⟩

/-! ### Examples -/

/-- A node `b` that is there for the failure of `a`. -/
def fallbackWorkflow : WorkflowDefinition where
  id := "wf:fallback"
  name := "Fallback"
  entryNode := "a"
  nodes := [{ plainNode "a" with branchOnFailure := some ⟨"$.result.status == 'failed'", "b"⟩ }, plainNode "b"]

def fallbackJson : String :=
  "\x7b\"@id\":\"wf:fallback\",\"name\":\"Fallback\",\"entry_node\":\"a\",\"nodes\":[" ++
    "\x7b\"@id\":\"a\",\"agent_role\":\"Do\",\"branch_on_failure\":\x7b" ++
    "\"condition\":\"$.result.status == 'failed'\",\"target\":\"b\"\x7d\x7d," ++
    "\x7b\"@id\":\"b\",\"agent_role\":\"Do\"\x7d]\x7d"

def fallbackDag : WorkflowDag := ⟨fallbackWorkflow.nodes, [⟨⟨0, by decide⟩, ⟨1, by decide⟩, .branch⟩], ⟨0, by decide⟩⟩

def fallbackNode (i : Fin 2) : fallbackDag.NodeIndex := i

def fallbackParams : ExecParams fallbackDag :=
  ⟨[], [fallbackNode ⟨0, Nat.two_pos⟩, fallbackNode ⟨1, Nat.one_lt_two⟩], []⟩

def fallbackPlan : ExecutionPlan where
  planId := "wf:fallback"
  agentSequence := [.doing, .doing]
  parallelGroups := []
  description := "Fallback"
  steps := [nodeToPlanstep (plainNode "a"), nodeToPlanstep (plainNode "b")]
  dagJsonld := some fallbackJson
  verifyFirst := false
  fallbackSteps := []

theorem workflowPlan_fallback :
    workflowPlan (samplePlanEnv fallbackJson fallbackWorkflow) fallbackJson = .ok fallbackPlan := by
  decide +kernel

theorem executePlan_fallback : executePlan (samplePlanEnv fallbackJson fallbackWorkflow) sampleOracle fallbackPlan [] =
      .ok ⟨fallbackDag, fallbackParams, executeDag fallbackParams (sampleOracle fallbackDag)⟩ := by
  have hdag : planDag (samplePlanEnv fallbackJson fallbackWorkflow) fallbackPlan = .ok fallbackDag := by
    decide +kernel
  have horder : topologicalOrder fallbackDag trialToposort = .ok [fallbackNode 0, fallbackNode 1] := by
    decide +kernel
  exact executePlan_of_parts hdag horder sampleOracle []

/-- `a` succeeds, and `b` is dispatched all the same. -/
theorem not_branchesObeyed_fallback : ∃ (penv : PlanEnv) (oracle : (dag : WorkflowDag) → ExecEnv dag) (json : String)
      (plan : ExecutionPlan) (run : PlanRun), ToposortLaw penv.toposort ∧
        workflowPlan penv json = .ok plan ∧ executePlan penv oracle plan [] = .ok run ∧
        ¬BranchesObeyed (oracle run.dag) run.final.events := by
  refine ⟨_, _, _, _, _, toposortLaw_trialToposort, workflowPlan_fallback, executePlan_fallback, fun hobeyed => ?_⟩
  have hbranch : fallbackDag.BranchOnly (fallbackNode 1) := by
    unfold WorkflowDag.BranchOnly
    decide
  have hran : Ran (executeDag fallbackParams (sampleOracle fallbackDag)).events (fallbackNode 1) := by
    unfold Ran
    decide +kernel
  obtain ⟨edge, hedge, -, -, -, result, hresult, hshould⟩ := (hobeyed _ hbranch).1 hran
  obtain rfl := List.mem_singleton.1 hedge
  have hsuccess : nodeResult (sampleOracle fallbackDag) (fallbackNode 0) = some ⟨"success", ""⟩ := by
    decide +kernel
  obtain rfl := Option.some.inj (hsuccess.symm.trans hresult)
  exact absurd hshould (by decide +kernel)

theorem branchesObeyed_iff_fallback : BranchesObeyed (sampleOracle fallbackDag)
        (executeDag fallbackParams (sampleOracle fallbackDag)).events ↔
      SuitsBranches fallbackParams (sampleOracle fallbackDag) :=
  branchesObeyed_iff toposortLaw_trialToposort workflowPlan_fallback executePlan_fallback

end WildAgentOs.Core
