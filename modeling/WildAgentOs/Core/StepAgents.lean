import WildAgentOs.Core.ParallelFailures

/-!
# The agents of a step

How many agents are started for each step of a plan.  A plan that the supervisor makes is turned into a
chain of nodes, a fork of which for each parallel group only adds edges; each node is dispatched once; and
a node whose role is in a parallel group starts as many agents as the first group with its role has
members, not one.

* `agentCount`, `agentsStarted`, `Embodies`, `dispatched_once`, `dispatchesEachOnce_iff`.
-/

namespace WildAgentOs.Core

open Memory Waves List Except PlanEvent

/-- The agents that one step with the role starts. -/
def agentCount (groups : List (List AgentRole)) (role : AgentRole) : ℕ :=
  if groups.any fun group => 1 < group.length ∧ role ∈ group then
    ((groups.find? fun group => role ∈ group).map List.length).getD 0
  else 1

/-- The node that a step is executed as. -/
def ExecutionPlan.nodeId (plan : ExecutionPlan) (step : PlanStep) : String :=
  match plan.dagJsonld with
  | none => (stepToNode plan.planId step).id
  | some _ => step.stepId

section

variable {dag : WorkflowDag}

/-- The agents that are started by a dispatch. -/
def startedBy (params : ExecParams dag) (id : String) : PlanEvent dag → ℕ
  | .dispatched ni =>
    if (dag.nodeDef ni).id = id then agentCount params.parallelGroups (dag.role ni) else 0
  | _ => 0

/-- The agents that are started for the nodes with an id. -/
def agentsStarted (params : ExecParams dag) (events : List (PlanEvent dag)) (id : String) : ℕ :=
  (events.map (startedBy params id)).sum

variable {params : ExecParams dag}

variable {n : dag.NodeIndex}

theorem agentsStarted_eq
    (hunique : ∀ m, (dag.nodeDef m).id = (dag.nodeDef n).id → m = n) (events : List (PlanEvent dag)) :
    agentsStarted params events (dag.nodeDef n).id =
      events.count (.dispatched n) * agentCount params.parallelGroups (dag.role n) := by
  induction events with
  | nil => exact (Nat.zero_mul _).symm
  | cons event events ih =>
    have hcons : agentsStarted params (event :: events) (dag.nodeDef n).id =
        startedBy params (dag.nodeDef n).id event + agentsStarted params events (dag.nodeDef n).id := rfl
    rw [hcons, ih, count_cons, Nat.add_mul, Nat.add_comm]
    congr 1
    by_cases heq : event = .dispatched n
    · rw [heq]
      simp [startedBy]
    · rw [if_neg (by simpa using heq), Nat.zero_mul]
      cases event with
      | dispatched m =>
        have hne : (dag.nodeDef m).id ≠ (dag.nodeDef n).id := fun hid => heq (by rw [hunique m hid])
        exact if_neg hne
      | asked | answered | completed | interrupted => rfl

/-! ### Each node is dispatched once -/

structure AgentsSucceed (env : ExecEnv dag) : Prop where
  single : ∀ ni, ∃ result, env.agent ni = .ok result ∧ result.status = "success"
  parallel : ∀ ni i, ∃ result, env.parallelAgents ni i = .returned result ∧ result.status = "success"

/-- No `Act` that was completed has later nodes to skip. -/
def NoActEnds (params : ExecParams dag) (events : List (PlanEvent dag)) : Prop :=
  ∀ ni result, .completed ni result ∈ events → dag.role ni = .act → params.idsAfter (params.order.idxOf ni) = []

/-- Nothing keeps an agent from a node. -/
structure Ready (params : ExecParams dag) (env : ExecEnv dag) (ni : dag.NodeIndex) : Prop where
  phase : dag.role ni ∉ params.resumeSkipPhases
  agent : ¬dag.IsApproval ni
  supplied : env.supplementary ni = .ok ()

variable {params : ExecParams dag} {env : ExecEnv dag} {s : ExecState dag} {ni : dag.NodeIndex}

theorem ready_of_not_leftOut (hrun : ¬LeftOut params s ni)
    (hagent : ¬dag.IsApproval ni) (hok : env.supplementary ni = .ok ()) : Ready params env ni :=
  ⟨fun hphase => hrun (.inr hphase), hagent, hok⟩

theorem ready_of_dispatched (h : .dispatched n ∈ (executeDag params env).events) : Ready params env n := by
  have hrule : ∃ _ _, _ := @executeDag_rule dag params env
    (fun _ _ s => (∀ n, .dispatched n ∈ s.events → Ready params env n) ∧ ∀ slot ∈ s.agentTasks, Ready params env slot.1)
    (fun _ _ s h _ => ⟨h.1, fun _ hin => (nomatch hin)⟩) ?_ ?_
    ⟨fun _ hin => (nomatch hin), fun _ hin => (nomatch hin)⟩
  · obtain ⟨-, -, hdispatched, -⟩ := hrule
    exact hdispatched n h
  · intro turn _ hs hready
    have hstep := prepares_preNode params env hs turn.slot
    generalize preNode params env turn.state turn.slot = after at hstep
    cases hstep with
    | leftOut => exact hready
    | asked => exact ⟨fun n hin => hready.1 n (by simpa [approvalNode] using hin), hready.2⟩
    | interrupted =>
      exact ⟨fun n hin => hready.1 n (by simpa [ExecState.emit, ExecState.finish] using hin), hready.2⟩
    | parallel hrun hagent hok hparallel =>
      obtain ⟨hevents, -, htasks⟩ := parallelNode_frame params env turn.slot.1 hparallel
      rw [hevents, htasks]
      refine ⟨fun n hin => ?_, hready.2⟩
      rcases mem_append.1 hin with hbefore | hnow
      · exact hready.1 n hbefore
      · obtain rfl := dispatched.inj (mem_singleton.1 hnow)
        exact ready_of_not_leftOut hrun hagent hok
    | task hrun hagent hok =>
      refine ⟨hready.1, fun slot hin => ?_⟩
      rcases mem_append.1 hin with hbefore | hnow
      · exact hready.2 slot hbefore
      · obtain rfl := mem_singleton.1 hnow
        exact ready_of_not_leftOut hrun hagent hok
  · intro _ s hready hs
    obtain ⟨handled, hdispatch⟩ := exists_dispatches params env hs
    rw [hdispatch.agentTasks_eq, hdispatch.events_eq]
    refine ⟨fun n hin => ?_, hready.2⟩
    rw [mem_append, mem_append] at hin
    rcases hin with (hbefore | hnow) | hcompleted
    · exact hready.1 n hbefore
    · obtain ⟨slot, hslot, heq⟩ := mem_map.1 hnow
      exact dispatched.inj heq ▸ hready.2 slot hslot
    · simp at hcompleted

/-- The dispatches of a node, and those that are put off to the end of the wave. -/
def planned (s : ExecState dag) (n : dag.NodeIndex) : ℕ :=
  s.events.count (.dispatched n) + (s.agentTasks.map Prod.fst).count n

/-- What the turns of some slots do when all nodes are ready. -/
structure Planned (slots : List (Slot dag)) (s s' : ExecState dag) : Prop where
  running : s'.ended = none
  skipNodes_eq : s'.skipNodes = s.skipNodes
  events : s.events ⊆ s'.events
  tasks : s'.agentTasks ⊆ s.agentTasks ++ slots
  count : s.skipNodes = [] → ∀ n, planned s' n = planned s n + (slots.map Prod.fst).count n

theorem AgentsSucceed.not_failed (hagents : AgentsSucceed env) {count : ℕ}
    {result : TaskResult} (h : result ∈ dispatchAgentsParallel count (env.parallelAgents ni)) :
    result.status ≠ "failed" := by
  unfold dispatchAgentsParallel at h
  obtain ⟨i, -, hi⟩ := mem_filterMap.1 h
  obtain ⟨other, hother, hstatus⟩ := hagents.parallel ni i
  rw [hother] at hi
  rw [← Option.some.inj hi, hstatus]
  decide

/-- The agents of a group do not end the plan. -/
theorem AgentsSucceed.running_parallelNode (hagents : AgentsSucceed env) (hs : s.ended = none)
    (ni : dag.NodeIndex) (role : AgentRole) : (parallelNode params env s ni role).ended = none := by
  unfold parallelNode
  split
  · exact hs
  · dsimp only
    split
    next failed hfailed =>
      have hstatus := find?_some hfailed
      exact absurd (of_decide_eq_true hstatus) (hagents.not_failed (mem_of_find?_eq_some hfailed))
    next => exact hs

section Ready

variable (hagents : AgentsSucceed env) (hready : ∀ n, Ready params env n)
include hagents hready

theorem planned_preNode (hs : s.ended = none) (slot : Slot dag) : Planned [slot] s (preNode params env s slot) := by
  have hstep := prepares_preNode params env hs slot
  generalize preNode params env s slot = after at hstep
  cases hstep with
  | leftOut hleft =>
    refine ⟨hs, rfl, List.Subset.refl _, subset_append_left _ _, fun hnone => ?_⟩
    rcases hleft with hskip | hphase
    · rw [hnone] at hskip
      cases hskip
    · exact absurd hphase (hready slot.1).phase
  | asked _ happroval => exact absurd happroval (hready slot.1).agent
  | interrupted _ _ herror =>
    rw [(hready slot.1).supplied] at herror
    cases herror
  | parallel _ _ _ hparallel =>
    obtain ⟨hevents, hskip, htasks⟩ := parallelNode_frame params env (s := s) slot.1 hparallel
    refine ⟨hagents.running_parallelNode hs _ _, hskip, ?_, ?_, fun _ n => ?_⟩
    · rw [hevents]
      exact subset_append_left _ _
    · rw [htasks]
      exact subset_append_left _ _
    · unfold planned
      rw [hevents, htasks, count_append, count_singleton, map_singleton, count_singleton]
      simp only [beq_iff_eq, dispatched.injEq]
      omega
  | task =>
    refine ⟨hs, rfl, List.Subset.refl _, List.Subset.refl _, fun _ n => ?_⟩
    unfold planned
    dsimp only
    rw [map_append, count_append]
    omega

theorem planned_turns (hs : s.ended = none) (slots : List (Slot dag)) :
    Planned slots s (slots.foldl (preNode params env) s) := by
  induction slots using reverseRecOn with
  | nil =>
    exact ⟨hs, rfl, List.Subset.refl _, subset_append_left _ _, fun _ n => (Nat.add_zero _).symm⟩
  | append_singleton slots slot ih =>
    rw [foldl_append, foldl_cons, foldl_nil]
    have hlast := planned_preNode hagents hready ih.running slot
    refine ⟨hlast.running, hlast.skipNodes_eq.trans ih.skipNodes_eq, List.Subset.trans ih.events hlast.events,
      ?_, fun hnone n => ?_⟩
    · rw [← append_assoc]
      exact List.Subset.trans hlast.tasks (append_subset.2
        ⟨subset_append_of_subset_left _ ih.tasks, subset_append_right _ _⟩)
    · rw [hlast.count (ih.skipNodes_eq.trans hnone) n, ih.count hnone n, map_append, count_append]
      omega

/-- What some waves do. -/
structure Dispatched (params : ExecParams dag) (slots : List (Slot dag)) (s : ExecState dag) : Prop where
  running : s.ended = none
  count : NoActEnds params s.events → s.skipNodes = [] ∧
    ∀ n, s.events.count (.dispatched n) = (slots.map Prod.fst).count n

theorem dispatched_execWave (hnodup : params.order.Nodup) {slots wave : List (Slot dag)}
    (hwave : wave ⊆ params.order.zipIdx) (h : Dispatched params slots s) :
    Dispatched params (slots ++ wave) (execWave params env s wave) := by
  have hturns := planned_turns hagents hready (s := { s with agentTasks := [] }) h.running wave
  unfold execWave
  rw [if_neg (by simp [h.running])]
  dsimp only
  rw [if_neg (by simp [hturns.running])]
  generalize wave.foldl (preNode params env) { s with agentTasks := [] } = s' at hturns
  obtain ⟨handled, hdispatch⟩ := exists_dispatches params env hturns.running
  have hended : (dispatchTasks params env s').ended = none := by
    by_contra hended
    obtain ⟨slot, -, hfails⟩ := hdispatch.fails hended
    obtain ⟨result, hresult, hstatus⟩ := hagents.single slot.1
    exact absurd (hstatus.symm.trans (hfails result hresult)) (by decide)
  generalize dispatchTasks params env s' = after at hdispatch hended
  refine ⟨hended, fun hacts => ?_⟩
  have hsub : s.events ⊆ after.events := by
    rw [hdispatch.events_eq, append_assoc]
    exact subset_append_of_subset_left _ hturns.events
  obtain ⟨hnone, hcount⟩ := h.count fun ni result hin => hacts ni result (hsub hin)
  -- An `Act` of this wave has nothing to skip.
  have hskipped : ∀ done ∈ handled, skipped params done.1 = [] := by
    intro done hdone
    unfold skipped
    split_ifs with hact
    · have htask : done.1 ∈ s'.agentTasks := hdispatch.earlier.subset (mem_map_of_mem hdone)
      rw [← idxOf_eq_of_mem_zipIdx hnodup (hwave (by simpa using hturns.tasks htask))]
      refine hacts done.1.1 done.2 ?_ hact
      rw [hdispatch.events_eq]
      exact mem_append_right _ (mem_map.2 ⟨done, hdone, rfl⟩)
    · rfl
  constructor
  · rw [hdispatch.skipNodes_eq, hturns.skipNodes_eq, flatMap_eq_nil_iff.2 hskipped]
    exact (append_nil _).trans hnone
  · intro n
    have hinjective : Function.Injective (dispatched : dag.NodeIndex → PlanEvent dag) :=
      fun _ _ => dispatched.inj
    have htasks : (s'.agentTasks.map fun slot => dispatched slot.1).count (.dispatched n) =
        (s'.agentTasks.map Prod.fst).count n := by
      rw [← count_map_of_injective _ _ hinjective, map_map]
      rfl
    have hcompleted : (handled.map fun done => completed done.1.1 done.2).count (.dispatched n) = 0 := by
      rw [count_eq_zero]
      simp
    have hplanned := hturns.count hnone n
    unfold planned at hplanned
    rw [hdispatch.events_eq, count_append, count_append, htasks, hcompleted, map_append,
      count_append, ← hcount n, Nat.add_zero, hplanned]
    rfl

/-- **Each node is dispatched once.** -/
theorem dispatched_once (horder : IsTopological dag.incoming params.order)
    (hacts : NoActEnds params (executeDag params env).events) (n : dag.NodeIndex) :
    (executeDag params env).events.count (.dispatched n) = 1 := by
  have hrun : ∀ before after, waves dag.incoming params.order = before ++ after →
      Dispatched params before.flatten (before.foldl (execWave params env) .start) := by
    intro before
    induction before using reverseRecOn with
    | nil => exact fun _ _ => ⟨rfl, fun _ => ⟨rfl, fun n => rfl⟩⟩
    | append_singleton before wave ih =>
      intro after hwaves
      rw [append_assoc] at hwaves
      rw [foldl_append, foldl_cons, foldl_nil, flatten_append, flatten_singleton]
      refine dispatched_execWave hagents hready horder.nodup (fun slot hslot => ?_) (ih _ hwaves)
      rw [zipIdx_eq_of_split hwaves]
      exact mem_append_right _ (mem_append_left _ hslot)
  have hall := ((hrun _ [] (append_nil _).symm).count hacts).2 n
  have hflatten : (waves dag.incoming params.order).flatten = params.order.zipIdx := flatten_waves
  rw [hflatten, zipIdx_map_fst, count_eq_one_of_mem horder.nodup (horder.mem n)] at hall
  exact hall

end Ready

end

/-! ### The steps of a plan as nodes -/

/-- The nodes of the graph are the steps of the plan. -/
structure Embodies (plan : ExecutionPlan) (dag : WorkflowDag) : Prop where
  node : ∀ step ∈ plan.steps, ∃ ni, (dag.nodeDef ni).id = plan.nodeId step ∧ dag.role ni = step.role
  step : ∀ ni, ∃ step ∈ plan.steps, (dag.nodeDef ni).id = plan.nodeId step ∧ dag.role ni = step.role
  unique : ∀ m n, (dag.nodeDef m).id = (dag.nodeDef n).id → m = n

variable {dag : WorkflowDag}

theorem nodes_of_buildDag {wf : WorkflowDefinition} (h : buildDag wf = .ok dag) : dag.nodes = wf.nodes := by
  unfold buildDag at h
  split_ifs at h
  obtain ⟨edges, -, h⟩ := bind_eq_ok_iff.1 h
  split at h
  · cases h
  · cases h
    rfl

theorem map_updateFirst {α : Type*} {g : WorkflowNodeDef → α} {f : WorkflowNodeDef → WorkflowNodeDef}
    (h : ∀ node, g (f node) = g node) (nodes : List WorkflowNodeDef) (id : String) :
    (updateFirst nodes id f).map g = nodes.map g := by
  unfold updateFirst
  split
  · refine ext_getElem? fun j => ?_
    rw [getElem?_map, getElem?_map, getElem?_modify]
    cases nodes[j]? with
    | none => rfl
    | some node =>
      simp only [Option.map_some]
      split_ifs
      · exact congrArg some (h node)
      · rfl
  · rfl

section Chain

variable {α : Type*} {g : WorkflowNodeDef → α}
  (hnext : ∀ node next nextNodes, g { node with next, nextNodes } = g node)
  (hdependencies : ∀ node dependencies, g { node with dependencies } = g node)
include hnext hdependencies

/-- Links and dependencies apart, the nodes of a chain are those of its steps. -/
theorem map_chainSteps (planId : String) (nodes : List WorkflowNodeDef) (prev : Option String) (steps : List PlanStep) :
    (chainSteps planId nodes prev steps).map g = nodes.map g ++ steps.map fun step => g (stepToNode planId step) := by
  induction steps generalizing nodes prev with
  | nil => cases prev <;> simp [chainSteps]
  | cons step steps ih =>
    cases prev with
    | none =>
      rw [chainSteps, ih]
      simp
    | some pid =>
      rw [chainSteps, ih, map_append, map_updateFirst fun node => hnext node _ _, map_singleton]
      have hnode : g (if pid ∈ (stepToNode planId step).dependencies then stepToNode planId step
          else { stepToNode planId step with
            dependencies := (stepToNode planId step).dependencies ++ [pid] }) =
          g (stepToNode planId step) := by
        split_ifs
        · rfl
        · exact hdependencies _ _
      rw [hnode]
      simp

/-- **What the adapter makes of a plan.** -/
theorem map_planToWorkflow (plan : ExecutionPlan) :
    (planToWorkflow plan).nodes.map g = plan.steps.map fun step => g (stepToNode plan.planId step) := by
  have hupdates : ∀ (updates : List (String × List String)) (nodes : List WorkflowNodeDef),
      (updates.foldl (fun nodes update => updateFirst nodes update.1 fun prev =>
        { prev with nextNodes := update.2, next := none }) nodes).map g = nodes.map g := by
    intro updates
    induction updates with
    | nil => exact fun _ => rfl
    | cons update updates ih =>
      intro nodes
      rw [foldl_cons, ih]
      exact map_updateFirst (fun node => hnext node _ _) nodes update.1
  unfold planToWorkflow
  exact (hupdates _ _).trans ((map_chainSteps hnext hdependencies _ _ _ _).trans (nil_append _))

end Chain

theorem parseRoleFromStr_debug (role : AgentRole) : parseRoleFromStr role.debug = role := by
  cases role <;> decide +kernel

variable {plan : ExecutionPlan}

theorem ExecutionPlan.stepId_of_nodeId {step step' : PlanStep}
    (h : plan.nodeId step = plan.nodeId step') : step.stepId = step'.stepId := by
  unfold ExecutionPlan.nodeId at h
  split at h
  · exact (String.append_right_inj ("wf:" ++ plan.planId ++ "/")).1 h
  · exact h

theorem ExecutionPlan.nodup_nodeId
    (hids : (plan.steps.map PlanStep.stepId).Nodup) : (plan.steps.map plan.nodeId).Nodup := by
  unfold List.Nodup at hids ⊢
  rw [pairwise_map] at hids ⊢
  exact hids.imp fun hne hid => hne (stepId_of_nodeId hid)

theorem eq_of_nodeDef_id (hids : (dag.nodes.map WorkflowNodeDef.id).Nodup)
    {m n : dag.NodeIndex} (h : (dag.nodeDef m).id = (dag.nodeDef n).id) : m = n := by
  have hm : m.val < (dag.nodes.map WorkflowNodeDef.id).length := by simp
  have hn : n.val < (dag.nodes.map WorkflowNodeDef.id).length := by simp
  have hget : (dag.nodes.map WorkflowNodeDef.id)[m.val] = (dag.nodes.map WorkflowNodeDef.id)[n.val] := by
    rw [getElem_map, getElem_map]
    exact h
  exact Fin.ext (hids.getElem_inj_iff.1 hget)

variable {penv : PlanEnv}

/-- The graph of a plan without a workflow of its own. -/
theorem embodies_of_steps (hnone : plan.dagJsonld = none)
    (hids : (plan.steps.map PlanStep.stepId).Nodup) (hdag : planDag penv plan = .ok dag) : Embodies plan dag := by
  have hbuild : buildDag (planToWorkflow plan) = .ok dag := by
    unfold planDag at hdag
    rw [hnone] at hdag
    exact mapError_eq_ok_iff.1 hdag
  have hnodes := nodes_of_buildDag hbuild
  have hkeys : dag.nodes.map (fun node => (node.id, parseRoleFromStr node.agentRole)) =
      plan.steps.map fun step => (plan.nodeId step, step.role) := by
    rw [hnodes, map_planToWorkflow (fun _ _ _ => rfl) fun _ _ => rfl]
    refine map_congr_left fun step _ => Prod.ext ?_ (parseRoleFromStr_debug step.role)
    unfold ExecutionPlan.nodeId
    rw [hnone]
  constructor
  · intro step hstep
    have hin : (plan.nodeId step, step.role) ∈
        dag.nodes.map fun node => (node.id, parseRoleFromStr node.agentRole) :=
      hkeys ▸ mem_map_of_mem hstep
    obtain ⟨node, hnode, heq⟩ := mem_map.1 hin
    obtain ⟨ni, rfl⟩ := get_of_mem hnode
    exact ⟨ni, congrArg Prod.fst heq, congrArg Prod.snd heq⟩
  · intro ni
    have hin : ((dag.nodeDef ni).id, dag.role ni) ∈
        plan.steps.map fun step => (plan.nodeId step, step.role) :=
      hkeys ▸ mem_map_of_mem (get_mem dag.nodes ni)
    obtain ⟨step, hstep, heq⟩ := mem_map.1 hin
    exact ⟨step, hstep, (congrArg Prod.fst heq).symm, (congrArg Prod.snd heq).symm⟩
  · have hids' : dag.nodes.map WorkflowNodeDef.id = plan.steps.map plan.nodeId := by
      have hfst := congrArg (List.map Prod.fst) hkeys
      rwa [map_map, map_map] at hfst
    exact fun m n => eq_of_nodeDef_id (hids' ▸ ExecutionPlan.nodup_nodeId hids)

/-- The graph of a plan that was made of a workflow. -/
theorem embodies_of_workflow (hlaw : ToposortLaw penv.toposort) {json : String}
    (hplan : workflowPlan penv json = .ok plan) (hids : (plan.steps.map PlanStep.stepId).Nodup)
    (hdag : planDag penv plan = .ok dag) : Embodies plan dag := by
  unfold workflowPlan at hplan
  obtain ⟨wf, hload, hplan⟩ := bind_eq_ok_iff.1 hplan
  obtain ⟨other, hbuild, hplan⟩ := bind_eq_ok_iff.1 hplan
  cases hplan
  -- The same workflow is read again.
  obtain rfl : other = dag := by
    unfold planDag at hdag
    obtain ⟨wf', hload', hbuild'⟩ := bind_eq_ok_iff.1 hdag
    obtain rfl := ok.inj (hload.symm.trans hload')
    exact ok.inj ((mapError_eq_ok_iff.1 hbuild).symm.trans (mapError_eq_ok_iff.1 hbuild'))
  obtain ⟨order, hmem, hsteps⟩ : ∃ order : List other.NodeIndex, (∀ ni, ni ∈ order) ∧
      (dagToExecutionPlan other (topologicalOrder other penv.toposort) wf).steps =
        order.map fun ni => nodeToPlanstep (other.nodeDef ni) := by
    unfold dagToExecutionPlan
    cases horder : topologicalOrder other penv.toposort with
    | ok order => exact ⟨order, (isTopological_of_topologicalOrder hlaw horder).mem, rfl⟩
    | error e => exact ⟨List.finRange _, mem_finRange, rfl⟩
  dsimp only at hids
  rw [hsteps, map_map] at hids
  constructor
  · intro step hstep
    obtain ⟨ni, -, rfl⟩ := mem_map.1 (hsteps ▸ hstep)
    exact ⟨ni, rfl, rfl⟩
  · intro ni
    exact ⟨_, hsteps ▸ mem_map_of_mem (hmem ni), rfl, rfl⟩
  · exact fun m n hid => inj_on_of_nodup_map hids (hmem m) (hmem n) hid

/-! ### Plans -/

/-- Each step of the plan starts one agent. -/
def DispatchesEachOnce (plan : ExecutionPlan) (outcome : Except CoreError PlanRun) : Prop :=
  ∀ step ∈ plan.steps, ∃ run, outcome = .ok run ∧ agentsStarted run.params run.final.events (plan.nodeId step) = 1

/-- What a step needs to start one agent: its phase was not completed before, its node is not put before a
human, its supplementary input passes, and the parallel groups give it one. -/
structure StartsOne (plan : ExecutionPlan) (resumeSkipPhases : List AgentRole) {dag : WorkflowDag}
    (env : ExecEnv dag) (step : PlanStep) : Prop where
  phase : step.role ∉ resumeSkipPhases
  node : ∀ ni, (dag.nodeDef ni).id = plan.nodeId step → ¬dag.IsApproval ni ∧ env.supplementary ni = .ok ()
  single : agentCount plan.parallelGroups step.role = 1

/-- The graph of the plan has an order, and each step starts one agent. -/
def EachStartsOne (penv : PlanEnv) (oracle : (dag : WorkflowDag) → ExecEnv dag) (plan : ExecutionPlan)
    (resumeSkipPhases : List AgentRole) : Prop :=
  ∀ step ∈ plan.steps, ∃ dag order, planDag penv plan = .ok dag ∧ topologicalOrder dag penv.toposort = .ok order ∧
    StartsOne plan resumeSkipPhases (oracle dag) step

/-- **When each step of a plan starts one agent.** -/
theorem dispatchesEachOnce_iff {penv : PlanEnv} {oracle : (dag : WorkflowDag) → ExecEnv dag}
    {plan : ExecutionPlan} {resumeSkipPhases : List AgentRole} (hlaw : ToposortLaw penv.toposort)
    (hmade : plan.dagJsonld = none ∨ ∃ json, workflowPlan penv json = .ok plan)
    (hids : (plan.steps.map PlanStep.stepId).Nodup)
    (hagents : ∀ dag, planDag penv plan = .ok dag → AgentsSucceed (oracle dag))
    (hacts : ∀ run, executePlan penv oracle plan resumeSkipPhases = .ok run → NoActEnds run.params run.final.events) :
    DispatchesEachOnce plan (executePlan penv oracle plan resumeSkipPhases) ↔
      EachStartsOne penv oracle plan resumeSkipPhases := by
  have hembodies : ∀ dag, planDag penv plan = .ok dag → Embodies plan dag := by
    intro dag hdag
    rcases hmade with hnone | ⟨json, hplan⟩
    · exact embodies_of_steps hnone hids hdag
    · exact embodies_of_workflow hlaw hplan hids hdag
  constructor
  · intro hdispatches step hstep
    obtain ⟨run, hrun, hone⟩ := hdispatches step hstep
    obtain ⟨hdag, horder, hgroups, hresume, hfinal⟩ := exists_parts hrun
    have hsteps := hembodies run.dag hdag
    obtain ⟨ni, hid, hrole⟩ := hsteps.node step hstep
    rw [← hid, agentsStarted_eq fun m => hsteps.unique m ni, hfinal, hrole, hgroups] at hone
    have hcount := Nat.eq_one_of_mul_eq_one_right hone
    have hin : .dispatched ni ∈ (executeDag run.params (oracle run.dag)).events :=
      count_pos_iff.1 (hcount ▸ Nat.one_pos)
    have hready := ready_of_dispatched hin
    refine ⟨run.dag, run.params.order, hdag, horder, ?_, fun m hm => ?_, Nat.eq_one_of_mul_eq_one_left hone⟩
    · rw [← hresume, ← hrole]
      exact hready.phase
    · obtain rfl := hsteps.unique m ni (hm.trans hid.symm)
      exact ⟨hready.agent, hready.supplied⟩
  · intro hstarts step hstep
    obtain ⟨dag, order, hdag, horder, hstart⟩ := hstarts step hstep
    have hrun := executePlan_of_parts hdag horder oracle resumeSkipPhases
    have hsteps := hembodies dag hdag
    have hready : ∀ n, Ready ⟨plan.parallelGroups, order, resumeSkipPhases⟩ (oracle dag) n := by
      intro n
      obtain ⟨other, hother, hid, hrole⟩ := hsteps.step n
      obtain ⟨dag', order', hdag', -, hstart'⟩ := hstarts other hother
      obtain rfl := ok.inj (hdag.symm.trans hdag')
      refine ⟨?_, (hstart'.node n hid).1, (hstart'.node n hid).2⟩
      rw [hrole]
      exact hstart'.phase
    obtain ⟨ni, hid, hrole⟩ := hsteps.node step hstep
    refine ⟨_, hrun, ?_⟩
    dsimp only
    rw [← hid, agentsStarted_eq fun m => hsteps.unique m ni, hrole, hstart.single, Nat.mul_one]
    exact dispatched_once (hagents dag hdag) hready (isTopological_of_topologicalOrder hlaw horder)
      (hacts _ hrun) ni

/-! ### Two steps and four agents -/

theorem agentsSucceed_sampleOracle (dag : WorkflowDag) : AgentsSucceed (sampleOracle dag) :=
  ⟨fun _ => ⟨_, rfl, rfl⟩, fun _ _ => ⟨_, rfl, rfl⟩⟩

theorem noActEnds_modules (events : List (PlanEvent modulesDag)) : NoActEnds modulesParams events := by
  intro ni _ _ hact
  have hdo : ∀ ni, modulesDag.role ni = .doing := by decide +kernel
  rw [hdo ni] at hact
  cases hact

theorem not_dispatchesEachOnce_modules :
    ∃ (penv : PlanEnv) (oracle : (dag : WorkflowDag) → ExecEnv dag) (plan : ExecutionPlan)
      (run : PlanRun), ToposortLaw penv.toposort ∧ plan.dagJsonld = none ∧ (plan.steps.map PlanStep.stepId).Nodup ∧
        (∀ group ∈ plan.parallelGroups, ∀ role ∈ group, ∃ step ∈ plan.steps, step.role = role) ∧
        executePlan penv oracle plan [] = .ok run ∧ AgentsSucceed (oracle run.dag) ∧
        NoActEnds run.params run.final.events ∧
        ¬DispatchesEachOnce plan (executePlan penv oracle plan []) := by
  refine ⟨_, _, _, _, toposortLaw_trialToposort, rfl, by decide, by decide,
    executePlan_modules sampleOracle, agentsSucceed_sampleOracle _, noActEnds_modules _, fun honce => ?_⟩
  obtain ⟨run, hrun, hone⟩ := honce ⟨"step_1", .doing, "Module A", "a", [], [], ""⟩ mem_cons_self
  obtain rfl := ok.inj ((executePlan_modules sampleOracle).symm.trans hrun)
  have htwo : agentsStarted modulesParams (executeDag modulesParams (sampleOracle modulesDag)).events
      "wf:test_002/step_1" = 2 := by
    decide +kernel
  exact absurd (htwo.symm.trans hone) (by decide)

theorem dispatchesEachOnce_iff_modules : DispatchesEachOnce modulesPlan
        (executePlan (samplePlanEnv fallbackJson fallbackWorkflow) sampleOracle modulesPlan []) ↔
      EachStartsOne (samplePlanEnv fallbackJson fallbackWorkflow) sampleOracle modulesPlan [] := by
  refine dispatchesEachOnce_iff toposortLaw_trialToposort (.inl rfl) (by decide)
    (fun dag _ => agentsSucceed_sampleOracle dag) fun run hrun => ?_
  obtain rfl := ok.inj ((executePlan_modules sampleOracle).symm.trans hrun)
  exact noActEnds_modules _

end WildAgentOs.Core
