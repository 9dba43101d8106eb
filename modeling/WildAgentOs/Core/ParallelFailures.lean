import WildAgentOs.Core.Branches

/-!
# Failures in parallel groups

An agent of a parallel group returns a result, or an error, or panics.  A failed result ends the plan; an
error and a panic are logged, and the plan goes on with the results of the others.  The tool calls of all
agents that returned a result are kept.

* `DispatchesGroup`, `executeDag_of_turn_ended`, `KeepsActions`, `showsFailures_iff`.
-/

namespace WildAgentOs.Core

open Memory List

variable {dag : WorkflowDag} {params : ExecParams dag} {env : ExecEnv dag}

/-- What is no result, and a failed result. -/
def AgentOutcome.Fails : AgentOutcome → Prop
  | .returned result => result.status = "failed"
  | .error _ => True
  | .panicked _ => True

/-- The statuses that end an invocation well. -/
def TaskResult.Succeeded (result : TaskResult) : Prop := result.status ∈ ["completed", "success", "succeeded"]

/-- A turn that dispatches the agents of a group. -/
structure DispatchesGroup (params : ExecParams dag) (env : ExecEnv dag) (turn : Turn dag)
    (group : List AgentRole) : Prop where
  running : turn.state.ended = none
  run : ¬LeftOut params turn.state turn.slot.1
  agent : ¬dag.IsApproval turn.slot.1
  supplied : env.supplementary turn.slot.1 = .ok ()
  parallel : params.isParallel (dag.role turn.slot.1) = true
  first : params.parallelGroup (dag.role turn.slot.1) = some group

/-- The results that the agents of a group return. -/
def groupResults (env : ExecEnv dag) (turn : Turn dag) (group : List AgentRole) : List TaskResult :=
  dispatchAgentsParallel group.length (env.parallelAgents turn.slot.1)

/-- The plan returns at this turn, with a result that is no success, and dispatches nothing later. -/
structure StopsAt (params : ExecParams dag) (env : ExecEnv dag) (final : ExecState dag)
    (turn : Turn dag) : Prop where
  returns : ∃ result, (preNode params env turn.state turn.slot).ended = some (.ok result) ∧
    final.result = .ok result ∧ ¬result.Succeeded
  last : final.events = turn.state.events ++ [.dispatched turn.slot.1]

/-- No failure of an agent of a parallel group is hidden, and the tool calls of all agents that returned a
result are in what the plan returns. -/
structure ShowsFailures (params : ExecParams dag) (env : ExecEnv dag) (final : ExecState dag) : Prop where
  stops : ∀ turn ∈ turns params env, ∀ group, DispatchesGroup params env turn group →
    (∃ i < group.length, (env.parallelAgents turn.slot.1 i).Fails) → StopsAt params env final turn
  keeps : ∀ turn ∈ turns params env, ∀ group, DispatchesGroup params env turn group →
    ∀ result, final.result = .ok result →
      (groupResults env turn group).flatMap TaskResult.trackedActions <:+: result.trackedActions

/-- Where an agent of a group fails, one of them returns a failed result. -/
def ReturnsFailure (params : ExecParams dag) (env : ExecEnv dag) : Prop :=
  ∀ turn ∈ turns params env, ∀ group, DispatchesGroup params env turn group →
    (∃ i < group.length, (env.parallelAgents turn.slot.1 i).Fails) →
      ∃ result ∈ groupResults env turn group, result.status = "failed"

/-! ### The turn of a group -/

variable {group : List AgentRole} {turn : Turn dag}

section

variable (h : DispatchesGroup params env turn group)
include h

theorem DispatchesGroup.preNode_eq :
    preNode params env turn.state turn.slot =
      parallelNode params env turn.state turn.slot.1 (dag.role turn.slot.1) := by
  have hstep := prepares_preNode params env h.running turn.slot
  generalize preNode params env turn.state turn.slot = after at hstep
  cases hstep with
  | leftOut hleft => exact absurd hleft h.run
  | asked _ happroval => exact absurd happroval h.agent
  | interrupted _ _ herror => exact absurd (h.supplied.symm.trans herror) (by simp)
  | parallel => rfl
  | task _ _ _ hsingle => exact absurd (h.parallel.symm.trans hsingle) (by decide)

/-- A failed result ends the plan. -/
theorem DispatchesGroup.ended_of_failed
    (hfailed : ∃ result ∈ groupResults env turn group, result.status = "failed") :
    ∃ failed, preNode params env turn.state turn.slot =
      (turn.state.emit (.dispatched turn.slot.1)).finish (.ok (partialFailure (dag.role turn.slot.1) failed
        (collectTrackedActions turn.state.lastResult (groupResults env turn group)))) := by
  obtain ⟨result, hresult, hstatus⟩ := hfailed
  have hfound : ((groupResults env turn group).find? fun result => result.status = "failed").isSome :=
    find?_isSome.2 ⟨result, hresult, decide_eq_true hstatus⟩
  obtain ⟨failed, hfound⟩ := Option.isSome_iff_exists.1 hfound
  refine ⟨failed, ?_⟩
  rw [h.preNode_eq]
  unfold groupResults at hfound ⊢
  unfold parallelNode
  rw [h.first]
  dsimp only
  rw [hfound]
  rfl

theorem DispatchesGroup.continues
    (hnone : ∀ result ∈ groupResults env turn group, result.status ≠ "failed") :
    preNode params env turn.state turn.slot =
      { turn.state.emit (.dispatched turn.slot.1) with
        lastResult := lastOfParallel turn.state.lastResult (groupResults env turn group) } := by
  have hfound : (groupResults env turn group).find? (fun result => decide (result.status = "failed")) = none := by
    rw [find?_eq_none]
    exact fun result hresult => by simpa using hnone result hresult
  rw [h.preNode_eq]
  unfold groupResults at hfound ⊢
  unfold parallelNode
  rw [h.first]
  dsimp only
  rw [hfound]
  rfl

end

/-! ### The last turn -/

variable {s : ExecState dag}

/-- What is folded after a turn of a wave. -/
theorem exists_later_slots {seen wave : List (Slot dag)} (hturn : turn ∈ waveTurns params env seen s wave) :
    ∃ later : List (Slot dag), wave.foldl (preNode params env) s =
      later.foldl (preNode params env) (preNode params env turn.state turn.slot) := by
  induction wave generalizing seen s with
  | nil => cases hturn
  | cons slot rest ih =>
    rw [foldl_cons]
    rcases mem_cons.1 hturn with rfl | hlater
    · exact ⟨rest, rfl⟩
    · exact ih hlater

/-- A turn is in a wave that is run, and what is folded after the wave. -/
theorem exists_later_waves {waves : List (List (Slot dag))} {seen : List (Slot dag)}
    (hturn : turn ∈ turnsFrom params env seen s waves) :
    ∃ seen' s' wave, ∃ later : List (List (Slot dag)),
      turn ∈ waveTurns params env seen' { s' with agentTasks := [] } wave ∧ ¬s'.ended.isSome ∧
      waves.foldl (execWave params env) s = later.foldl (execWave params env) (execWave params env s' wave) := by
  induction waves generalizing seen s with
  | nil => cases hturn
  | cons wave waves ih =>
    rw [turnsFrom] at hturn
    split_ifs at hturn with hs
    · cases hturn
    · rw [foldl_cons]
      rcases mem_append.1 hturn with hwave | hlater
      · exact ⟨_, s, wave, waves, hwave, hs, rfl⟩
      · exact ih hlater

/-- **The turn that ends a plan is the last one.** -/
theorem executeDag_of_turn_ended (hturn : turn ∈ turns params env)
    (hended : (preNode params env turn.state turn.slot).ended ≠ none) :
    executeDag params env = preNode params env turn.state turn.slot := by
  obtain ⟨seen, s, wave, waves, hwave, hs, hrun⟩ := exists_later_waves hturn
  obtain ⟨slots, hslots⟩ := exists_later_slots hwave
  have hlast : wave.foldl (preNode params env) { s with agentTasks := [] } =
      preNode params env turn.state turn.slot := by
    rw [hslots, foldl_preNode_of_ended hended]
  have hstop : execWave params env s wave = preNode params env turn.state turn.slot := by
    unfold execWave
    rw [if_neg hs]
    dsimp only
    rw [hlast, if_pos (Option.isSome_iff_ne_none.2 hended)]
  show List.foldl (execWave params env) _ _ = _
  rw [hrun, hstop, foldl_execWave_of_ended hended]

theorem DispatchesGroup.stopsAt (hturn : turn ∈ turns params env) (h : DispatchesGroup params env turn group)
    (hfailed : ∃ result ∈ groupResults env turn group, result.status = "failed") :
    StopsAt params env (executeDag params env) turn := by
  obtain ⟨failed, hstop⟩ := h.ended_of_failed hfailed
  have hlast : executeDag params env = preNode params env turn.state turn.slot :=
    executeDag_of_turn_ended hturn (by simp [hstop, ExecState.finish])
  constructor
  · refine ⟨_, by rw [hstop]; rfl, by rw [hlast, hstop]; rfl, ?_⟩
    exact show "partial_failure" ∉ ["completed", "success", "succeeded"] by decide
  · rw [hlast, hstop]
    rfl

/-! ### Tool calls -/

/-- If a result is returned later, then its tool calls begin with those that are known now. -/
def KeepsActions (s s' : ExecState dag) : Prop :=
  ∀ final, s'.result = .ok final → ∃ result, s.result = .ok result ∧ result.trackedActions <+: final.trackedActions

theorem KeepsActions.refl (s : ExecState dag) : KeepsActions s s := fun final h =>
  ⟨final, h, prefix_rfl⟩

variable {s' : ExecState dag}

theorem KeepsActions.trans {s'' : ExecState dag} (h : KeepsActions s s') (h' : KeepsActions s' s'') :
    KeepsActions s s'' := by
  intro final hfinal
  obtain ⟨between, hbetween, hlater⟩ := h' final hfinal
  obtain ⟨result, hresult, hearlier⟩ := h between hbetween
  exact ⟨result, hresult, hearlier.trans hlater⟩

theorem KeepsActions.foldl {α : Type*} {f : ExecState dag → α → ExecState dag} (hstep : ∀ s a, KeepsActions s (f s a))
    (l : List α) (s : ExecState dag) : KeepsActions s (l.foldl f s) := by
  induction l generalizing s with
  | nil => exact .refl s
  | cons a l ih => exact (hstep s a).trans (ih (f s a))

/-- The tool calls up to a result. -/
def actionsOf (last : Option TaskResult) : List TrackedAction := (last.map TaskResult.trackedActions).getD []

theorem result_of_running (hs : s.ended = none) :
    ∃ result, s.result = .ok result ∧ result.trackedActions = actionsOf s.lastResult := by
  unfold ExecState.result actionsOf
  rw [hs]
  cases s.lastResult with
  | none => exact ⟨_, rfl, rfl⟩
  | some last => exact ⟨last, rfl, rfl⟩

theorem keepsActions_of_running (hs : s.ended = none)
    (h : ∀ final, s'.result = .ok final → actionsOf s.lastResult <+: final.trackedActions) : KeepsActions s s' := by
  intro final hfinal
  obtain ⟨result, hresult, hactions⟩ := result_of_running hs
  exact ⟨result, hresult, hactions ▸ h final hfinal⟩

theorem keepsActions_of_lastResult (hs : s.ended = none) (hs' : s'.ended = none)
    (h : actionsOf s.lastResult <+: actionsOf s'.lastResult) : KeepsActions s s' := by
  refine keepsActions_of_running hs fun final hfinal => ?_
  obtain ⟨result, hresult, hactions⟩ := result_of_running hs'
  obtain rfl := Except.ok.inj (hresult.symm.trans hfinal)
  exact hactions ▸ h

theorem keepsActions_finish (hs : s.ended = none) {result : TaskResult}
    (h : actionsOf s.lastResult <+: result.trackedActions) : KeepsActions s (s'.finish (.ok result)) := by
  refine keepsActions_of_running hs fun final hfinal => ?_
  obtain rfl : result = final := Except.ok.inj hfinal
  exact h

theorem keepsActions_error {e : CoreError} : KeepsActions s (s'.finish (.error e)) := by
  intro final hfinal
  cases hfinal

theorem actionsOf_prefix_collect (prior : Option TaskResult) (results : List TaskResult) :
    actionsOf prior <+: collectTrackedActions prior results := prefix_append _ _

theorem actionsOf_carry (result : TaskResult) (prior : Option TaskResult) :
    (carryTrackedActions result prior).trackedActions = actionsOf prior ++ result.trackedActions := by
  unfold carryTrackedActions actionsOf
  cases prior with
  | none => rfl
  | some prior =>
    dsimp only
    split_ifs with hnil
    · simp [hnil]
    · rfl

theorem actionsOf_lastOfParallel (prior : Option TaskResult) (results : List TaskResult) :
    actionsOf (lastOfParallel prior results) = collectTrackedActions prior results := by
  unfold lastOfParallel
  cases hlast : results.getLast? with
  | some result => rfl
  | none =>
    obtain rfl := getLast?_eq_none_iff.1 hlast
    cases prior with
    | none => rfl
    | some prior => rfl

theorem keepsActions_parallelNode (hs : s.ended = none) (ni : dag.NodeIndex) (role : AgentRole) :
    KeepsActions s (parallelNode params env s ni role) := by
  unfold parallelNode
  split
  · exact .refl s
  · dsimp only
    split
    · exact keepsActions_finish hs (actionsOf_prefix_collect _ _)
    · refine keepsActions_of_lastResult hs hs ?_
      dsimp only
      rw [actionsOf_lastOfParallel]
      exact actionsOf_prefix_collect _ _

theorem keepsActions_preNode (s : ExecState dag) (slot : Slot dag) : KeepsActions s (preNode params env s slot) := by
  by_cases hs : s.ended = none
  · have hstep := prepares_preNode params env hs slot
    generalize preNode params env s slot = after at hstep
    cases hstep with
    | leftOut => exact .refl s
    | asked =>
      refine keepsActions_of_lastResult hs hs ?_
      show _ <+: (carryTrackedActions _ s.lastResult).trackedActions
      rw [actionsOf_carry]
      exact prefix_append _ _
    | interrupted => exact keepsActions_error
    | parallel => exact keepsActions_parallelNode hs _ _
    | task => exact keepsActions_of_lastResult hs hs prefix_rfl
  · rw [preNode_of_ended hs]
    exact .refl s

theorem keepsActions_handleStepResult (hs : s.ended = none) (slot : Slot dag) (result : TaskResult) :
    KeepsActions s (handleStepResult params s slot result) := by
  unfold handleStepResult
  dsimp only
  by_cases hfailed : result.status = "failed"
  · rw [if_pos hfailed]
    exact keepsActions_finish hs (actionsOf_prefix_collect _ _)
  · rw [if_neg hfailed]
    refine keepsActions_of_lastResult hs hs ?_
    show _ <+: (carryTrackedActions _ s.lastResult).trackedActions
    rw [actionsOf_carry]
    exact prefix_append _ _

theorem keepsActions_handleWaveResult (s : ExecState dag) (slot : Slot dag) :
    KeepsActions s (handleWaveResult params env s slot) := by
  by_cases hs : s.ended = none
  · cases hagent : env.agent slot.1 with
    | error e =>
      rw [handleWaveResult_error params env hs hagent]
      exact keepsActions_finish hs (actionsOf_prefix_collect _ _)
    | ok result =>
      rw [handleWaveResult_ok params env hs hagent]
      exact keepsActions_handleStepResult hs slot result
  · unfold handleWaveResult
    rw [if_pos (Option.isSome_iff_ne_none.2 hs)]
    exact .refl s

theorem keepsActions_dispatchTasks (hs : s.ended = none) : KeepsActions s (dispatchTasks params env s) := by
  -- An event changes no result.
  have hevents : ∀ events, KeepsActions s { s with events } := fun events =>
    keepsActions_of_lastResult hs hs prefix_rfl
  unfold dispatchTasks
  split
  · exact .refl s
  next slot _ =>
    refine (hevents (s.events ++ [.dispatched slot.1])).trans ?_
    dsimp only
    split
    · exact keepsActions_error
    next result _ => exact keepsActions_handleStepResult (s := s.emit (.dispatched slot.1)) hs slot result
  · exact (hevents (s.events ++ s.agentTasks.map fun slot => .dispatched slot.1)).trans
      (KeepsActions.foldl keepsActions_handleWaveResult _ _)

/-- The dispatch after the turns of a wave. -/
theorem KeepsActions.execWave {t : ExecState dag} {wave : List (Slot dag)} (hs : ¬t.ended.isSome)
    (h : KeepsActions s (wave.foldl (preNode params env) { t with agentTasks := [] })) :
    KeepsActions s (execWave params env t wave) := by
  unfold Core.execWave
  rw [if_neg hs]
  dsimp only
  split_ifs with hended
  · exact h
  · exact h.trans (keepsActions_dispatchTasks (Option.not_isSome_iff_eq_none.1 hended))

theorem keepsActions_execWave (s : ExecState dag) (wave : List (Slot dag)) :
    KeepsActions s (execWave params env s wave) := by
  by_cases hs : s.ended = none
  · have hopen : KeepsActions s { s with agentTasks := [] } :=
      keepsActions_of_lastResult hs hs prefix_rfl
    exact (hopen.trans (.foldl keepsActions_preNode wave _)).execWave (by simp [hs])
  · unfold execWave
    rw [if_pos (Option.isSome_iff_ne_none.2 hs)]
    exact .refl s

/-! ### From a turn to the end -/

theorem keepsActions_of_mem_turns (hturn : turn ∈ turns params env) :
    KeepsActions (preNode params env turn.state turn.slot) (executeDag params env) := by
  obtain ⟨seen, s, wave, waves, hwave, hs, hrun⟩ := exists_later_waves hturn
  obtain ⟨slots, hslots⟩ := exists_later_slots hwave
  have hkeeps : KeepsActions (preNode params env turn.state turn.slot)
      (wave.foldl (preNode params env) { s with agentTasks := [] }) := by
    rw [hslots]
    exact .foldl keepsActions_preNode slots _
  show KeepsActions _ (List.foldl (execWave params env) _ _)
  rw [hrun]
  exact (hkeeps.execWave hs).trans (.foldl keepsActions_execWave waves _)

/-- **The tool calls of a group are kept.** -/
theorem DispatchesGroup.keeps (hturn : turn ∈ turns params env) (h : DispatchesGroup params env turn group)
    {final : TaskResult} (hfinal : (executeDag params env).result = .ok final) :
    (groupResults env turn group).flatMap TaskResult.trackedActions <:+: final.trackedActions := by
  obtain ⟨result, hresult, hlater⟩ := keepsActions_of_mem_turns hturn final hfinal
  refine List.IsInfix.trans (List.IsSuffix.isInfix ?_) hlater.isInfix
  by_cases hfailed : ∃ result ∈ groupResults env turn group, result.status = "failed"
  · obtain ⟨failed, hstop⟩ := h.ended_of_failed hfailed
    rw [hstop] at hresult
    cases hresult
    exact suffix_append _ _
  · have hnone : ∀ result ∈ groupResults env turn group, result.status ≠ "failed" := by
      simpa using hfailed
    have hrunning : (preNode params env turn.state turn.slot).ended = none := by
      rw [h.continues hnone]
      exact h.running
    obtain ⟨last, hlast, hactions⟩ := result_of_running hrunning
    obtain rfl := Except.ok.inj (hlast.symm.trans hresult)
    rw [hactions, h.continues hnone]
    dsimp only
    rw [actionsOf_lastOfParallel]
    exact suffix_append _ _

/-- **When the failures of parallel groups are shown.** -/
theorem showsFailures_iff {penv : PlanEnv} {oracle : (dag : WorkflowDag) → ExecEnv dag} {plan : ExecutionPlan}
    {resumeSkipPhases : List AgentRole} {run : PlanRun} (h : executePlan penv oracle plan resumeSkipPhases = .ok run) :
    ShowsFailures run.params (oracle run.dag) run.final ↔ ReturnsFailure run.params (oracle run.dag) := by
  obtain ⟨-, -, -, -, hfinal⟩ := exists_parts h
  rw [hfinal]
  constructor
  · intro hshows turn hturn group hgroup hfails
    by_contra hnot
    have hnone : ∀ result ∈ groupResults (oracle run.dag) turn group, result.status ≠ "failed" := by
      simpa using hnot
    obtain ⟨result, hreturns, -⟩ := (hshows.stops turn hturn group hgroup hfails).returns
    rw [hgroup.continues hnone] at hreturns
    exact absurd (hgroup.running.symm.trans hreturns) (by simp)
  · intro hreturns
    exact ⟨fun turn hturn group hgroup hfails =>
      hgroup.stopsAt hturn (hreturns turn hturn group hgroup hfails),
      fun turn hturn group hgroup final hfinal => hgroup.keeps hturn hfinal⟩

/-! ### An error that is logged -/

/-- Two modules, and a parallel group for them. -/
def modulesPlan : ExecutionPlan where
  planId := "test_002"
  agentSequence := [.doing]
  parallelGroups := [[.doing, .doing]]
  description := "Parallel test"
  steps := [⟨"step_1", .doing, "Module A", "a", [], [], ""⟩, ⟨"step_2", .doing, "Module B", "b", [], [], ""⟩]
  dagJsonld := none
  verifyFirst := false
  fallbackSteps := []

def modulesDag : WorkflowDag :=
  ⟨(planToWorkflow modulesPlan).nodes,
    [⟨⟨0, by decide⟩, ⟨1, by decide⟩, .next⟩, ⟨⟨0, by decide⟩, ⟨1, by decide⟩, .dependency⟩],
    ⟨0, by decide⟩⟩

def modulesNode (i : Fin 2) : modulesDag.NodeIndex := i

def modulesParams : ExecParams modulesDag :=
  ⟨[[.doing, .doing]], [modulesNode ⟨0, Nat.two_pos⟩, modulesNode ⟨1, Nat.one_lt_two⟩], []⟩

theorem executePlan_modules (oracle : (dag : WorkflowDag) → ExecEnv dag) :
    executePlan (samplePlanEnv fallbackJson fallbackWorkflow) oracle modulesPlan [] =
      .ok ⟨modulesDag, modulesParams, executeDag modulesParams (oracle modulesDag)⟩ := by
  have hdag : planDag (samplePlanEnv fallbackJson fallbackWorkflow) modulesPlan = .ok modulesDag := by
    decide +kernel
  have horder : topologicalOrder modulesDag trialToposort = .ok [modulesNode 0, modulesNode 1] := by
    decide +kernel
  exact executePlan_of_parts hdag horder oracle []

/-- The first agent of each group is refused by the model. -/
def refusedOracle (dag : WorkflowDag) : ExecEnv dag :=
  { sampleOracle dag with
    parallelAgents := fun _ i =>
      if i = 0 then .error (.internal "LLM request failed") else .returned ⟨"success", none, "", [], []⟩ }

/-- The other module is started all the same, and the plan returns a success. -/
theorem not_showsFailures_modules :
    ∃ (penv : PlanEnv) (oracle : (dag : WorkflowDag) → ExecEnv dag) (plan : ExecutionPlan)
      (run : PlanRun), executePlan penv oracle plan [] = .ok run ∧
        ¬ShowsFailures run.params (oracle run.dag) run.final := by
  refine ⟨_, _, _, _, executePlan_modules refusedOracle, fun hshows => ?_⟩
  have hturns : (turns modulesParams (refusedOracle modulesDag)).map
      (fun turn => (turn.slot.1, turn.state.ended, turn.state.skipNodes)) =
        [(modulesNode 0, none, []), (modulesNode 1, none, [])] := by
    decide +kernel
  have hfirst : (modulesNode 0, none, []) ∈ (turns modulesParams (refusedOracle modulesDag)).map
      fun turn => (turn.slot.1, turn.state.ended, turn.state.skipNodes) :=
    hturns ▸ mem_cons_self
  obtain ⟨turn, hturn, heq⟩ := mem_map.1 hfirst
  simp only [Prod.mk.injEq] at heq
  obtain ⟨hslot, hended, hskip⟩ := heq
  have hgroup : DispatchesGroup modulesParams (refusedOracle modulesDag) turn [.doing, .doing] := by
    refine ⟨hended, ?_, ?_, rfl, ?_, ?_⟩
    · rintro (hin | hin)
      · rw [hskip] at hin
        cases hin
      · cases hin
    · rw [hslot]
      decide
    · rw [hslot]
      decide +kernel
    · rw [hslot]
      decide +kernel
  have hstops := hshows.stops turn hturn _ hgroup ⟨0, by decide, trivial⟩
  obtain ⟨result, hreturns, hresult, hfails⟩ := hstops.returns
  have hsuccess : (executeDag modulesParams (refusedOracle modulesDag)).result = .ok ⟨"success", none, "", [], []⟩ := by
    decide +kernel
  obtain rfl := Except.ok.inj (hsuccess.symm.trans hresult)
  exact hfails (by unfold TaskResult.Succeeded; decide)

/-- Both agents of each group return a result. -/
theorem showsFailures_iff_modules : ShowsFailures modulesParams (sampleOracle modulesDag)
        (executeDag modulesParams (sampleOracle modulesDag)) ↔
      ReturnsFailure modulesParams (sampleOracle modulesDag) :=
  showsFailures_iff (executePlan_modules sampleOracle)

end WildAgentOs.Core
