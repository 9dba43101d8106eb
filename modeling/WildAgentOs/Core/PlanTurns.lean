import WildAgentOs.Core.ExecutePlan

/-!
# The turns of an execution

Each node has its turn in the first phase of its wave.  What a turn can do, what the dispatch of a wave
does, and the rule by which what holds at each turn holds of the whole execution.

* `LeftOut`, `Prepares`: one turn; `Dispatches`: one dispatch;
* `Turn`, `turns`, `executeDag_rule`.
-/

namespace WildAgentOs.Core

open Memory List

variable {dag : WorkflowDag}

abbrev Slot (dag : WorkflowDag) : Type := dag.NodeIndex × ℕ

namespace WorkflowDag

/-- The phase of a node. -/
def role (dag : WorkflowDag) (ni : dag.NodeIndex) : AgentRole := (nodeToPlanstep (dag.nodeDef ni)).role

def IsApproval (dag : WorkflowDag) (ni : dag.NodeIndex) : Prop := (dag.nodeDef ni).nodeType = "HumanApprovalNode"

instance (ni : dag.NodeIndex) : Decidable (dag.IsApproval ni) :=
  inferInstanceAs (Decidable ((dag.nodeDef ni).nodeType = "HumanApprovalNode"))

end WorkflowDag

variable (params : ExecParams dag) (env : ExecEnv dag)

/-- A node that is skipped, or whose phase was completed before. -/
def LeftOut (s : ExecState dag) (ni : dag.NodeIndex) : Prop :=
  (dag.nodeDef ni).id ∈ s.skipNodes ∨ dag.role ni ∈ params.resumeSkipPhases

instance (s : ExecState dag) (ni : dag.NodeIndex) : Decidable (LeftOut params s ni) :=
  inferInstanceAs (Decidable (_ ∨ _))

/-! ### One turn -/

/-- What the turn of a node does. -/
inductive Prepares (s : ExecState dag) (slot : Slot dag) : ExecState dag → Prop
  | leftOut (hleft : LeftOut params s slot.1) : Prepares s slot s
  | asked (hrun : ¬LeftOut params s slot.1) (happroval : dag.IsApproval slot.1) :
    Prepares s slot (approvalNode params env s slot.1 slot.2)
  | interrupted {e : CoreError} (hrun : ¬LeftOut params s slot.1) (hagent : ¬dag.IsApproval slot.1)
    (herror : env.supplementary slot.1 = .error e) :
    Prepares s slot ((s.emit (.interrupted slot.1)).finish (.error e))
  | parallel (hrun : ¬LeftOut params s slot.1) (hagent : ¬dag.IsApproval slot.1)
    (hok : env.supplementary slot.1 = .ok ()) (hparallel : params.isParallel (dag.role slot.1) = true) :
    Prepares s slot (parallelNode params env s slot.1 (dag.role slot.1))
  | task (hrun : ¬LeftOut params s slot.1) (hagent : ¬dag.IsApproval slot.1)
    (hok : env.supplementary slot.1 = .ok ()) (hsingle : params.isParallel (dag.role slot.1) = false) :
    Prepares s slot { s with agentTasks := s.agentTasks ++ [slot] }

variable {s : ExecState dag}

theorem prepares_preNode (hs : s.ended = none) (slot : Slot dag) :
    Prepares params env s slot (preNode params env s slot) := by
  unfold preNode
  rw [if_neg (by simp [hs])]
  dsimp only
  by_cases hskip : (dag.nodeDef slot.1).id ∈ s.skipNodes
  · rw [if_pos hskip]
    exact .leftOut (.inl hskip)
  · rw [if_neg hskip]
    by_cases hresumed : dag.role slot.1 ∈ params.resumeSkipPhases
    · rw [if_pos (show (nodeToPlanstep (dag.nodeDef slot.1)).role ∈ _ from hresumed)]
      exact .leftOut (.inr hresumed)
    · have hrun : ¬LeftOut params s slot.1 := by
        rintro (hin | hin)
        · exact hskip hin
        · exact hresumed hin
      rw [if_neg (show (nodeToPlanstep (dag.nodeDef slot.1)).role ∉ _ from hresumed)]
      by_cases happroval : dag.IsApproval slot.1
      · rw [if_pos (show (dag.nodeDef slot.1).nodeType = _ from happroval)]
        exact .asked hrun happroval
      · rw [if_neg (show (dag.nodeDef slot.1).nodeType ≠ _ from happroval)]
        cases hsupplementary : env.supplementary slot.1 with
        | error e => exact .interrupted hrun happroval hsupplementary
        | ok =>
          dsimp only
          by_cases hparallel : params.isParallel (dag.role slot.1) = true
          · rw [if_pos (show params.isParallel (nodeToPlanstep (dag.nodeDef slot.1)).role = _ from hparallel)]
            exact .parallel hrun happroval hsupplementary hparallel
          · rw [if_neg (show ¬params.isParallel (nodeToPlanstep (dag.nodeDef slot.1)).role = _ from hparallel)]
            exact .task hrun happroval hsupplementary (Bool.eq_false_iff.2 hparallel)

variable {role : AgentRole}

/-- Without parallel groups, no step is parallel. -/
theorem not_isParallel {params : ExecParams dag} (h : params.parallelGroups = []) : ¬params.isParallel role = true := by
  unfold ExecParams.isParallel
  rw [h]
  exact Bool.false_ne_true

theorem exists_parallelGroup (h : params.isParallel role = true) : ∃ group, params.parallelGroup role = some group := by
  unfold ExecParams.isParallel at h
  obtain ⟨group, hgroup, hlong⟩ := any_eq_true.1 h
  refine Option.isSome_iff_exists.1 (find?_isSome.2 ⟨group, hgroup, ?_⟩)
  exact decide_eq_true (of_decide_eq_true hlong).2

/-- The agents of a parallel group are dispatched, and nothing is skipped. -/
theorem parallelNode_frame (ni : dag.NodeIndex) (h : params.isParallel role = true) :
    (parallelNode params env s ni role).events = s.events ++ [.dispatched ni] ∧
      (parallelNode params env s ni role).skipNodes = s.skipNodes ∧
      (parallelNode params env s ni role).agentTasks = s.agentTasks := by
  obtain ⟨group, hgroup⟩ := exists_parallelGroup params h
  unfold parallelNode
  rw [hgroup]
  dsimp only
  split
  · exact ⟨rfl, rfl, rfl⟩
  · exact ⟨rfl, rfl, rfl⟩

/-! ### One dispatch -/

/-- The result of a node does not let the plan go on. -/
def Fails (ni : dag.NodeIndex) : Prop := ∀ result, env.agent ni = .ok result → result.status = "failed"

/-- The ids that the result of a step skips. -/
def skipped (slot : Slot dag) : List String := if dag.role slot.1 = .act then params.idsAfter slot.2 else []

/-- What the dispatch of the tasks of a wave does, by the results that are handled. -/
structure Dispatches (s : ExecState dag) (handled : List (Slot dag × TaskResult)) (s' : ExecState dag) : Prop where
  events_eq : s'.events = s.events ++ s.agentTasks.map (fun slot => .dispatched slot.1) ++
    handled.map fun done => .completed done.1.1 done.2
  skipNodes_eq : s'.skipNodes = s.skipNodes ++ handled.flatMap fun done => skipped params done.1
  agentTasks_eq : s'.agentTasks = s.agentTasks
  earlier : handled.map Prod.fst <+: s.agentTasks
  passed : ∀ done ∈ handled, env.agent done.1.1 = .ok done.2 ∧ done.2.status ≠ "failed"
  all : s'.ended = none → handled.map Prod.fst = s.agentTasks
  fails : s'.ended ≠ none → ∃ slot ∈ s.agentTasks, Fails env slot.1

variable {slot : Slot dag} {result : TaskResult}

theorem handleStepResult_failed (h : result.status = "failed") :
    ∃ final, handleStepResult params s slot result = s.finish (.ok final) := by
  unfold handleStepResult
  rw [if_pos h]
  exact ⟨_, rfl⟩

theorem handleStepResult_passed (h : result.status ≠ "failed") : handleStepResult params s slot result = { s with
        skipNodes := s.skipNodes ++ skipped params slot
        lastResult := some (carryTrackedActions result s.lastResult)
        events := s.events ++ [.completed slot.1 result] } := by
  unfold handleStepResult
  rw [if_neg h]
  rfl

/-- What is done with the results of several tasks, up to one that fails. -/
structure Handles (s : ExecState dag) (tasks : List (Slot dag))
    (handled : List (Slot dag × TaskResult)) (s' : ExecState dag) : Prop where
  events_eq : s'.events = s.events ++ handled.map fun done => .completed done.1.1 done.2
  skipNodes_eq : s'.skipNodes = s.skipNodes ++ handled.flatMap fun done => skipped params done.1
  agentTasks_eq : s'.agentTasks = s.agentTasks
  earlier : handled.map Prod.fst <+: tasks
  passed : ∀ done ∈ handled, env.agent done.1.1 = .ok done.2 ∧ done.2.status ≠ "failed"
  all : s'.ended = none → handled.map Prod.fst = tasks
  fails : s'.ended ≠ none → ∃ slot ∈ tasks, Fails env slot.1

theorem foldl_handleWaveResult_of_ended (hs : s.ended ≠ none) (tasks : List (Slot dag)) :
    tasks.foldl (handleWaveResult params env) s = s := by
  induction tasks with
  | nil => rfl
  | cons slot tasks ih =>
    have hsame : handleWaveResult params env s slot = s := by
      unfold handleWaveResult
      rw [if_pos (Option.isSome_iff_ne_none.2 hs)]
    rw [foldl_cons, hsame, ih]

theorem handles_of_fails (hfails : Fails env slot.1) (tasks : List (Slot dag)) (final : Except CoreError TaskResult) :
    Handles params env s (slot :: tasks) [] (s.finish final) where
  events_eq := (append_nil _).symm
  skipNodes_eq := (append_nil _).symm
  agentTasks_eq := rfl
  earlier := nil_prefix
  passed := fun _ h => (nomatch h)
  all := fun h => (nomatch h)
  fails := fun _ => ⟨slot, mem_cons_self, hfails⟩

/-- A task that passes goes before the others. -/
theorem Handles.cons {s s' : ExecState dag} {tasks : List (Slot dag)} {handled : List (Slot dag × TaskResult)}
    (hagent : env.agent slot.1 = .ok result) (hpassed : result.status ≠ "failed")
    (h : Handles params env (handleStepResult params s slot result) tasks handled s') :
    Handles params env s (slot :: tasks) ((slot, result) :: handled) s' := by
  rw [handleStepResult_passed params hpassed] at h
  constructor
  · rw [h.events_eq, map_cons, append_assoc]
    rfl
  · rw [h.skipNodes_eq, flatMap_cons, append_assoc]
  · exact h.agentTasks_eq
  · exact (prefix_cons_inj slot).2 h.earlier
  · exact forall_mem_cons.2 ⟨⟨hagent, hpassed⟩, h.passed⟩
  · intro hended
    rw [map_cons, h.all hended]
  · intro hended
    obtain ⟨other, hother, hfails⟩ := h.fails hended
    exact ⟨other, mem_cons_of_mem slot hother, hfails⟩

section

variable (hs : s.ended = none)
include hs

theorem handleWaveResult_error {e : CoreError} (h : env.agent slot.1 = .error e) :
    handleWaveResult params env s slot =
      s.finish (.ok ⟨"failed", none, "Wave node dispatch failed: " ++ displayError e, [],
        collectTrackedActions s.lastResult []⟩) := by
  unfold handleWaveResult
  rw [if_neg (by simp [hs]), h]

theorem handleWaveResult_ok (h : env.agent slot.1 = .ok result) :
    handleWaveResult params env s slot = handleStepResult params s slot result := by
  unfold handleWaveResult
  rw [if_neg (by simp [hs]), h]

theorem exists_handles (tasks : List (Slot dag)) :
    ∃ handled, Handles params env s tasks handled (tasks.foldl (handleWaveResult params env) s) := by
  induction tasks generalizing s with
  | nil =>
    exact ⟨[], (append_nil _).symm, (append_nil _).symm, rfl, nil_prefix,
      fun _ h => (nomatch h), fun _ => rfl, fun h => absurd hs h⟩
  | cons slot tasks ih =>
    rw [foldl_cons]
    cases hagent : env.agent slot.1 with
    | error e =>
      rw [handleWaveResult_error params env hs hagent, foldl_handleWaveResult_of_ended _ _ (by simp [ExecState.finish])]
      exact ⟨[], handles_of_fails params env (fun result h => by simp [hagent] at h) tasks _⟩
    | ok result =>
      rw [handleWaveResult_ok params env hs hagent]
      by_cases hfailed : result.status = "failed"
      · obtain ⟨final, hfinal⟩ : ∃ final, handleStepResult params s slot result = s.finish (.ok final) :=
          handleStepResult_failed params hfailed
        rw [hfinal, foldl_handleWaveResult_of_ended _ _ (by simp [ExecState.finish])]
        refine ⟨[], handles_of_fails params env (fun other h => ?_) tasks _⟩
        rw [hagent] at h
        exact Except.ok.inj h ▸ hfailed
      · have hended : (handleStepResult params s slot result).ended = none := by
          rw [handleStepResult_passed params hfailed]
          exact hs
        obtain ⟨handled, hhandled⟩ := ih hended
        exact ⟨(slot, result) :: handled, hhandled.cons params env hagent hfailed⟩

/-- **The dispatch of a wave.** -/
theorem exists_dispatches :
    ∃ handled, Dispatches params env s handled (dispatchTasks params env s) := by
  have hofHandles : ∀ {handled s'}, Handles params env
      { s with events := s.events ++ s.agentTasks.map fun slot => .dispatched slot.1 } s.agentTasks
      handled s' → Dispatches params env s handled s' := fun h =>
    ⟨h.events_eq, h.skipNodes_eq, h.agentTasks_eq, h.earlier, h.passed, h.all, h.fails⟩
  unfold dispatchTasks
  split
  next hnil =>
    refine ⟨[], ?_, (append_nil _).symm, rfl, nil_prefix, fun _ h => (nomatch h),
      fun _ => hnil.symm, fun h => absurd hs h⟩
    rw [hnil]
    simp
  next slot hone =>
    have hevents : s.events ++ [PlanEvent.dispatched slot.1] =
        s.events ++ s.agentTasks.map fun slot => .dispatched slot.1 := by
      rw [hone]
      rfl
    have hstate : s.emit (.dispatched slot.1) =
        { s with events := s.events ++ s.agentTasks.map fun slot => .dispatched slot.1 } := by
      unfold ExecState.emit
      rw [hevents]
    rw [hstate]
    cases hagent : env.agent slot.1 with
    | error e =>
      refine ⟨[], hofHandles ?_⟩
      rw [hone]
      exact handles_of_fails params env (fun result h => by simp [hagent] at h) [] _
    | ok result =>
      dsimp only
      by_cases hfailed : result.status = "failed"
      · refine ⟨[], hofHandles ?_⟩
        obtain ⟨final, hfinal⟩ : ∃ final, handleStepResult params
            { s with events := s.events ++ s.agentTasks.map fun slot => .dispatched slot.1 } slot result =
              ExecState.finish _ (.ok final) := handleStepResult_failed params hfailed
        rw [hfinal]
        rw [hone]
        refine handles_of_fails params env (fun other h => ?_) [] _
        rw [hagent] at h
        exact Except.ok.inj h ▸ hfailed
      · refine ⟨[(slot, result)], hofHandles ?_⟩
        rw [hone]
        refine Handles.cons params env hagent hfailed ?_
        refine ⟨(append_nil _).symm, (append_nil _).symm, rfl, nil_prefix,
          fun _ h => (nomatch h), fun _ => rfl, fun h => absurd ?_ h⟩
        rw [handleStepResult_passed params hfailed]
        exact hs
  next =>
    have hs' : ({ s with events := s.events ++ s.agentTasks.map fun slot => .dispatched slot.1 } :
        ExecState dag).ended = none := hs
    obtain ⟨handled, hhandled⟩ := exists_handles params env hs' s.agentTasks
    exact ⟨handled, hofHandles hhandled⟩

end

/-- What holds before each dispatch: one more event. -/
theorem beforeDispatch_concat {holds : List (PlanEvent dag) → dag.NodeIndex → Prop} {events : List (PlanEvent dag)}
    {event : PlanEvent dag} (h : ∀ before n after, events = before ++ .dispatched n :: after → holds before n)
    (hevent : ∀ n, event = .dispatched n → holds events n) (before : List (PlanEvent dag)) (n : dag.NodeIndex)
    (after : List (PlanEvent dag)) (hsplit : events ++ [event] = before ++ .dispatched n :: after) :
    holds before n := by
  rcases eq_nil_or_concat after with rfl | ⟨after, last, rfl⟩
  · obtain ⟨rfl, hlast⟩ := append_inj' hsplit rfl
    exact hevent n (singleton_inj.1 hlast)
  · rw [concat_eq_append, ← cons_append, ← append_assoc] at hsplit
    obtain ⟨rfl, -⟩ := append_inj' hsplit rfl
    exact h before n after rfl

/-! ### The execution -/

/-- A turn: the slots whose turn is over, the state, the slot, and the rest of the wave. -/
structure Turn (dag : WorkflowDag) where
  seen : List (Slot dag)
  state : ExecState dag
  slot : Slot dag
  rest : List (Slot dag)

/-- The turns of a wave. -/
def waveTurns : List (Slot dag) → ExecState dag → List (Slot dag) → List (Turn dag)
  | _, _, [] => []
  | seen, s, slot :: rest =>
    ⟨seen, s, slot, rest⟩ :: waveTurns (seen ++ [slot]) (preNode params env s slot) rest

/-- The turns of waves, as long as the plan has not ended. -/
def turnsFrom : List (Slot dag) → ExecState dag → List (List (Slot dag)) → List (Turn dag)
  | _, _, [] => []
  | seen, s, wave :: waves =>
    if s.ended.isSome then []
    else waveTurns params env seen { s with agentTasks := [] } wave ++
      turnsFrom (seen ++ wave) (execWave params env s wave) waves

/-- The turns of the execution; a turn of a plan that has ended does nothing. -/
def turns : List (Turn dag) := turnsFrom params env [] .start (Waves.waves dag.incoming params.order)

variable {seen : List (Slot dag)} {turn : Turn dag} {wave : List (Slot dag)}

theorem waveTurns_slots (h : turn ∈ waveTurns params env seen s wave) :
    turn.seen ++ turn.slot :: turn.rest = seen ++ wave := by
  induction wave generalizing seen s with
  | nil => cases h
  | cons slot rest ih =>
    rcases mem_cons.1 h with rfl | hlater
    · rfl
    · rw [ih hlater, append_assoc]
      rfl

variable {waves : List (List (Slot dag))}

theorem turnsFrom_slots
    (h : turn ∈ turnsFrom params env seen s waves) : turn.seen ++ turn.slot :: turn.rest <+: seen ++ waves.flatten := by
  induction waves generalizing seen s with
  | nil => cases h
  | cons wave waves ih =>
    rw [turnsFrom] at h
    split_ifs at h with hs
    · cases h
    · rw [flatten_cons, ← append_assoc]
      rcases mem_append.1 h with hwave | hlater
      · rw [waveTurns_slots params env hwave]
        exact prefix_append _ _
      · exact ih hlater

theorem turns_slots (h : turn ∈ turns params env) : turn.seen ++ turn.slot :: turn.rest <+: params.order.zipIdx := by
  have hslots := turnsFrom_slots params env h
  rwa [nil_append, Waves.flatten_waves] at hslots

section Rule

variable {params env} {P : List (Slot dag) → List (Slot dag) → ExecState dag → Prop}

theorem preNode_of_ended (hs : s.ended ≠ none) (slot : Slot dag) : preNode params env s slot = s := by
  unfold preNode
  rw [if_pos (Option.isSome_iff_ne_none.2 hs)]

theorem foldl_preNode_of_ended (hs : s.ended ≠ none) (wave : List (Slot dag)) :
    wave.foldl (preNode params env) s = s := by
  induction wave with
  | nil => rfl
  | cons slot rest ih => rw [foldl_cons, preNode_of_ended hs, ih]

theorem foldl_execWave_of_ended (hs : s.ended ≠ none) (waves : List (List (Slot dag))) :
    waves.foldl (execWave params env) s = s := by
  induction waves with
  | nil => rfl
  | cons wave waves ih =>
    have hsame : execWave params env s wave = s := by
      unfold execWave
      rw [if_pos (Option.isSome_iff_ne_none.2 hs)]
    rw [foldl_cons, hsame, ih]

/-- The first phase of a wave: either all turns are over, or the plan has ended. -/
theorem wave_rule (hturn : ∀ turn ∈ waveTurns params env seen s wave, turn.state.ended = none →
      P turn.seen (turn.slot :: turn.rest) turn.state →
        P (turn.seen ++ [turn.slot]) turn.rest (preNode params env turn.state turn.slot)) (hP : P seen wave s) :
    (∃ seen' rest, P seen' rest (wave.foldl (preNode params env) s)) ∧
      ((wave.foldl (preNode params env) s).ended = none → P (seen ++ wave) [] (wave.foldl (preNode params env) s)) := by
  induction wave generalizing seen s with
  | nil => exact ⟨⟨seen, [], hP⟩, fun _ => by rwa [append_nil]⟩
  | cons slot rest ih =>
    rw [foldl_cons]
    by_cases hs : s.ended = none
    · have hnext := hturn ⟨seen, s, slot, rest⟩ mem_cons_self hs hP
      obtain ⟨hsome, hall⟩ := ih (fun turn hmem => hturn turn (mem_cons_of_mem _ hmem)) hnext
      refine ⟨hsome, fun hended => ?_⟩
      have hdone := hall hended
      rwa [append_assoc] at hdone
    · rw [preNode_of_ended hs, foldl_preNode_of_ended hs]
      exact ⟨⟨seen, slot :: rest, hP⟩, fun hended => absurd hended hs⟩

/-- **The rule of the execution**: what holds at the start, and is kept by each turn and by each dispatch,
holds at the end, and after each wave. -/
theorem waves_rule (hopen : ∀ seen wave s, P seen [] s → s.ended = none → P seen wave { s with agentTasks := [] })
    (hturn : ∀ turn ∈ turnsFrom params env seen s waves, turn.state.ended = none →
      P turn.seen (turn.slot :: turn.rest) turn.state →
        P (turn.seen ++ [turn.slot]) turn.rest (preNode params env turn.state turn.slot))
    (hdispatch : ∀ seen s, P seen [] s → s.ended = none → P seen [] (dispatchTasks params env s)) (hP : P seen [] s) :
    (∃ seen' rest, P seen' rest (waves.foldl (execWave params env) s)) ∧
      ((waves.foldl (execWave params env) s).ended = none →
        P (seen ++ waves.flatten) [] (waves.foldl (execWave params env) s)) := by
  induction waves generalizing seen s with
  | nil => exact ⟨⟨seen, [], hP⟩, fun _ => by rwa [flatten_nil, append_nil]⟩
  | cons wave waves ih =>
    by_cases hs : s.ended = none
    · have hturns : turnsFrom params env seen s (wave :: waves) =
          waveTurns params env seen { s with agentTasks := [] } wave ++
            turnsFrom params env (seen ++ wave) (execWave params env s wave) waves := by
        rw [turnsFrom, if_neg (by simp [hs])]
      rw [hturns] at hturn
      obtain ⟨⟨seen', rest, hsome⟩, hall⟩ := wave_rule
        (fun turn hmem => hturn turn (mem_append_left _ hmem)) (hopen seen wave s hP hs)
      have hwave : execWave params env s wave = let s' := wave.foldl (preNode params env) { s with agentTasks := [] }
          if s'.ended.isSome then s' else dispatchTasks params env s' := by
        unfold execWave
        rw [if_neg (by simp [hs])]
      rw [foldl_cons, flatten_cons, ← append_assoc]
      by_cases hended : (wave.foldl (preNode params env) { s with agentTasks := [] }).ended = none
      · rw [show execWave params env s wave = dispatchTasks params env _ from
          hwave.trans (if_neg (by simp [hended]))] at hturn ⊢
        exact ih (fun turn hmem => hturn turn (mem_append_right _ hmem))
          (hdispatch _ _ (hall hended) hended)
      · have hstop : execWave params env s wave = wave.foldl (preNode params env) { s with agentTasks := [] } :=
          hwave.trans (if_pos (Option.isSome_iff_ne_none.2 hended))
        rw [hstop, foldl_execWave_of_ended hended]
        exact ⟨⟨seen', rest, hsome⟩, fun hnone => absurd hnone hended⟩
    · rw [foldl_execWave_of_ended hs]
      exact ⟨⟨seen, [], hP⟩, fun hended => absurd hended hs⟩

theorem executeDag_rule (hopen : ∀ seen wave s, P seen [] s → s.ended = none → P seen wave { s with agentTasks := [] })
    (hturn : ∀ turn ∈ turns params env, turn.state.ended = none →
      P turn.seen (turn.slot :: turn.rest) turn.state →
        P (turn.seen ++ [turn.slot]) turn.rest (preNode params env turn.state turn.slot))
    (hdispatch : ∀ seen s, P seen [] s → s.ended = none → P seen [] (dispatchTasks params env s))
    (hstart : P [] [] .start) : ∃ seen rest, P seen rest (executeDag params env) :=
  (waves_rule hopen hturn hdispatch hstart).1

end Rule

end WildAgentOs.Core
