import WildAgentOs.Core.PlanTurns

/-!
# Human approval

The targets of an approval node are no edges of the graph, and an answer skips a stretch of the order.
So a target may come before its approval node, and what lies behind the target that was not chosen is
executed all the same.

* `Follows`, `OnlyThrough`: what a node leads to;
* `ApprovalsGate`, `Closed`, `TurnOk`.
-/

namespace WildAgentOs.Core

open Memory Waves List

namespace WorkflowDag

variable (dag : WorkflowDag)

/-- An approval node names a node. -/
def Names (a t : dag.NodeIndex) : Prop :=
  dag.IsApproval a ∧ ((dag.nodeDef a).approvalNextOnApprove = some (dag.nodeDef t).id ∨
    (dag.nodeDef a).approvalNextOnReject = some (dag.nodeDef t).id)

/-- By `next`, `next_nodes`, `dependencies` or an approval target. -/
def Follows (m n : dag.NodeIndex) : Prop :=
  (∃ edge ∈ dag.edges, edge.source = m ∧ edge.target = n ∧ edge.relation ≠ .branch) ∨ dag.Names m n

/-- The nodes that are reached from the entry node without others. -/
inductive ReachedWithout (avoid : dag.NodeIndex → Prop) : dag.NodeIndex → Prop
  | entry (h : ¬avoid dag.entryNode) : ReachedWithout avoid dag.entryNode
  | step {m n : dag.NodeIndex} (hm : ReachedWithout avoid m) (hfollows : dag.Follows m n)
    (h : ¬avoid n) : ReachedWithout avoid n

/-- What is reached, but only through certain nodes. -/
def OnlyThrough (through : dag.NodeIndex → Prop) (n : dag.NodeIndex) : Prop :=
  dag.ReachedWithout (fun _ => False) n ∧ ¬dag.ReachedWithout through n

/-- What an answer rules out: what is only behind the target of the other answer, and after a rejection
without a target what is only behind the approval node. -/
def Forbids (a : dag.NodeIndex) (approved : Bool) (n : dag.NodeIndex) : Prop :=
  (∃ other, ExecParams.approvalTarget (dag.nodeDef a) (!approved) = some other ∧
    ExecParams.approvalTarget (dag.nodeDef a) approved ≠ some other ∧
    dag.OnlyThrough (fun m => (dag.nodeDef m).id = other) n) ∨
  (approved = false ∧ (dag.nodeDef a).approvalNextOnReject = none ∧ dag.OnlyThrough (fun m => m = a) n)

end WorkflowDag

variable {dag : WorkflowDag}

/-- After what was done before, the node may be dispatched. -/
structure Allows (before : List (PlanEvent dag)) (t : dag.NodeIndex) : Prop where
  answered : ∀ a, dag.Names a t → ∃ approved, .answered a approved ∈ before
  chosen : ∀ a approved, .answered a approved ∈ before → ¬dag.Forbids a approved t

/-- No node is dispatched before the approval nodes that name it were answered, and none that an answer
rules out. -/
def ApprovalsGate (events : List (PlanEvent dag)) : Prop :=
  ∀ before t after, events = before ++ .dispatched t :: after → Allows before t

variable {params : ExecParams dag} {env : ExecEnv dag} {s : ExecState dag}

/-- A node that will not be dispatched any more: it waits for no dispatch, and its turn is over, or it is
skipped, or its phase was completed before, or it is an approval node. -/
structure Closed (params : ExecParams dag) (seen : List (Slot dag)) (s : ExecState dag)
    (n : dag.NodeIndex) : Prop where
  notWaiting : ∀ i, (n, i) ∉ s.agentTasks
  past : (∃ i, (n, i) ∈ seen) ∨ (dag.nodeDef n).id ∈ s.skipNodes ∨
    dag.role n ∈ params.resumeSkipPhases ∨ dag.IsApproval n

/-- When a turn is right.  A node that is run: the approval nodes that name it had their turn, or have it in
this wave before the dispatch.  An approval node that is left out: its targets are closed.  An approval
node that is answered: what the answer rules out is closed, with what it skips. -/
structure TurnOk (params : ExecParams dag) (env : ExecEnv dag) (turn : Turn dag) : Prop where
  run : ¬LeftOut params turn.state turn.slot.1 → ¬dag.IsApproval turn.slot.1 →
    ∀ a, dag.Names a turn.slot.1 → (∃ i, (a, i) ∈ turn.seen) ∨
      params.isParallel (dag.role turn.slot.1) = false ∧ ∃ i, (a, i) ∈ turn.rest
  leftOut : LeftOut params turn.state turn.slot.1 → dag.IsApproval turn.slot.1 →
    ∀ t, dag.Names turn.slot.1 t → Closed params (turn.seen ++ [turn.slot]) turn.state t
  answered : ¬LeftOut params turn.state turn.slot.1 → dag.IsApproval turn.slot.1 →
    ∀ n, dag.Forbids turn.slot.1 (env.approval turn.slot.1).approved n →
      Closed params (turn.seen ++ [turn.slot])
        { turn.state with
          skipNodes := turn.state.skipNodes ++
            params.jumped turn.slot.1 turn.slot.2 (env.approval turn.slot.1).approved } n

/-! ### What is dispatched -/

variable {t : dag.NodeIndex}

/-- More is answered, and nothing else is ruled out, by what is no answer. -/
theorem Allows.append {before more : List (PlanEvent dag)} (h : Allows before t)
    (hmore : ∀ a approved, .answered a approved ∉ more) : Allows (before ++ more) t := by
  constructor
  · intro a hnames
    obtain ⟨approved, hanswered⟩ := h.answered a hnames
    exact ⟨approved, mem_append_left _ hanswered⟩
  · intro a approved hanswered
    rcases mem_append.1 hanswered with hbefore | hin
    · exact h.chosen a approved hbefore
    · exact absurd hin (hmore a approved)

theorem approvalsGate_nil : ApprovalsGate ([] : List (PlanEvent dag)) := by
  intro before t after h
  simp at h

/-- What was dispatched at the end is allowed by what was done before. -/
theorem ApprovalsGate.concat {events : List (PlanEvent dag)} {event : PlanEvent dag} (h : ApprovalsGate events)
    (hevent : ∀ t, event = .dispatched t → Allows events t) : ApprovalsGate (events ++ [event]) :=
  beforeDispatch_concat h hevent

theorem ApprovalsGate.append {events more : List (PlanEvent dag)} (h : ApprovalsGate events)
    (hanswered : ∀ a approved, .answered a approved ∉ more)
    (hmore : ∀ t, .dispatched t ∈ more → Allows events t) : ApprovalsGate (events ++ more) := by
  induction more using reverseRecOn with
  | nil => rwa [append_nil]
  | append_singleton more event ih =>
    rw [← append_assoc]
    have hearlier : ∀ a approved, .answered a approved ∉ more := fun a approved hin =>
      hanswered a approved (mem_append_left _ hin)
    refine (ih hearlier fun t ht => hmore t (mem_append_left _ ht)).concat fun t ht => ?_
    exact (hmore t (mem_append_right _ (mem_singleton.2 ht.symm))).append hearlier

/-! ### The invariant -/

variable {seen : List (Slot dag)} {s s' : ExecState dag} {n : dag.NodeIndex}

theorem Closed.mono {seen' : List (Slot dag)} (h : Closed params seen s n)
    (hseen : seen ⊆ seen') (hskip : s.skipNodes ⊆ s'.skipNodes)
    (htasks : ∀ i, (n, i) ∈ s'.agentTasks → (n, i) ∈ s.agentTasks) : Closed params seen' s' n := by
  refine ⟨fun i hin => h.notWaiting i (htasks i hin), ?_⟩
  rcases h.past with ⟨i, hin⟩ | hskipped | hrest
  · exact .inl ⟨i, hseen hin⟩
  · exact .inr (.inl (hskip hskipped))
  · exact .inr (.inr hrest)

/-- A node has one turn. -/
def OneTurn (seen rest : List (Slot dag)) : Prop := (seen ++ rest).Pairwise fun a b => a.1 ≠ b.1

variable {rest : List (Slot dag)} {slot : Slot dag}

/-- The turn of a closed node leaves it out, or asks. -/
theorem Closed.leftOut (hone : OneTurn seen (slot :: rest)) (h : Closed params seen s slot.1)
    (hagent : ¬dag.IsApproval slot.1) : LeftOut params s slot.1 := by
  rcases h.past with ⟨i, hin⟩ | hskipped | hresumed | happroval
  · exact absurd rfl ((pairwise_append.1 hone).2.2 _ hin slot mem_cons_self)
  · exact .inl hskipped
  · exact .inr hresumed
  · exact absurd happroval hagent

/-- What holds between turns, when each of them is right. -/
structure GateInv (params : ExecParams dag) (seen rest : List (Slot dag)) (s : ExecState dag) : Prop where
  tasks : ∀ slot ∈ s.agentTasks, slot ∈ seen
  gate : ApprovalsGate s.events
  /-- What an answer ruled out stays closed. -/
  forbidden : ∀ a approved, .answered a approved ∈ s.events → ∀ n, dag.Forbids a approved n → Closed params seen s n
  /-- An approval node whose turn is over was answered, or its targets are closed. -/
  passed : ∀ a i, (a, i) ∈ seen → dag.IsApproval a → (∃ approved, .answered a approved ∈ s.events) ∨
    ∀ t, dag.Names a t → Closed params seen s t
  /-- The approval nodes that name a waiting task have their turn before its dispatch. -/
  waiting : ∀ slot ∈ s.agentTasks, ∀ a, dag.Names a slot.1 → ∃ i, (a, i) ∈ seen ++ rest

/-- What is not closed and was named by past approval nodes only may be dispatched. -/
theorem GateInv.allows (h : GateInv params seen rest s) (hopen : ¬Closed params seen s t)
    (hnames : ∀ a, dag.Names a t → ∃ i, (a, i) ∈ seen) : Allows s.events t := by
  constructor
  · intro a ha
    obtain ⟨i, hin⟩ := hnames a ha
    rcases h.passed a i hin ha.1 with hanswered | hclosed
    · exact hanswered
    · exact absurd (hclosed t ha) hopen
  · exact fun a approved hanswered hforbids => hopen (h.forbidden a approved hanswered t hforbids)

variable {more : List (PlanEvent dag)}

/-- What only adds events that are no answers, and skips nothing less. -/
theorem GateInv.frame {seen' rest' : List (Slot dag)} (h : GateInv params seen rest s) (hseen : seen ⊆ seen')
    (hall : seen ++ rest ⊆ seen' ++ rest') (hevents : s'.events = s.events ++ more) (hskip : s.skipNodes ⊆ s'.skipNodes)
    (htasks : s'.agentTasks ⊆ s.agentTasks) (hanswered : ∀ a approved, .answered a approved ∉ more)
    (hmore : ∀ t, .dispatched t ∈ more → Allows s.events t)
    (hnew : ∀ a i, (a, i) ∈ seen' → (a, i) ∉ seen → dag.IsApproval a → ∀ t, dag.Names a t → Closed params seen' s' t) :
    GateInv params seen' rest' s' := by
  have hclosed : ∀ n, Closed params seen s n → Closed params seen' s' n := fun n hn =>
    hn.mono hseen hskip fun i hin => htasks hin
  constructor
  · exact fun slot hslot => hseen (h.tasks slot (htasks hslot))
  · rw [hevents]
    exact h.gate.append hanswered hmore
  · intro a approved hin n hforbids
    rw [hevents] at hin
    rcases mem_append.1 hin with hin | hin
    · exact hclosed n (h.forbidden a approved hin n hforbids)
    · exact absurd hin (hanswered a approved)
  · intro a i hin happroval
    by_cases hold : (a, i) ∈ seen
    · rcases h.passed a i hold happroval with ⟨approved, hold⟩ | hall
      · exact .inl ⟨approved, hevents ▸ mem_append_left _ hold⟩
      · exact .inr fun t ht => hclosed t (hall t ht)
    · exact .inr (hnew a i hin hold happroval)
  · intro slot hslot a ha
    obtain ⟨i, hin⟩ := h.waiting slot (htasks hslot) a ha
    exact ⟨i, hall hin⟩

/-- A turn that asks nothing. -/
theorem GateInv.next {seen rest : List (Slot dag)} (h : GateInv params seen (slot :: rest) s)
    (hevents : s'.events = s.events ++ more)
    (hskip : s'.skipNodes = s.skipNodes) (htasks : s'.agentTasks = s.agentTasks)
    (hanswered : ∀ a approved, .answered a approved ∉ more) (hmore : ∀ t, .dispatched t ∈ more → Allows s.events t)
    (hslot : dag.IsApproval slot.1 → ∀ t, dag.Names slot.1 t → Closed params (seen ++ [slot]) s t) :
    GateInv params (seen ++ [slot]) rest s' := by
  have hskips : s.skipNodes ⊆ s'.skipNodes := by
    rw [hskip]
    exact List.Subset.refl _
  refine h.frame (subset_append_left _ _) (by simp) hevents hskips (by simp [htasks]) hanswered
    hmore fun a i hin hout happroval t ht => ?_
  rcases mem_append.1 hin with hin | hin
  · exact absurd hin hout
  · obtain rfl := mem_singleton.1 hin
    exact (hslot happroval t ht).mono (List.Subset.refl _) hskips fun j hj => htasks ▸ hj

/-- **One turn** that is right keeps the invariant. -/
theorem GateInv.turn (hs : s.ended = none) (hone : OneTurn seen (slot :: rest))
    (hok : TurnOk params env ⟨seen, s, slot, rest⟩) (h : GateInv params seen (slot :: rest) s) :
    GateInv params (seen ++ [slot]) rest (preNode params env s slot) := by
  have hstep := prepares_preNode params env hs slot
  generalize hs' : preNode params env s slot = s' at hstep
  clear hs'
  cases hstep with
  | leftOut hleft =>
    exact h.next (append_nil _).symm rfl rfl (fun _ _ h => (nomatch h)) (fun _ h => (nomatch h))
      (hok.leftOut hleft)
  | interrupted hrun hagent herror =>
    refine h.next rfl rfl rfl ?_ ?_ fun happroval => absurd happroval hagent
    · intro a approved hin
      cases mem_singleton.1 hin
    · intro t hin
      cases mem_singleton.1 hin
  | parallel hrun hagent hsup hparallel =>
    have hnames : ∀ a, dag.Names a slot.1 → ∃ i, (a, i) ∈ seen := by
      intro a ha
      rcases hok.run hrun hagent a ha with hseen | ⟨hsingle, -⟩
      · exact hseen
      · exact absurd (hsingle.symm.trans hparallel) (by decide)
    have hallows := h.allows (fun hclosed => hrun (hclosed.leftOut hone hagent)) hnames
    have hfields := parallelNode_frame params env (s := s) slot.1 hparallel
    refine h.next hfields.1 hfields.2.1 hfields.2.2 ?_ ?_ fun happroval => absurd happroval hagent
    · intro a approved hin
      cases mem_singleton.1 hin
    · intro t hin
      cases mem_singleton.1 hin
      exact hallows
  | task hrun hagent hsup hsingle =>
    have hclosed : ∀ n, Closed params seen s n → Closed params (seen ++ [slot])
        { s with agentTasks := s.agentTasks ++ [slot] } n := by
      intro n hn
      refine hn.mono (subset_append_left _ _) (List.Subset.refl _) fun i hin => ?_
      rcases mem_append.1 hin with hin | hin
      · exact hin
      · obtain rfl := mem_singleton.1 hin
        exact absurd (hn.leftOut hone hagent) hrun
    constructor
    · intro other hother
      rcases mem_append.1 hother with hold | hnew
      · exact mem_append_left _ (h.tasks other hold)
      · exact mem_append_right _ hnew
    · exact h.gate
    · exact fun a approved hin n hforbids => hclosed n (h.forbidden a approved hin n hforbids)
    · intro a i hin happroval
      rcases mem_append.1 hin with hin | hin
      · rcases h.passed a i hin happroval with hanswered | hall
        · exact .inl hanswered
        · exact .inr fun t ht => hclosed t (hall t ht)
      · obtain rfl := mem_singleton.1 hin
        exact absurd happroval hagent
    · intro other hother a ha
      rw [append_assoc]
      rcases mem_append.1 hother with hold | hnew
      · exact h.waiting other hold a ha
      · obtain rfl := mem_singleton.1 hnew
        rcases hok.run hrun hagent a ha with ⟨i, hseen⟩ | ⟨-, i, hrest⟩
        · exact ⟨i, mem_append_left _ hseen⟩
        · exact ⟨i, mem_append_right _ (mem_cons_of_mem _ hrest)⟩
  | asked hrun happroval =>
    have hclosed : ∀ n, Closed params seen s n → Closed params (seen ++ [slot])
        (approvalNode params env s slot.1 slot.2) n := fun n hn =>
      hn.mono (subset_append_left _ _) (subset_append_left _ _) fun _ hin => hin
    have hnew : ∀ a approved, .answered a approved ∈ (approvalNode params env s slot.1 slot.2).events →
        .answered a approved ∈ s.events ∨ a = slot.1 ∧ approved = (env.approval slot.1).approved := by
      intro a approved hin
      rcases mem_append.1 hin with hold | hin
      · exact .inl hold
      · rcases mem_cons.1 hin with heq | hin
        · cases heq
        · cases mem_singleton.1 hin
          exact .inr ⟨rfl, rfl⟩
    constructor
    · exact fun other hother => mem_append_left _ (h.tasks other hother)
    · show ApprovalsGate (s.events ++ ([.asked slot.1] ++ [.answered slot.1 _]))
      rw [← append_assoc]
      exact (h.gate.concat fun t ht => by cases ht).concat fun t ht => by cases ht
    · intro a approved hin n hforbids
      rcases hnew a approved hin with hold | ⟨rfl, rfl⟩
      · exact hclosed n (h.forbidden a approved hold n hforbids)
      · exact (hok.answered hrun happroval n hforbids).mono (List.Subset.refl _) (List.Subset.refl _)
          fun _ hin => hin
    · intro a i hin ha
      rcases mem_append.1 hin with hin | hin
      · rcases h.passed a i hin ha with ⟨approved, hold⟩ | hall
        · exact .inl ⟨approved, mem_append_left _ hold⟩
        · exact .inr fun t ht => hclosed t (hall t ht)
      · obtain rfl := mem_singleton.1 hin
        exact .inl ⟨_, mem_append_right _ (mem_cons_of_mem _ mem_cons_self)⟩
    · intro other hother a ha
      rw [append_assoc]
      exact h.waiting other hother a ha

/-- **The dispatch** of the waiting tasks keeps it. -/
theorem GateInv.dispatch (hs : s.ended = none) (h : GateInv params seen [] s) :
    GateInv params seen [] (dispatchTasks params env s) := by
  obtain ⟨handled, hdispatch⟩ := exists_dispatches params env hs
  have hevents := hdispatch.events_eq
  rw [append_assoc] at hevents
  refine h.frame (List.Subset.refl _) (List.Subset.refl _) hevents ?_ ?_ ?_ ?_
    fun a i hin hout => absurd hin hout
  · rw [hdispatch.skipNodes_eq]
    exact subset_append_left _ _
  · rw [hdispatch.agentTasks_eq]
    exact List.Subset.refl _
  · intro a approved hin
    simp at hin
  · intro t hin
    rcases mem_append.1 hin with hin | hin
    · obtain ⟨slot, hslot, heq⟩ := mem_map.1 hin
      cases heq
      refine h.allows (fun hclosed => hclosed.notWaiting slot.2 hslot) fun a ha => ?_
      simpa using h.waiting slot hslot a ha
    · obtain ⟨done, -, heq⟩ := mem_map.1 hin
      cases heq

theorem GateInv.start : GateInv params [] [] (.start : ExecState dag) where
  tasks := fun _ h => (nomatch h)
  gate := approvalsGate_nil
  forbidden := fun _ _ h => (nomatch h)
  passed := fun _ _ h => (nomatch h)
  waiting := fun _ h => (nomatch h)

theorem oneTurn_of_mem_turns (hnodup : params.order.Nodup) {turn : Turn dag}
    (h : turn ∈ turns params env) : OneTurn turn.seen (turn.slot :: turn.rest) := by
  have hfst : (params.order.zipIdx.map Prod.fst).Nodup := by
    rwa [zipIdx_map_fst]
  have hslots : params.order.zipIdx.Pairwise fun a b => a.1 ≠ b.1 := pairwise_map.1 hfst
  exact hslots.sublist (turns_slots params env h).sublist

/-- **An execution** whose turns are all right keeps the gate. -/
theorem approvalsGate_executeDag (hnodup : params.order.Nodup)
    (hturns : ∀ turn ∈ turns params env, turn.state.ended = none → TurnOk params env turn) :
    ApprovalsGate (executeDag params env).events := by
  have hrule : ∃ seen rest, GateInv params seen rest (executeDag params env) := by
    refine executeDag_rule (fun seen wave s h hs => ?_) (fun turn hturn hs h => ?_)
      (fun seen s h hs => h.dispatch hs) GateInv.start
    · have hevents : s.events = s.events ++ [] := (append_nil _).symm
      exact h.frame (List.Subset.refl _) (by simp) hevents (List.Subset.refl _) (nil_subset _)
        (fun _ _ h => (nomatch h)) (fun _ h => (nomatch h)) fun a i hin hout => absurd hin hout
    · exact h.turn hs (oneTurn_of_mem_turns hnodup hturn) (hturns turn hturn hs)
  obtain ⟨seen, rest, h⟩ := hrule
  exact h.gate

/-- **The gate of a plan**: in every run whose turns are right, no node is dispatched before the approval
nodes that name it were answered, and none that an answer rules out. -/
theorem approvalsGate_of_turns {penv : PlanEnv} (hlaw : ToposortLaw penv.toposort)
    {oracle : (dag : WorkflowDag) → ExecEnv dag} {plan : ExecutionPlan}
    {resumeSkipPhases : List AgentRole} {run : PlanRun}
    (hrun : executePlan penv oracle plan resumeSkipPhases = .ok run)
    (hturns : ∀ turn ∈ turns run.params (oracle run.dag), turn.state.ended = none →
      TurnOk run.params (oracle run.dag) turn) :
    ApprovalsGate run.final.events := by
  obtain ⟨-, htopological, -, -, hfinal⟩ := executePlan_eq_ok hlaw hrun
  rw [hfinal]
  exact approvalsGate_executeDag htopological.nodup hturns

/-! ### An answer that rules out nothing -/

/-- A node without edges. -/
def plainNode (id : String) : WorkflowNodeDef where
  id
  nodeType := "AgentNode"
  agentRole := "Do"
  objective := ""
  next := none
  nextNodes := []
  dependencies := []
  tools := []
  expectedOutput := ""
  successCriteria := ""
  branchOnFailure := none
  approvalPrompt := ""
  approvalNextOnApprove := none
  approvalNextOnReject := none

/-- An approval between two nodes. -/
def eitherWorkflow : WorkflowDefinition where
  id := "wf:either"
  name := "Either"
  entryNode := "a"
  nodes := [
    { plainNode "a" with
      nodeType := "HumanApprovalNode"
      approvalNextOnApprove := some "b"
      approvalNextOnReject := some "c" },
    plainNode "b",
    plainNode "c"]

def eitherJson : String :=
  "\x7b\"@id\":\"wf:either\",\"name\":\"Either\",\"entry_node\":\"a\",\"nodes\":[" ++
    "\x7b\"@id\":\"a\",\"@type\":\"HumanApprovalNode\",\"agent_role\":\"Do\"," ++
    "\"approval_next_on_approve\":\"b\",\"approval_next_on_reject\":\"c\"\x7d," ++
    "\x7b\"@id\":\"b\",\"agent_role\":\"Do\"\x7d,\x7b\"@id\":\"c\",\"agent_role\":\"Do\"\x7d]\x7d"

def samplePlanEnv (json : String) (wf : WorkflowDefinition) : PlanEnv where
  loadWorkflowJsonld s := if s = json then .ok wf else .error "JSON parse failed"
  toposort := trialToposort

/-- All is approved, and all succeeds. -/
def sampleOracle (dag : WorkflowDag) : ExecEnv dag where
  reply _ := some ⟨some true, none⟩
  supplementary _ := .ok ()
  agent _ := .ok ⟨"success", none, "", [], []⟩
  parallelAgents _ _ := .returned ⟨"success", none, "", [], []⟩

def eitherDag : WorkflowDag := ⟨eitherWorkflow.nodes, [], ⟨0, by decide⟩⟩

/-- The nodes `a`, `b` and `c`. -/
def eitherNode (i : Fin 3) : eitherDag.NodeIndex := i

def eitherParams : ExecParams eitherDag := ⟨[], [eitherNode 2, eitherNode 1, eitherNode 0], []⟩

def eitherPlan : ExecutionPlan where
  planId := "wf:either"
  agentSequence := [.doing, .doing, .doing]
  parallelGroups := []
  description := "Either"
  steps := [nodeToPlanstep (plainNode "c"), nodeToPlanstep (plainNode "b"), nodeToPlanstep (plainNode "a")]
  dagJsonld := some eitherJson
  verifyFirst := false
  fallbackSteps := []

theorem workflowPlan_either : workflowPlan (samplePlanEnv eitherJson eitherWorkflow) eitherJson = .ok eitherPlan := by
  decide +kernel

theorem executePlan_either : executePlan (samplePlanEnv eitherJson eitherWorkflow) sampleOracle eitherPlan [] =
      .ok ⟨eitherDag, eitherParams, executeDag eitherParams (sampleOracle eitherDag)⟩ := by
  have hdag : planDag (samplePlanEnv eitherJson eitherWorkflow) eitherPlan = .ok eitherDag := by
    decide +kernel
  have horder : topologicalOrder eitherDag trialToposort = .ok [eitherNode 2, eitherNode 1, eitherNode 0] := by
    decide +kernel
  exact executePlan_of_parts hdag horder sampleOracle []

theorem events_either : (executeDag eitherParams (sampleOracle eitherDag)).events =
    [.asked (eitherNode 0), .answered (eitherNode 0) true, .dispatched (eitherNode 2),
      .dispatched (eitherNode 1), .completed (eitherNode 2) ⟨"success", none, "", [], []⟩,
      .completed (eitherNode 1) ⟨"success", none, "", [], []⟩] := by
  decide +kernel

theorem WorkflowDag.ReachedWithout.not_avoid {avoid : dag.NodeIndex → Prop}
    (h : dag.ReachedWithout avoid n) : ¬avoid n := by
  cases h with
  | entry h => exact h
  | step _ _ h => exact h

theorem forbids_either : eitherDag.Forbids (eitherNode 0) true (eitherNode 2) := by
  have hentry : eitherDag.ReachedWithout (fun _ => False) (eitherNode 0) := .entry id
  have hnames : eitherDag.Names (eitherNode 0) (eitherNode 2) := ⟨rfl, .inr rfl⟩
  exact .inl ⟨"c", rfl, by decide, hentry.step (.inr hnames) id, fun h => h.not_avoid rfl⟩

/-- `b` is chosen, and `c` is dispatched all the same. -/
theorem not_approvalsGate_either : ∃ (penv : PlanEnv) (oracle : (dag : WorkflowDag) → ExecEnv dag) (json : String)
      (plan : ExecutionPlan) (run : PlanRun), ToposortLaw penv.toposort ∧
        workflowPlan penv json = .ok plan ∧ executePlan penv oracle plan [] = .ok run ∧
        ¬ApprovalsGate run.final.events := by
  refine ⟨_, _, _, _, _, toposortLaw_trialToposort, workflowPlan_either, executePlan_either, fun hgate => ?_⟩
  have hallows := hgate [.asked (eitherNode 0), .answered (eitherNode 0) true] (eitherNode 2) _
    events_either
  exact hallows.chosen (eitherNode 0) true (by simp) forbids_either

/-- An approval before a node. -/
def beforeWorkflow : WorkflowDefinition where
  id := "wf:before"
  name := "Before"
  entryNode := "a"
  nodes := [
    { plainNode "a" with
      nodeType := "HumanApprovalNode"
      next := some "b"
      approvalNextOnApprove := some "b" },
    plainNode "b"]

def beforeJson : String :=
  "\x7b\"@id\":\"wf:before\",\"name\":\"Before\",\"entry_node\":\"a\",\"nodes\":[" ++
    "\x7b\"@id\":\"a\",\"@type\":\"HumanApprovalNode\",\"agent_role\":\"Do\",\"next\":\"b\"," ++
    "\"approval_next_on_approve\":\"b\"\x7d,\x7b\"@id\":\"b\",\"agent_role\":\"Do\"\x7d]\x7d"

def beforeDag : WorkflowDag := ⟨beforeWorkflow.nodes, [⟨⟨0, by decide⟩, ⟨1, by decide⟩, .next⟩], ⟨0, by decide⟩⟩

def beforeNode (i : Fin 2) : beforeDag.NodeIndex := i

def beforeParams : ExecParams beforeDag := ⟨[], [beforeNode 0, beforeNode 1], []⟩

def beforePlan : ExecutionPlan where
  planId := "wf:before"
  agentSequence := [.doing, .doing]
  parallelGroups := []
  description := "Before"
  steps := [nodeToPlanstep (plainNode "a"), nodeToPlanstep (plainNode "b")]
  dagJsonld := some beforeJson
  verifyFirst := false
  fallbackSteps := []

theorem executePlan_before : executePlan (samplePlanEnv beforeJson beforeWorkflow) sampleOracle beforePlan [] =
      .ok ⟨beforeDag, beforeParams, executeDag beforeParams (sampleOracle beforeDag)⟩ := by
  have hdag : planDag (samplePlanEnv beforeJson beforeWorkflow) beforePlan = .ok beforeDag := by
    decide +kernel
  have horder : topologicalOrder beforeDag trialToposort = .ok [beforeNode 0, beforeNode 1] := by
    decide +kernel
  exact executePlan_of_parts hdag horder sampleOracle []

theorem turns_before : (turns beforeParams (sampleOracle beforeDag)).map
    (fun turn => (turn.seen, turn.slot, turn.state.skipNodes)) =
      [([], (beforeNode 0, 0), []), ([(beforeNode 0, 0)], (beforeNode 1, 1), [])] := by
  decide +kernel

theorem turnOk_before : ∀ turn ∈ turns beforeParams (sampleOracle beforeDag), turn.state.ended = none →
    TurnOk beforeParams (sampleOracle beforeDag) turn := by
  intro turn hturn _
  have hmem := mem_map_of_mem hturn (f := fun turn => (turn.seen, turn.slot, turn.state.skipNodes))
  rw [turns_before, mem_cons, mem_singleton] at hmem
  obtain ⟨seen, s, slot, rest⟩ := turn
  simp only [Prod.mk.injEq] at hmem
  rcases hmem with ⟨rfl, rfl, hskip⟩ | ⟨rfl, rfl, hskip⟩
  · -- The approval node is answered, and there is no other target.
    have happroval : beforeDag.IsApproval (beforeNode 0) := rfl
    refine ⟨fun _ h => absurd happroval h, fun hleft => ?_, fun _ _ n hforbids => ?_⟩
    · rcases hleft with hin | hin
      · rw [hskip] at hin
        cases hin
      · cases hin
    · rcases hforbids with ⟨other, hother, -⟩ | ⟨hrejected, -⟩
      · cases hother
      · cases hrejected
  · -- The node is named by the approval node, whose turn is over.
    have hagent : ¬beforeDag.IsApproval (beforeNode 1) := by decide
    refine ⟨fun _ _ a ha => ?_, fun _ h => absurd h hagent, fun _ h => absurd h hagent⟩
    have hall : ∀ n : beforeDag.NodeIndex, n = beforeNode 0 ∨ n = beforeNode 1 := by decide
    rcases hall a with rfl | rfl
    · exact .inl ⟨0, mem_singleton_self _⟩
    · exact absurd ha.1 hagent

theorem approvalsGate_before : ApprovalsGate (executeDag beforeParams (sampleOracle beforeDag)).events :=
  approvalsGate_of_turns toposortLaw_trialToposort executePlan_before turnOk_before

end WildAgentOs.Core
