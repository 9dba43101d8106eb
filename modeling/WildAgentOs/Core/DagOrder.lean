import Mathlib.Data.Set.Card
import WildAgentOs.Core.Branches

/-!
# Dispatch in the order of the graph

An acyclic graph without approval nodes, executed from the start and without parallel groups: the waves are
a partition of the nodes, an edge leads to a later wave, and a node is dispatched at most once, after its
predecessors have returned.

* `WorkflowDag.Acyclic`, `ToposortComplete`: an acyclic graph is ordered;
* `DispatchedInOrder`: what precedes a dispatch;
* `Due.earlier`, `respectsDag_executePlan`.
-/

namespace WildAgentOs.Core

open Waves List

/-! ### Acyclic graphs -/

/-- No way along the edges leads back. -/
def Acyclic {n : ℕ} (edges : List (Fin n × Fin n)) : Prop := ∀ v, ¬Relation.TransGen (fun a b => (a, b) ∈ edges) v v

/-- `toposort` finds a cycle only where there is one. -/
def ToposortComplete (toposort : (n : ℕ) → List (Fin n × Fin n) → Except (Fin n) (List (Fin n))) : Prop :=
  ∀ n edges, Acyclic edges → ∃ order, toposort n edges = .ok order

theorem acyclic_of_forall_lt {n : ℕ} {edges : List (Fin n × Fin n)}
    (h : ∀ edge ∈ edges, edge.1 < edge.2) : Acyclic edges := by
  intro v hv
  have hlt : Relation.TransGen (· < ·) v v := Relation.TransGen.mono (fun a b hab => h (a, b) hab) v v hv
  rw [Relation.transGen_eq_self] at hlt
  exact absurd hlt (lt_irrefl v)

def WorkflowDag.Acyclic (dag : WorkflowDag) : Prop :=
  Core.Acyclic (dag.edges.map fun edge => (edge.source, edge.target))

theorem exists_topologicalOrder {penv : PlanEnv} (hcomplete : ToposortComplete penv.toposort) {dag : WorkflowDag}
    (hacyclic : dag.Acyclic) : ∃ order, topologicalOrder dag penv.toposort = .ok order := by
  obtain ⟨order, horder⟩ := hcomplete _ _ hacyclic
  exact ⟨order, Except.mapError_eq_ok_iff.2 horder⟩

/-- The number of nodes from which a node is reached. -/
noncomputable def height {n : ℕ} (edges : List (Fin n × Fin n)) (v : Fin n) : ℕ :=
  {u | Relation.TransGen (fun a b => (a, b) ∈ edges) u v}.ncard

theorem height_lt_of_edge {n : ℕ} {edges : List (Fin n × Fin n)} (hacyclic : Acyclic edges)
    {u v : Fin n} (hedge : (u, v) ∈ edges) : height edges u < height edges v := by
  refine Set.ncard_lt_ncard ⟨fun w hw => hw.tail hedge, fun hsub => ?_⟩ (Set.toFinite _)
  exact hacyclic u (hsub (Relation.TransGen.single hedge))

theorem toposortComplete_trialToposort : ToposortComplete trialToposort := by
  intro n edges hacyclic
  let order := (List.finRange n).insertionSort fun u v => height edges u ≤ height edges v
  have hperm : order.Perm (List.finRange n) := perm_insertionSort _ _
  have hnodup : order.Nodup := hperm.nodup_iff.2 (nodup_finRange n)
  have hsorted : order.Pairwise fun u v => height edges u ≤ height edges v := pairwise_insertionSort _ _
  have hforward : edges.all (fun edge => order.idxOf edge.1 < order.idxOf edge.2) = true := by
    rw [all_eq_true]
    intro edge hedge
    rw [decide_eq_true_eq]
    by_contra hback
    have hlt := height_lt_of_edge hacyclic hedge
    have hsource := idxOf_lt_length_of_mem (hperm.mem_iff.2 (mem_finRange edge.1))
    have htarget := idxOf_lt_length_of_mem (hperm.mem_iff.2 (mem_finRange edge.2))
    rcases (Nat.not_lt.1 hback).lt_or_eq with hidx | hidx
    · have hle := pairwise_iff_getElem.1 hsorted _ _ htarget hsource hidx
      rw [getElem_idxOf, getElem_idxOf] at hle
      exact absurd hlt hle.not_gt
    · have heq := (idxOf_inj (hperm.mem_iff.2 (mem_finRange edge.2))).1 hidx
      rw [heq] at hlt
      exact absurd hlt (lt_irrefl _)
  have hmem : order ∈ (List.finRange n).reverse.permutations' := mem_permutations'.2 (hperm.trans (reverse_perm _).symm)
  have hfound : ((List.finRange n).reverse.permutations'.find? fun order =>
      edges.all fun edge => order.idxOf edge.1 < order.idxOf edge.2) ≠ none := by
    rw [Ne, find?_eq_none]
    exact fun hnone => hnone order hmem hforward
  obtain ⟨found, hfound⟩ := Option.ne_none_iff_exists'.1 hfound
  refine ⟨found, ?_⟩
  unfold trialToposort
  rw [hfound]

/-! ### The order of the events -/

variable {dag : WorkflowDag} {params : ExecParams dag} {env : ExecEnv dag} {s : ExecState dag}

/-- After what was done before, the node is dispatched in order: it was not dispatched, and its predecessors
have returned. -/
structure InOrder (before : List (PlanEvent dag)) (n : dag.NodeIndex) : Prop where
  once : .dispatched n ∉ before
  returned : ∀ p ∈ dag.incoming n, ∃ result, .completed p result ∈ before

def DispatchedInOrder (events : List (PlanEvent dag)) : Prop :=
  ∀ before n after, events = before ++ .dispatched n :: after → InOrder before n

theorem InOrder.append {before more : List (PlanEvent dag)} {n : dag.NodeIndex} (h : InOrder before n)
    (hmore : .dispatched n ∉ more) : InOrder (before ++ more) n := by
  refine ⟨fun hin => (mem_append.1 hin).elim h.once hmore, fun p hp => ?_⟩
  obtain ⟨result, hresult⟩ := h.returned p hp
  exact ⟨result, mem_append_left _ hresult⟩

variable {events : List (PlanEvent dag)}

theorem DispatchedInOrder.concat {event : PlanEvent dag} (h : DispatchedInOrder events)
    (hevent : ∀ n, event = .dispatched n → InOrder events n) : DispatchedInOrder (events ++ [event]) :=
  beforeDispatch_concat h hevent

theorem DispatchedInOrder.append {events more : List (PlanEvent dag)} (h : DispatchedInOrder events)
    (hmore : ∀ n, .dispatched n ∉ more) : DispatchedInOrder (events ++ more) := by
  induction more using reverseRecOn with
  | nil => rwa [append_nil]
  | append_singleton more event ih =>
    rw [← append_assoc]
    refine (ih fun n hin => hmore n (mem_append_left _ hin)).concat fun n hevent => ?_
    exact absurd (mem_append_right _ (mem_singleton.2 hevent.symm)) (hmore n)

/-- Nodes that can be dispatched in order are dispatched together. -/
theorem DispatchedInOrder.dispatch (h : DispatchedInOrder events) {nodes : List dag.NodeIndex} (hnodup : nodes.Nodup)
    (hnodes : ∀ n ∈ nodes, InOrder events n) : DispatchedInOrder (events ++ nodes.map .dispatched) := by
  induction nodes using reverseRecOn with
  | nil => rwa [map_nil, append_nil]
  | append_singleton nodes n ih =>
    rw [nodup_append] at hnodup
    have hothers : .dispatched n ∉ nodes.map PlanEvent.dispatched := by
      intro hin
      obtain ⟨other, hother, heq⟩ := mem_map.1 hin
      exact hnodup.2.2 other hother n (mem_singleton_self n) (PlanEvent.dispatched.inj heq)
    rw [map_append, ← append_assoc]
    refine (ih hnodup.1 fun m hm => hnodes m (mem_append_left _ hm)).concat fun m hm => ?_
    obtain rfl := PlanEvent.dispatched.inj hm
    exact (hnodes n (mem_append_right _ (mem_singleton_self n))).append hothers

theorem DispatchedInOrder.count_le_one (h : DispatchedInOrder events)
    (n : dag.NodeIndex) : events.count (.dispatched n) ≤ 1 := by
  by_contra hmore
  have htwice : (List.replicate 2 (PlanEvent.dispatched n)).Sublist events :=
    replicate_sublist_iff.2 (Nat.not_le.1 hmore)
  obtain ⟨before, after, rfl, hbefore, hafter⟩ := cons_sublist_iff.1 htwice
  obtain ⟨between, rest, rfl⟩ := append_of_mem (singleton_sublist.1 hafter)
  rw [← append_assoc] at h
  exact (h (before ++ between) n rest rfl).once (mem_append_left _ hbefore)

/-! ### Waves -/

/-- A node with its turn leaves no node of an earlier wave without its turn. -/
theorem Due.earlier (horder : IsTopological dag.incoming params.order)
    (hresume : params.resumeSkipPhases = []) (hagents : ∀ n, ¬dag.IsApproval n) {p n : dag.NodeIndex}
    (hlt : waveOf dag.incoming params.order p < waveOf dag.incoming params.order n)
    (hn : Due params env n) : Due params env p := by
  refine due_iff.2 ⟨by simp [hresume], fun u hu hdue => ⟨fun happroval => absurd happroval (hagents u),
    fun hagent => ?_⟩⟩
  have hbefore := idxOf_lt_of_waveOf_lt horder.nodup horder.mem hlt
  have hpass : LetsPass params env u n := (due_iff.1 hn).2 u (hu.trans hbefore) hdue
  exact ⟨(hpass.2 hagent).1, fun hearlier => (hpass.2 hagent).2 (hearlier.trans hlt)⟩

/-- The turns of a wave dispatch nothing, and put only slots of the wave off to the dispatch. -/
theorem turns_frame (hparallel : params.parallelGroups = []) (wave : List (Slot dag)) :
    (wave.foldl (preNode params env) s).agentTasks.Sublist (s.agentTasks ++ wave) ∧
      ∃ more, (wave.foldl (preNode params env) s).events = s.events ++ more ∧ ∀ n, .dispatched n ∉ more := by
  induction wave using reverseRecOn with
  | nil => exact ⟨by simp, [], by simp, by simp⟩
  | append_singleton wave slot ih =>
    rw [foldl_append, foldl_cons, foldl_nil, ← append_assoc]
    generalize wave.foldl (preNode params env) s = before at ih
    obtain ⟨htasks, more, hevents, hmore⟩ := ih
    have hkept : before.agentTasks.Sublist (s.agentTasks ++ wave ++ [slot]) := htasks.trans (sublist_append_left _ _)
    by_cases hended : before.ended = none
    · have hstep := prepares_preNode params env hended slot
      generalize preNode params env before slot = after at hstep
      cases hstep with
      | leftOut => exact ⟨hkept, more, hevents, hmore⟩
      | asked =>
        refine ⟨hkept, more ++ [.asked slot.1, .answered slot.1 (env.approval slot.1).approved], ?_, ?_⟩
        · rw [← append_assoc, ← hevents]
          rfl
        · intro n hin
          exact hmore n (by simpa using hin)
      | interrupted =>
        refine ⟨hkept, more ++ [.interrupted slot.1], ?_, fun n hin => hmore n (by simpa using hin)⟩
        rw [← append_assoc, ← hevents]
        rfl
      | parallel _ _ _ hin => exact absurd hin (not_isParallel hparallel)
      | task => exact ⟨htasks.append_right [slot], more, hevents, hmore⟩
    · rw [preNode_of_ended hended]
      exact ⟨hkept, more, hevents, hmore⟩

/-- What holds between two waves: while the plan goes on, the nodes of the waves that had their turn have
returned. -/
structure Returned (params : ExecParams dag) (env : ExecEnv dag) (before : List (List (Slot dag)))
    (s : ExecState dag) : Prop where
  inOrder : DispatchedInOrder s.events
  returned : s.ended = none → ∀ u ∈ before.flatten.map Prod.fst, Due params env u →
    ∃ result, .completed u result ∈ s.events

section Wave

variable (hparallel : params.parallelGroups = []) (horder : IsTopological dag.incoming params.order)
  (hresume : params.resumeSkipPhases = []) (hagents : ∀ n, ¬dag.IsApproval n)
  {before after : List (List (Slot dag))} {wave : List (Slot dag)}
include horder hresume hagents

/-- **One dispatch**: the tasks are those of the wave, and what they need returned before. -/
theorem Returned.dispatch (hwaves : waves dag.incoming params.order = before ++ wave :: after)
    (hgoing : Going params env before wave s) (htasks : s.agentTasks.Sublist wave) (h : Returned params env before s) :
    Returned params env (before ++ [wave]) (dispatchTasks params env s) := by
  obtain ⟨handled, hdispatch⟩ := exists_dispatches params env hgoing.running
  generalize dispatchTasks params env s = s' at hdispatch
  have hreturned := h.returned hgoing.running
  have hwave : (wave.map Prod.fst).Nodup := by
    have hnodup := horder.nodup
    rw [order_eq_of_split hwaves, map_append, map_append, nodup_append, nodup_append] at hnodup
    exact hnodup.2.1.1
  constructor
  · rw [hdispatch.events_eq]
    refine DispatchedInOrder.append ?_ fun n hin => by simp at hin
    have hmap : s.agentTasks.map (fun slot => PlanEvent.dispatched slot.1) =
        (s.agentTasks.map Prod.fst).map .dispatched := by
      rw [map_map]
      rfl
    rw [hmap]
    refine h.inOrder.dispatch ((htasks.map Prod.fst).nodup hwave) fun n hn => ?_
    obtain ⟨slot, hslot, rfl⟩ := mem_map.1 hn
    obtain ⟨hin, hdue, -⟩ := (hgoing.tasks slot).1 hslot
    have hmem : slot.1 ∈ wave.map Prod.fst := mem_map_of_mem hin
    refine ⟨fun hdispatched => ?_, fun p hp => ?_⟩
    · have hlt := (waveOf_lt_iff horder.nodup hwaves hmem).2 ((hgoing.dispatched slot.1).1 hdispatched).1
      exact absurd hlt (lt_irrefl _)
    · have hlt := waveOf_lt_of_pred horder hp
      exact hreturned p ((waveOf_lt_iff horder.nodup hwaves hmem).1 hlt)
        (hdue.earlier horder hresume hagents hlt)
  · intro hended u hu hdue
    rw [flatten_append, flatten_singleton, map_append, mem_append] at hu
    rw [hdispatch.events_eq]
    rcases hu with hbefore | hnow
    · obtain ⟨result, hresult⟩ := hreturned u hbefore hdue
      exact ⟨result, mem_append_left _ (mem_append_left _ hresult)⟩
    · obtain ⟨slot, hslot, rfl⟩ := mem_map.1 hnow
      have hin : slot ∈ handled.map Prod.fst :=
        hdispatch.all hended ▸ (hgoing.tasks slot).2 ⟨hslot, hdue, hagents slot.1⟩
      obtain ⟨done, hdone, rfl⟩ := mem_map.1 hin
      exact ⟨done.2, mem_append_right _ (mem_map.2 ⟨done, hdone, rfl⟩)⟩

include hparallel in
/-- **One wave after the other.** -/
theorem returned_waves (hwaves : waves dag.incoming params.order = before ++ after) :
    Returned params env before (before.foldl (execWave params env) .start) := by
  induction before using reverseRecOn generalizing after with
  | nil =>
    refine ⟨fun before n after hsplit => ?_, fun _ u hu => (nomatch hu)⟩
    exact absurd hsplit (by simp [ExecState.start])
  | append_singleton before wave ih =>
    rw [append_assoc] at hwaves
    have hlast := ih hwaves
    have hgoing : Going params env before [] { before.foldl (execWave params env) .start with agentTasks := [] } ∨
        (before.foldl (execWave params env) .start).ended ≠ none ∧
          Settled params env (before.foldl (execWave params env) .start).events :=
      settled_or_going hparallel horder.nodup horder.mem hwaves
    rw [foldl_append, foldl_cons, foldl_nil]
    generalize before.foldl (execWave params env) .start = s at hlast hgoing
    unfold execWave
    by_cases hended : s.ended = none
    · rw [if_neg (by simp [hended])]
      dsimp only
      have hopen : Going params env before [] { s with agentTasks := [] } :=
        hgoing.resolve_right fun hstopped => hstopped.1 hended
      have hturns := hopen.turns hparallel horder.nodup horder.mem hwaves (append_nil wave).symm
      obtain ⟨htasks, more, hevents, hmore⟩ := @turns_frame dag params env { s with agentTasks := [] } hparallel wave
      generalize wave.foldl (preNode params env) { s with agentTasks := [] } = s' at hturns htasks hevents
      have hinOrder : DispatchedInOrder s'.events := hevents ▸ hlast.inOrder.append hmore
      rcases hturns with hturns | ⟨hstopped, -⟩
      · rw [if_neg (by simp [hturns.running])]
        refine Returned.dispatch horder hresume hagents hwaves hturns htasks ⟨hinOrder, fun _ u hu hdue => ?_⟩
        obtain ⟨result, hresult⟩ := hlast.returned hended u hu hdue
        exact ⟨result, hevents ▸ mem_append_left _ hresult⟩
      · rw [if_pos (Option.isSome_iff_ne_none.2 hstopped)]
        exact ⟨hinOrder, fun hrunning => absurd hrunning hstopped⟩
    · rw [if_pos (Option.isSome_iff_ne_none.2 hended)]
      exact ⟨hlast.inOrder, fun hrunning => absurd hrunning hended⟩

end Wave

/-- The waves are a partition of the nodes, an edge leads to a later wave, and a node is dispatched at most
once, after its predecessors have returned. -/
structure RespectsDag (params : ExecParams dag) (events : List (PlanEvent dag)) : Prop where
  partition : IsPartition ((waves dag.incoming params.order).map (List.map Prod.fst))
  later : ∀ n, ∀ p ∈ dag.incoming n, waveOf dag.incoming params.order p < waveOf dag.incoming params.order n
  once : ∀ n, events.count (.dispatched n) ≤ 1
  returned : ∀ before n after, events = before ++ .dispatched n :: after →
    ∀ p ∈ dag.incoming n, ∃ result, .completed p result ∈ before

/-- **The execution of an acyclic graph follows its edges.** -/
theorem respectsDag_executePlan {penv : PlanEnv} (hlaw : ToposortLaw penv.toposort)
    (hcomplete : ToposortComplete penv.toposort) {plan : ExecutionPlan} {dag : WorkflowDag}
    (hdag : planDag penv plan = .ok dag) (hacyclic : dag.Acyclic) (hagents : ∀ n, ¬dag.IsApproval n)
    (hgroups : plan.parallelGroups = []) (oracle : (dag : WorkflowDag) → ExecEnv dag) :
    ∃ params : ExecParams dag,
      executePlan penv oracle plan [] = .ok ⟨dag, params, executeDag params (oracle dag)⟩ ∧
        RespectsDag params (executeDag params (oracle dag)).events := by
  obtain ⟨order, horder⟩ := exists_topologicalOrder hcomplete hacyclic
  refine ⟨_, executePlan_of_parts hdag horder oracle [], ?_⟩
  have htopological := isTopological_of_topologicalOrder hlaw horder
  let params : ExecParams dag := ⟨plan.parallelGroups, order, []⟩
  have hreturned : Returned params (oracle dag) (waves dag.incoming order)
      (executeDag params (oracle dag)) :=
    returned_waves hgroups htopological rfl hagents (append_nil _).symm
  refine ⟨isPartition_waves htopological, fun n p hp => waveOf_lt_of_pred htopological hp,
    hreturned.inOrder.count_le_one, fun before n after hsplit => ?_⟩
  exact (hreturned.inOrder before n after hsplit).returned

/-- Two nodes with an edge. -/
theorem respectsDag_executePlan_fallback : ∃ params : ExecParams fallbackDag,
      executePlan (samplePlanEnv fallbackJson fallbackWorkflow) sampleOracle fallbackPlan [] =
          .ok ⟨fallbackDag, params, executeDag params (sampleOracle fallbackDag)⟩ ∧
        RespectsDag params (executeDag params (sampleOracle fallbackDag)).events := by
  have hdag : planDag (samplePlanEnv fallbackJson fallbackWorkflow) fallbackPlan = .ok fallbackDag := by
    decide +kernel
  have hagents : ∀ n, ¬fallbackDag.IsApproval n := by decide
  exact respectsDag_executePlan toposortLaw_trialToposort toposortComplete_trialToposort hdag
    (acyclic_of_forall_lt (by decide)) hagents rfl sampleOracle

end WildAgentOs.Core
