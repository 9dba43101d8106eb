import WildAgentOs.Core.PlanTurns

/-!
# What a plan runs

Whether a node has its turn, and whether it is run, said of the order and of what comes from outside alone:
by recursion along the order, without the state of the execution.

* `LetsPass`, `Due`, `Runs`, `Going`, `Settled`, `executeDag_settled`.
-/

namespace WildAgentOs.Core

open Waves List Prod

variable {dag : WorkflowDag} (params : ExecParams dag) (env : ExecEnv dag)

/-- The node was dispatched to an agent, or put before a human. -/
def Ran (events : List (PlanEvent dag)) (v : dag.NodeIndex) : Prop := .dispatched v ∈ events ∨ .asked v ∈ events

/-- A node that has its turn leaves a later one its turn.  The answer to an approval node does not jump over
it; another node is not ended by its supplementary input, and in an earlier wave it does not fail, and is
no `Act`. -/
def LetsPass (u v : dag.NodeIndex) : Prop :=
  (dag.IsApproval u → (dag.nodeDef v).id ∉ params.jumped u (params.order.idxOf u) (env.approval u).approved) ∧
  (¬dag.IsApproval u → env.supplementary u = .ok () ∧
    (waveOf dag.incoming params.order u < waveOf dag.incoming params.order v → ¬Fails env u ∧ dag.role u ≠ .act))

/-- The node has its turn: its phase was not completed before, and the nodes before it that have theirs let
it pass. -/
def Due (v : dag.NodeIndex) : Prop :=
  dag.role v ∉ params.resumeSkipPhases ∧
    ∀ u, params.order.idxOf u < params.order.idxOf v → Due u → LetsPass params env u v
termination_by params.order.idxOf v

/-- The node is run: a task is dispatched only if no supplementary input in its wave ends the plan. -/
def Runs (v : dag.NodeIndex) : Prop :=
  Due params env v ∧ (¬dag.IsApproval v →
    ∀ u, waveOf dag.incoming params.order u = waveOf dag.incoming params.order v →
      Due params env u → ¬dag.IsApproval u → env.supplementary u = .ok ())

/-- The events are those of the nodes that are run. -/
structure Settled (events : List (PlanEvent dag)) : Prop where
  asked : ∀ u, .asked u ∈ events ↔ Runs params env u ∧ dag.IsApproval u
  dispatched : ∀ u, .dispatched u ∈ events ↔ Runs params env u ∧ ¬dag.IsApproval u

/-- What the state is while the plan goes on, after some waves and the first turns of the next one. -/
structure Going (before : List (List (Slot dag))) (passed : List (Slot dag)) (s : ExecState dag) : Prop where
  running : s.ended = none
  asked : ∀ u, .asked u ∈ s.events ↔ u ∈ (before.flatten ++ passed).map Prod.fst ∧ Due params env u ∧ dag.IsApproval u
  dispatched : ∀ u, .dispatched u ∈ s.events ↔ u ∈ before.flatten.map Prod.fst ∧ Due params env u ∧ ¬dag.IsApproval u
  tasks : ∀ slot, slot ∈ s.agentTasks ↔ slot ∈ passed ∧ Due params env slot.1 ∧ ¬dag.IsApproval slot.1
  skips : ∀ id, id ∈ s.skipNodes ↔
    (∃ slot ∈ before.flatten ++ passed, Due params env slot.1 ∧ dag.IsApproval slot.1 ∧
      id ∈ params.jumped slot.1 slot.2 (env.approval slot.1).approved) ∨
    ∃ slot ∈ before.flatten, Due params env slot.1 ∧ ¬dag.IsApproval slot.1 ∧ dag.role slot.1 = .act ∧
      id ∈ params.idsAfter slot.2
  supplied : ∀ slot ∈ before.flatten ++ passed, Due params env slot.1 → ¬dag.IsApproval slot.1 →
    env.supplementary slot.1 = .ok ()
  passes : ∀ slot ∈ before.flatten, Due params env slot.1 → ¬dag.IsApproval slot.1 → ¬Fails env slot.1

variable {params env} {s s' : ExecState dag} {v : dag.NodeIndex}

theorem due_iff : Due params env v ↔ dag.role v ∉ params.resumeSkipPhases ∧
      ∀ u, params.order.idxOf u < params.order.idxOf v → Due params env u → LetsPass params env u v := by
  rw [Due]

/-! ### One turn -/

/-- What comes later is among the ids after a node. -/
theorem id_mem_idsAfter {u v : dag.NodeIndex} (hv : v ∈ params.order)
    (hlt : params.order.idxOf u < params.order.idxOf v) :
    (dag.nodeDef v).id ∈ params.idsAfter (params.order.idxOf u) := by
  unfold ExecParams.idsAfter
  refine mem_map_of_mem (mem_drop_iff_getElem.2 ⟨params.order.idxOf v - (params.order.idxOf u + 1), ?_, ?_⟩)
  · have hin := idxOf_lt_length_of_mem hv
    omega
  · have hadd : params.order.idxOf u + 1 + (params.order.idxOf v - (params.order.idxOf u + 1)) =
        params.order.idxOf v := by
      omega
    simp only [hadd]
    exact getElem_idxOf _

section Turn

variable {before after : List (List (Slot dag))} {passed rest : List (Slot dag)} {slot : Slot dag}

theorem zipIdx_eq_of_waves (hwaves : waves dag.incoming params.order = before ++ (passed ++ slot :: rest) :: after) :
    params.order.zipIdx = (before.flatten ++ passed) ++ slot :: (rest ++ after.flatten) := by
  rw [Waves.zipIdx_eq_of_split hwaves]
  simp

variable (hnodup : params.order.Nodup) (hmem : ∀ n, n ∈ params.order)
  (hwaves : waves dag.incoming params.order = before ++ (passed ++ slot :: rest) :: after)
include hnodup hmem hwaves

/-- While the plan goes on, a node has its turn unless it is left out. -/
theorem Going.due_iff_notLeftOut (h : Going params env before passed s) :
    Due params env slot.1 ↔ ¬LeftOut params s slot.1 := by
  have hsplit := zipIdx_eq_of_waves hwaves
  have hslot : slot.1 ∈ (passed ++ slot :: rest).map fst := by simp
  have hbefore : ∀ u, params.order.idxOf u < params.order.idxOf slot.1 ↔
      u ∈ (before.flatten ++ passed).map fst := fun u => idxOf_lt_iff_of_split hnodup hsplit
  have hearlier : ∀ u, waveOf dag.incoming params.order u < waveOf dag.incoming params.order slot.1 ↔
      u ∈ before.flatten.map fst := fun u => waveOf_lt_iff hnodup hwaves hslot
  have hposition : ∀ other ∈ before.flatten ++ passed, params.order.idxOf other.1 = other.2 :=
    fun other hother => idxOf_eq_of_mem_zipIdx hnodup (hsplit ▸ mem_append_left _ hother)
  rw [Core.due_iff]
  unfold LeftOut
  rw [not_or, and_comm]
  refine and_congr_left fun _ => ⟨fun hall hskip => ?_, fun hskip u hu hdue => ⟨fun happroval hjump => ?_,
    fun hagent => ?_⟩⟩
  · rcases (h.skips _).1 hskip with ⟨other, hother, hdue, happroval, hjump⟩ |
      ⟨other, hother, hdue, hagent, hact, -⟩
    · rw [← hposition other hother] at hjump
      exact (hall other.1 ((hbefore _).2 (mem_map_of_mem hother)) hdue).1 happroval hjump
    · have hlt := (hbefore other.1).2 (mem_map_of_mem (mem_append_left _ hother))
      exact ((hall other.1 hlt hdue).2 hagent).2 ((hearlier _).2 (mem_map_of_mem hother)) |>.2 hact
  · obtain ⟨other, hother, rfl⟩ := mem_map.1 ((hbefore u).1 hu)
    rw [hposition other hother] at hjump
    exact hskip ((h.skips _).2 (.inl ⟨other, hother, hdue, happroval, hjump⟩))
  · obtain ⟨other, hother, rfl⟩ := mem_map.1 ((hbefore u).1 hu)
    refine ⟨h.supplied other hother hdue hagent, fun hlt => ?_⟩
    obtain ⟨same, hsame, hfst⟩ := mem_map.1 ((hearlier other.1).1 hlt)
    rw [← hfst] at hdue hagent ⊢
    have hafter : (dag.nodeDef slot.1).id ∈ params.idsAfter same.2 := by
      rw [← hposition same (mem_append_left _ hsame)]
      exact id_mem_idsAfter (hmem slot.1) (hfst ▸ hu)
    exact ⟨h.passes same hsame hdue hagent, fun hact =>
      hskip ((h.skips _).2 (.inr ⟨same, hsame, hdue, hagent, hact, hafter⟩))⟩

omit hnodup hmem hwaves in
theorem mem_seen_concat {u : dag.NodeIndex} : u ∈ (before.flatten ++ (passed ++ [slot])).map fst ↔
      u ∈ (before.flatten ++ passed).map fst ∨ u = slot.1 := by
  simp [or_assoc]

omit hnodup hmem hwaves in
/-- What is kept from its turn changes nothing. -/
theorem Going.leftOut (hnot : ¬Due params env slot.1) (h : Going params env before passed s) :
    Going params env before (passed ++ [slot]) s where
  running := h.running
  asked := fun u => by
    rw [h.asked u, mem_seen_concat, or_and_right, or_iff_left]
    rintro ⟨rfl, hdue, -⟩
    exact hnot hdue
  dispatched := h.dispatched
  tasks := fun other => by
    rw [h.tasks other, mem_append, mem_singleton, or_and_right, or_iff_left]
    rintro ⟨rfl, hdue, -⟩
    exact hnot hdue
  skips := fun id => by
    rw [h.skips id, ← append_assoc]
    refine or_congr_left ⟨fun ⟨other, hother, hrest⟩ => ⟨other, mem_append_left _ hother, hrest⟩, ?_⟩
    rintro ⟨other, hother, hdue, hrest⟩
    rcases mem_append.1 hother with hin | hlast
    · exact ⟨other, hin, hdue, hrest⟩
    · exact absurd (mem_singleton.1 hlast ▸ hdue) hnot
  supplied := fun other hother hdue => by
    rw [← append_assoc] at hother
    rcases mem_append.1 hother with hin | hlast
    · exact h.supplied other hin hdue
    · exact absurd (mem_singleton.1 hlast ▸ hdue) hnot
  passes := h.passes

omit hnodup hmem hwaves in
theorem Going.task (hdue : Due params env slot.1) (hagent : ¬dag.IsApproval slot.1)
    (hok : env.supplementary slot.1 = .ok ()) (h : Going params env before passed s) :
    Going params env before (passed ++ [slot]) { s with agentTasks := s.agentTasks ++ [slot] } where
  running := h.running
  asked := fun u => by
    rw [h.asked u, mem_seen_concat, or_and_right, or_iff_left]
    rintro ⟨rfl, -, happroval⟩
    exact hagent happroval
  dispatched := h.dispatched
  tasks := fun other => by
    rw [mem_append, mem_append, mem_singleton, or_and_right]
    refine or_congr (h.tasks other) ⟨fun heq => ⟨heq, ?_⟩, And.left⟩
    rw [heq]
    exact ⟨hdue, hagent⟩
  skips := fun id => by
    rw [h.skips id, ← append_assoc]
    refine or_congr_left ⟨fun ⟨other, hother, hrest⟩ => ⟨other, mem_append_left _ hother, hrest⟩, ?_⟩
    rintro ⟨other, hother, hdue, happroval, hrest⟩
    rcases mem_append.1 hother with hin | hlast
    · exact ⟨other, hin, hdue, happroval, hrest⟩
    · exact absurd (mem_singleton.1 hlast ▸ happroval) hagent
  supplied := fun other hother => by
    rw [← append_assoc] at hother
    rcases mem_append.1 hother with hin | hlast
    · exact h.supplied other hin
    · rw [mem_singleton.1 hlast]
      exact fun _ _ => hok
  passes := h.passes

omit hnodup hmem hwaves in
theorem Going.ask (hdue : Due params env slot.1) (happroval : dag.IsApproval slot.1)
    (h : Going params env before passed s) :
    Going params env before (passed ++ [slot]) (approvalNode params env s slot.1 slot.2) where
  running := h.running
  asked := fun u => by
    unfold approvalNode
    rw [mem_append, h.asked u, mem_seen_concat, or_and_right]
    refine or_congr_right ⟨fun hin => ?_, fun heq => ?_⟩
    · have heq : u = slot.1 := by simpa using hin
      exact ⟨heq, heq ▸ hdue, heq ▸ happroval⟩
    · rw [heq.1]
      exact mem_cons_self
  dispatched := fun u => by
    rw [← h.dispatched u]
    unfold approvalNode
    simp
  tasks := fun other => by
    refine (h.tasks other).trans ?_
    rw [mem_append, mem_singleton, or_and_right, or_iff_left]
    rintro ⟨rfl, -, hagent⟩
    exact hagent happroval
  skips := fun id => by
    unfold approvalNode
    rw [mem_append, h.skips id, ← append_assoc, or_right_comm]
    refine or_congr_left ⟨?_, ?_⟩
    · rintro (⟨other, hother, hrest⟩ | hjump)
      · exact ⟨other, mem_append_left _ hother, hrest⟩
      · exact ⟨slot, mem_append_right _ (mem_singleton_self slot), hdue, happroval, hjump⟩
    · rintro ⟨other, hother, hrest⟩
      rcases mem_append.1 hother with hin | hlast
      · exact .inl ⟨other, hin, hrest⟩
      · rw [mem_singleton.1 hlast] at hrest
        exact .inr hrest.2.2
  supplied := fun other hother => by
    rw [← append_assoc] at hother
    rcases mem_append.1 hother with hin | hlast
    · exact h.supplied other hin
    · rw [mem_singleton.1 hlast]
      exact fun _ hagent => absurd happroval hagent
  passes := h.passes

/-- The supplementary input of a node ends the plan. -/
theorem Going.interrupt (hdue : Due params env slot.1) (hagent : ¬dag.IsApproval slot.1) {e : Memory.CoreError}
    (herror : env.supplementary slot.1 = .error e) (h : Going params env before passed s) :
    Settled params env (s.events ++ [.interrupted slot.1]) := by
  have hne : env.supplementary slot.1 ≠ .ok () := by simp [herror]
  have hsplit := zipIdx_eq_of_waves hwaves
  have hslot : slot.1 ∈ (passed ++ slot :: rest).map fst := by simp
  -- A node with its turn comes before, or it is this one.
  have hseen : ∀ u, Due params env u → u ∉ (before.flatten ++ passed).map fst → u = slot.1 := by
    intro u hu hout
    by_contra hother
    rw [← idxOf_lt_iff_of_split hnodup hsplit] at hout
    have hlt : params.order.idxOf slot.1 < params.order.idxOf u :=
      lt_of_le_of_ne (Nat.not_lt.1 hout) fun heq =>
        hother ((idxOf_inj (hmem slot.1)).1 heq).symm
    exact hne (((Core.due_iff.1 hu).2 slot.1 hlt hdue).2 hagent).1
  have hsupplied : ∀ u ∈ (before.flatten ++ passed).map fst, Due params env u →
      ¬dag.IsApproval u → env.supplementary u = .ok () := by
    intro u hu
    obtain ⟨other, hother, rfl⟩ := mem_map.1 hu
    exact h.supplied other hother
  constructor
  · intro u
    rw [mem_append, or_iff_left (by simp), h.asked u]
    constructor
    · exact fun ⟨_, hu, happroval⟩ => ⟨⟨hu, fun hagent => absurd happroval hagent⟩, happroval⟩
    · rintro ⟨⟨hu, -⟩, happroval⟩
      by_contra hnot
      have heq := hseen u hu fun hin => hnot ⟨hin, hu, happroval⟩
      exact hagent (heq ▸ happroval)
  · intro u
    rw [mem_append, or_iff_left (by simp), h.dispatched u]
    constructor
    · rintro ⟨hu, hdueU, hagentU⟩
      refine ⟨⟨hdueU, fun _ w hw hdueW hagentW => hsupplied w ?_ hdueW hagentW⟩, hagentU⟩
      have hlt := (waveOf_lt_iff hnodup hwaves hslot).2 hu
      rw [map_append]
      exact mem_append_left _ ((waveOf_lt_iff hnodup hwaves hslot).1 (hw ▸ hlt))
    · rintro ⟨⟨hdueU, hall⟩, hagentU⟩
      refine ⟨?_, hdueU, hagentU⟩
      by_contra hout
      -- Then it is in the wave of this node.
      have hwave : u ∈ (before.flatten ++ (passed ++ slot :: rest)).map fst := by
        by_cases hin : u ∈ (before.flatten ++ passed).map fst
        · rw [← append_assoc, map_append]
          exact mem_append_left _ hin
        · rw [hseen u hdueU hin, map_append]
          exact mem_append_right _ hslot
      have hle := (waveOf_le_iff hnodup hwaves hslot).2 hwave
      rw [← waveOf_lt_iff hnodup hwaves hslot, Nat.not_lt] at hout
      exact hne (hall hagentU slot.1 (le_antisymm hout hle) hdue hagent)

/-- **One turn**: an approval node is asked, a task is kept, or the plan ends. -/
theorem Going.turn (hparallel : params.parallelGroups = []) (h : Going params env before passed s) :
    Going params env before (passed ++ [slot]) (preNode params env s slot) ∨
      (preNode params env s slot).ended ≠ none ∧ Settled params env (preNode params env s slot).events := by
  have hdue := h.due_iff_notLeftOut hnodup hmem hwaves
  have hstep := prepares_preNode params env h.running slot
  generalize preNode params env s slot = s' at hstep
  cases hstep with
  | leftOut hleft => exact .inl (h.leftOut fun hin => hdue.1 hin hleft)
  | asked hrun happroval => exact .inl (h.ask (hdue.2 hrun) happroval)
  | interrupted hrun hagent herror =>
    exact .inr ⟨fun hnone => (nomatch hnone), h.interrupt hnodup hmem hwaves (hdue.2 hrun) hagent herror⟩
  | parallel _ _ _ hin => exact absurd hin (not_isParallel hparallel)
  | task hrun hagent hok hsingle => exact .inl (h.task (hdue.2 hrun) hagent hok)

end Turn

/-! ### Waves -/

section Wave

variable {before after : List (List (Slot dag))} {wave : List (Slot dag)}
  (hparallel : params.parallelGroups = []) (hnodup : params.order.Nodup) (hmem : ∀ n, n ∈ params.order)
  (hwaves : waves dag.incoming params.order = before ++ wave :: after)
include hparallel hnodup hmem hwaves

theorem Going.turns {passed rest : List (Slot dag)} (hwave : wave = passed ++ rest) (h : Going params env before [] s) :
    Going params env before passed (passed.foldl (preNode params env) s) ∨
      (passed.foldl (preNode params env) s).ended ≠ none ∧
        Settled params env (passed.foldl (preNode params env) s).events := by
  induction passed using reverseRecOn generalizing rest with
  | nil => exact .inl h
  | append_singleton passed slot ih =>
    rw [append_assoc] at hwave
    rw [foldl_append, foldl_cons, foldl_nil]
    rcases ih hwave with hgoing | ⟨hended, hsettled⟩
    · rw [hwave] at hwaves
      exact hgoing.turn hnodup hmem hwaves hparallel
    · rw [preNode_of_ended hended]
      exact .inr ⟨hended, hsettled⟩

omit hparallel in
/-- **One dispatch.** -/
theorem Going.dispatch (h : Going params env before wave s) :
    Going params env (before ++ [wave]) [] { dispatchTasks params env s with agentTasks := [] } ∨
      (dispatchTasks params env s).ended ≠ none ∧ Settled params env (dispatchTasks params env s).events := by
  obtain ⟨handled, hdispatch⟩ := exists_dispatches params env h.running
  generalize dispatchTasks params env s = s' at hdispatch
  have hflat : (before ++ [wave]).flatten = before.flatten ++ wave := by simp
  have hasked : ∀ u, .asked u ∈ s'.events ↔
      u ∈ (before.flatten ++ wave).map fst ∧ Due params env u ∧ dag.IsApproval u := by
    intro u
    rw [hdispatch.events_eq, ← h.asked u]
    simp
  have hdispatched : ∀ u, .dispatched u ∈ s'.events ↔
      u ∈ (before.flatten ++ wave).map fst ∧ Due params env u ∧ ¬dag.IsApproval u := by
    intro u
    have hnow : u ∈ s.agentTasks.map fst ↔ u ∈ wave.map fst ∧ Due params env u ∧ ¬dag.IsApproval u := by
      simp only [mem_map, h.tasks]
      constructor
      · rintro ⟨slot, ⟨hslot, hrest⟩, rfl⟩
        exact ⟨⟨slot, hslot, rfl⟩, hrest⟩
      · rintro ⟨⟨slot, hslot, rfl⟩, hrest⟩
        exact ⟨slot, ⟨hslot, hrest⟩, rfl⟩
    rw [map_append, mem_append, or_and_right, ← h.dispatched u, ← hnow, hdispatch.events_eq]
    simp
  by_cases hended : s'.ended = none
  · left
    have hall := hdispatch.all hended
    have hdone : ∀ slot ∈ wave, Due params env slot.1 → ¬dag.IsApproval slot.1 →
        ∃ result, (slot, result) ∈ handled := by
      intro slot hslot hdue hagent
      have hin : slot ∈ handled.map fst := hall ▸ (h.tasks slot).2 ⟨hslot, hdue, hagent⟩
      obtain ⟨done, hdone, rfl⟩ := mem_map.1 hin
      exact ⟨done.2, hdone⟩
    constructor
    · exact hended
    · intro u
      rw [hasked u, hflat, append_nil]
    · intro u
      rw [hdispatched u, hflat]
    · simp
    · intro id
      rw [hdispatch.skipNodes_eq, mem_append, h.skips id, hflat, append_nil, or_assoc]
      refine or_congr_right ⟨?_, ?_⟩
      · rintro (⟨slot, hslot, hrest⟩ | hskipped)
        · exact ⟨slot, mem_append_left _ hslot, hrest⟩
        · obtain ⟨done, hdone, hid⟩ := mem_flatMap.1 hskipped
          have hslot : done.1 ∈ s.agentTasks := hall ▸ mem_map_of_mem hdone
          obtain ⟨hwave, hdue, hagent⟩ := (h.tasks done.1).1 hslot
          unfold skipped at hid
          split_ifs at hid with hact
          · exact ⟨done.1, mem_append_right _ hwave, hdue, hagent, hact, hid⟩
          · cases hid
      · rintro ⟨slot, hslot, hdue, hagent, hact, hid⟩
        rcases mem_append.1 hslot with hbefore | hwave
        · exact .inl ⟨slot, hbefore, hdue, hagent, hact, hid⟩
        · obtain ⟨result, hin⟩ := hdone slot hwave hdue hagent
          refine .inr (mem_flatMap.2 ⟨(slot, result), hin, ?_⟩)
          unfold skipped
          rwa [if_pos hact]
    · intro slot hslot
      rw [hflat, append_nil] at hslot
      exact h.supplied slot hslot
    · intro slot hslot hdue hagent
      rw [hflat] at hslot
      rcases mem_append.1 hslot with hbefore | hwave
      · exact h.passes slot hbefore hdue hagent
      · obtain ⟨result, hin⟩ := hdone slot hwave hdue hagent
        obtain ⟨hresult, hpassed⟩ := hdispatch.passed _ hin
        exact fun hfails => hpassed (hfails result hresult)
  · refine .inr ⟨hended, ?_⟩
    obtain ⟨failed, htask, hfails⟩ := hdispatch.fails hended
    obtain ⟨hin, hdue, hagent⟩ := (h.tasks failed).1 htask
    have hslot : failed.1 ∈ wave.map fst := mem_map_of_mem hin
    have hle : ∀ u, waveOf dag.incoming params.order u ≤ waveOf dag.incoming params.order failed.1 ↔
        u ∈ (before.flatten ++ wave).map fst := fun u => waveOf_le_iff hnodup hwaves hslot
    -- No node of a later wave has its turn.
    have hseen : ∀ u, Due params env u → u ∈ (before.flatten ++ wave).map fst := by
      intro u hu
      by_contra hout
      have hlater := Nat.not_le.1 (mt (hle u).1 hout)
      have hbefore : params.order.idxOf failed.1 < params.order.idxOf u := idxOf_lt_of_waveOf_lt hnodup hmem hlater
      exact (((due_iff.1 hu).2 failed.1 hbefore hdue).2 hagent).2 hlater |>.1 hfails
    have hruns : ∀ u, Due params env u → Runs params env u := by
      refine fun u hu => ⟨hu, fun _ w hw hdueW hagentW => ?_⟩
      obtain ⟨slot, hslotW, rfl⟩ := mem_map.1 (hseen w hdueW)
      exact h.supplied slot hslotW hdueW hagentW
    constructor
    · intro u
      rw [hasked u]
      exact ⟨fun ⟨_, hu, happroval⟩ => ⟨hruns u hu, happroval⟩, fun ⟨hu, happroval⟩ => ⟨hseen u hu.1, hu.1, happroval⟩⟩
    · intro u
      rw [hdispatched u]
      exact ⟨fun ⟨_, hu, hagent⟩ => ⟨hruns u hu, hagent⟩, fun ⟨hu, hagent⟩ => ⟨hseen u hu.1, hu.1, hagent⟩⟩

omit hwaves in
/-- **One wave after the other.** -/
theorem settled_or_going (hwaves : waves dag.incoming params.order = before ++ after) :
    Going params env before [] { before.foldl (execWave params env) .start with agentTasks := [] } ∨
      (before.foldl (execWave params env) .start).ended ≠ none ∧
        Settled params env (before.foldl (execWave params env) .start).events := by
  induction before using reverseRecOn generalizing after with
  | nil =>
    left
    constructor
    · rfl
    · simp [ExecState.start]
    · simp [ExecState.start]
    · simp
    · simp [ExecState.start]
    · simp
    · simp
  | append_singleton before wave ih =>
    rw [append_assoc] at hwaves
    rw [foldl_append, foldl_cons, foldl_nil]
    generalize before.foldl (execWave params env) .start = s at ih
    rcases ih hwaves with hgoing | ⟨hended, hsettled⟩
    · unfold execWave
      rw [if_neg (show ¬s.ended.isSome = true by simp [show s.ended = none from hgoing.running])]
      dsimp only
      rcases hgoing.turns hparallel hnodup hmem hwaves (append_nil wave).symm with
        hturns | ⟨hended, hsettled⟩
      · rw [if_neg (by simp [hturns.running])]
        exact hturns.dispatch hnodup hmem hwaves
      · rw [if_pos (Option.isSome_iff_ne_none.2 hended)]
        exact .inr ⟨hended, hsettled⟩
    · have hsame : execWave params env s wave = s := by
        unfold execWave
        rw [if_pos (Option.isSome_iff_ne_none.2 hended)]
      rw [hsame]
      exact .inr ⟨hended, hsettled⟩

end Wave

/-- **The plan runs what is said.** -/
theorem executeDag_settled (hparallel : params.parallelGroups = []) (horder : IsTopological dag.incoming params.order) :
    Settled params env (executeDag params env).events := by
  have hall : waves dag.incoming params.order = waves dag.incoming params.order ++ [] := (append_nil _).symm
  have hwaves : Going params env (waves dag.incoming params.order) []
      { executeDag params env with agentTasks := [] } ∨ (executeDag params env).ended ≠ none ∧
        Settled params env (executeDag params env).events :=
    settled_or_going hparallel horder.nodup horder.mem hall
  rcases hwaves with hgoing | ⟨-, hsettled⟩
  · have hall : ∀ u, u ∈ (waves dag.incoming params.order).flatten.map fst := by
      intro u
      rw [flatten_waves, zipIdx_map_fst]
      exact horder.mem u
    have hruns : ∀ u, Due params env u → Runs params env u := by
      refine fun u hu => ⟨hu, fun _ w hw hdueW hagentW => ?_⟩
      obtain ⟨slot, hslotW, rfl⟩ := mem_map.1 (hall w)
      exact hgoing.supplied slot (mem_append_left _ hslotW) hdueW hagentW
    constructor
    · intro u
      refine (hgoing.asked u).trans ?_
      rw [append_nil]
      exact ⟨fun ⟨_, hu, happroval⟩ => ⟨hruns u hu, happroval⟩, fun ⟨hu, happroval⟩ => ⟨hall u, hu.1, happroval⟩⟩
    · intro u
      refine (hgoing.dispatched u).trans ?_
      exact ⟨fun ⟨_, hu, hagent⟩ => ⟨hruns u hu, hagent⟩, fun ⟨hu, hagent⟩ => ⟨hall u, hu.1, hagent⟩⟩
  · exact hsettled

/-- **What is run.** -/
theorem ran_iff (hparallel : params.parallelGroups = []) (horder : IsTopological dag.incoming params.order) :
    Ran (executeDag params env).events v ↔ Runs params env v := by
  have hsettled : Settled params env (executeDag params env).events := executeDag_settled hparallel horder
  unfold Ran
  rw [hsettled.asked v, hsettled.dispatched v, ← and_or_left, or_comm (a := ¬_)]
  exact and_iff_left (em _)

end WildAgentOs.Core
