import WildAgentOs.Invocations.Admission

/-!
# Honest outcomes

How a record of the bridge comes to its terminal state, over any interleaving of the task, the cancel
handlers and the deadline watcher.

* `HasLeft`, `hasLeft_run`: past `running`, the record is no longer queued;
* `WillSucceed`, `willSucceed_run`;
* `EarnedIn`, `CancelledIn`: the steps of a run that a terminal state goes back to;
* `honest_run`.
-/

namespace WildAgentOs.Invocations

open Interleaving ListPass List CancelPc

/-! ### Steps of a run -/

/-- A step of some thread at which `P` held. -/
def Happened (actions : List Action) (P : List Action → ℕ → Env → Prop) : Prop :=
  ∃ before i env later, actions = before ++ .run i env :: later ∧ P before i env

variable {actions : List Action}

theorem Happened.append {P : List Action → ℕ → Env → Prop}
    (h : Happened actions P) (a : Action) : Happened (actions ++ [a]) P := by
  obtain ⟨before, i, env, later, rfl, hP⟩ := h
  exact ⟨before, i, env, later ++ [a], by simp, hP⟩

theorem Happened.mono {P Q : List Action → ℕ → Env → Prop} (h : Happened actions P)
    (hPQ : ∀ before i env, P before i env → Q before i env) : Happened actions Q := by
  obtain ⟨before, i, env, later, rfl, hP⟩ := h
  exact ⟨before, i, env, later, rfl, hPQ _ _ _ hP⟩

/-! ### Opened stores -/

theorem isTerminal_dropExpiredBinding (now : Instant) (r : Invocation) :
    (dropExpiredBinding now r).state = r.state := by
  unfold dropExpiredBinding
  split_ifs <;> rfl

theorem isTerminal_interrupt (now : Instant) (r : Invocation) : (interrupt now r).state.isTerminal = true := by
  unfold interrupt
  split_ifs with h
  · exact h
  · rfl

variable {records : List Invocation} {cfg : InvocationStoreConfig}

/-- No record of an opened store is left to run. -/
theorem Bridge.IsOpened.isTerminal (h : IsOpened cfg records) : ∀ r ∈ records, r.state.isTerminal = true := by
  obtain ⟨now, started, persist, file, report, h⟩ := h
  have hrecords : records = dropExpiredBindings started (sweepExpiredRecords cfg.retention started
      ((file.map Invocation.readBack).map (interrupt now))) := by
    unfold openWithConfig at h
    simp only at h
    split_ifs at h
    · cases persist with
      | error e => cases h
      | ok =>
        unfold persisting at h
        exact (congrArg Prod.fst (Except.ok.inj h)).symm
    · exact (congrArg Prod.fst (Except.ok.inj h)).symm
  rw [hrecords]
  intro r hr
  obtain ⟨r₀, hr₀, rfl⟩ := mem_map.1 hr
  obtain ⟨r₁, -, rfl⟩ := mem_map.1 (mem_filter.1 hr₀).1
  rw [isTerminal_dropExpiredBinding]
  exact isTerminal_interrupt now r₁

/-! ### Past `running` -/

/-- The places of a run past its entry into `running`; failures can be of either side. -/
def RunPc.isPast : RunPc → Bool
  | wakeRunning | spawn | executing | unwinding | readCancelled | writeCancelled | succeed _ => true
  | _ => false

theorem RunPc.isPast_of_isEarly {pc : RunPc} (h : pc.isEarly = true) : pc.isPast = false := by
  cases pc <;> first | rfl | cases h

/-- No record of the id is queued. -/
def NotQueued (sh : Shared) (id : String) : Prop := ∀ r ∈ sh.records, r.id = id → r.state ≠ .queued

variable {expectedRevision : Option ℕ} {env : Env} {sh : Shared} {claims : IsolationClaims} {patch : TransitionPatch}

variable {next : InvocationState} {id : String} {outcome : TransitionOutcome}

section

variable (h : (sh.transition env claims id expectedRevision next patch).1 = .ok outcome)
include h

/-- A transition that is answered has found its record. -/
theorem Shared.exists_of_transition_ok : ∃ r ∈ sh.records, r.id = id := by
  obtain ⟨e, h'⟩ | ⟨current, hfind, -, -⟩ | ⟨current, -, hfind, -, -, -, -, -⟩ :=
    sh.transition_cases env claims id expectedRevision next patch
  · rw [h'] at h
    cases h
  · exact ⟨current, mem_of_find?_eq_some hfind, (selects_iff.1 (by simpa using find?_some hfind)).1⟩
  · exact ⟨current, mem_of_find?_eq_some hfind, (selects_iff.1 (by simpa using find?_some hfind)).1⟩

/-- A transition that is answered leaves the record where it was asked to. -/
theorem Shared.state_of_transition_ok
    (hnodup : (sh.records.map (·.id)).Nodup) :
    outcome.invocation.state = next ∧
      ∀ r ∈ (sh.transition env claims id expectedRevision next patch).2.records, r.id = id → r.state = next := by
  obtain ⟨e, h'⟩ | ⟨current, hfind, hsame, h'⟩ | ⟨current, -, hfind, -, -, -, -, h'⟩ :=
    sh.transition_cases env claims id expectedRevision next patch
  · rw [h'] at h
    cases h
  · rw [h'] at h ⊢
    cases h
    refine ⟨hsame, fun r hr hid => ?_⟩
    have hcurrent := (selects_iff.1 (by simpa using find?_some hfind)).1
    rw [inj_on_of_nodup_map hnodup hr (mem_of_find?_eq_some hfind) (hid.trans hcurrent.symm)]
    exact hsame
  · rw [h'] at h ⊢
    cases h
    refine ⟨rfl, fun r hr hid => ?_⟩
    have hcurrent := (selects_iff.1 (by simpa using find?_some hfind)).1
    obtain rfl | ⟨-, hne⟩ := mem_replaceFirst hfind hnodup hr
    · rfl
    · exact absurd (hid.trans hcurrent.symm) hne

end

variable {t : Thread}

/-- A place of a run is entered from the admission, or from another one. -/
theorem Thread.next_of_step_run {inv : Invocation}
    {pc' : RunPc} (h : (t.step env sh).thread = .task inv (.run pc')) :
    (t = .task inv (.admitting .wakeAdmitted) ∧ pc' = .entry) ∨
      ∃ pc sh', t = .task inv (.run pc) ∧ pc.Next env inv sh (.run pc') sh' ∧ (t.step env sh).shared = sh' := by
  rcases t with inv' | ⟨inv', _ | pc | pc | pc⟩ | _ | _
  · cases h
  · cases h
  · have hnext := pc.next_step env inv' sh
    obtain ⟨rfl, hstep⟩ : inv' = inv ∧ (pc.step env inv' sh).1 = .run pc' := Thread.task.inj h
    rw [hstep] at hnext
    generalize (pc.step env inv' sh).2 = sh' at hnext
    cases hnext with
    | wakeAdmitted => exact .inl ⟨rfl, rfl⟩
  · have hnext := pc.next_step env inv' sh
    obtain ⟨rfl, hstep⟩ : inv' = inv ∧ (pc.step env inv' sh).1 = .run pc' := Thread.task.inj h
    rw [hstep] at hnext
    exact .inr ⟨pc, _, rfl, hnext, rfl⟩
  · have hstep : (pc.step inv' sh).1 = .run pc' := (Thread.task.inj h).2
    cases pc <;> cases hstep
  · cases h
  · cases h

variable {req : CancelRequest} {pc : CancelPc}

/-- A cancel handler asks for one of two states. -/
theorem CancelPc.target_of_step_write {attempts : ℕ} {target : InvocationState}
    (h : (pc.step env req sh).1 = .write attempts target) : target = .cancelled ∨ target = .cancelRequested := by
  have htarget : ∀ state : InvocationState, state.cancelTarget = some target →
      target = .cancelled ∨ target = .cancelRequested := by
    intro state hstate
    cases state <;> cases hstate <;> simp
  cases pc with
  | read =>
    simp only [step] at h
    split at h
    · cases h
    · split_ifs at h
      · split at h
        · cases h
        next hstate =>
          obtain ⟨-, rfl⟩ := write.inj h
          exact htarget _ hstate
  | write =>
    simp only [step] at h
    split at h
    · cases h
    · split_ifs at h
    · cases h
  | cancelToken r =>
    simp only [step] at h
    split_ifs at h
  | unregister => cases h
  | done => cases h

/-- A cancel handler that is to signal has been answered. -/
theorem CancelPc.ok_of_step_cancelToken {r : Invocation} (h : (pc.step env req sh).1 = .cancelToken r) :
    ∃ attempts target outcome, pc = .write attempts target ∧
      (sh.transition env req.claims req.id req.expectedRevision target {}).1 = .ok outcome ∧
      (pc.step env req sh).2 = (sh.transition env req.claims req.id req.expectedRevision target {}).2 := by
  cases pc with
  | read =>
    simp only [step] at h
    split at h
    · cases h
    · split_ifs at h
      · split at h <;> cases h
  | write attempts target =>
    simp only [step] at h ⊢
    split at h
    next outcome sh' htransition =>
      exact ⟨attempts, target, outcome, rfl, by rw [htransition], by rw [htransition]⟩
    · split_ifs at h
    · cases h
  | cancelToken r' =>
    simp only [step] at h
    split_ifs at h
  | unregister => cases h
  | done => cases h

namespace Bridge

variable {known : List String} {m : Bridge}

/-- What has left the queue does not come back. -/
theorem notQueued_step {a : Action} (hid : id ∈ known)
    (hfresh : ∀ id ∈ a.drawn, id ∉ known) (h : NotQueued m.shared id) : NotQueued (m.step cfg a).shared id := by
  obtain ⟨survivors, added, hrecords, hpass, hadds⟩ := step_passes cfg m a
  intro r hr hrid hqueued
  rw [hrecords] at hr
  rcases mem_append.1 hr with hr | hr
  · obtain ⟨r₀, hr₀, hmoves⟩ := hpass.source hr
    exact h r₀ hr₀ (hmoves.continues.id_eq.symm.trans hrid) (hmoves.queued hqueued)
  · cases hadds with
    | nothing => cases hr
    | created ha =>
      subst ha
      obtain rfl := mem_singleton.1 hr
      rw [← hrid] at hid
      exact hfresh _ rfl hid

/-- Runs past their entry into `running` have left the queue. -/
def HasLeft (m : Bridge) : Prop :=
  ∀ (i : ℕ) (inv : Invocation) (pc : RunPc), m.threads[i]? = some (.task inv (.run pc)) →
    pc.isPast = true → NotQueued m.shared inv.id

theorem HasLeft.step (hm : HasLeft m) (hw : Wired known m) (cfg : InvocationStoreConfig) (a : Action)
    (hfresh : ∀ id ∈ a.drawn, id ∉ known) : HasLeft (m.step cfg a) := by
  intro i inv pc' hi hpast
  have hstays : ∀ pc : RunPc, m.threads[i]? = some (.task inv (.run pc)) → pc.isPast = true →
      NotQueued (m.step cfg a).shared inv.id := by
    intro pc hi hpc
    have hknown := hw.thread_known _ (mem_of_getElem? hi) inv rfl
    exact notQueued_step hknown hfresh (hm i inv pc hi hpc)
  obtain ⟨env, t, rfl, ht, hu⟩ | ⟨-, ht⟩ | ⟨-, hnew⟩ := threads_step hi
  · obtain ⟨-, rfl⟩ | ⟨pc, sh', rfl, hnext, hsh'⟩ := Thread.next_of_step_run hu.symm
    · cases hpast
    · have hshared : (m.step cfg (.run i env)).shared = sh' := by
        rw [Bridge.step, System.stepAt_of_some ht, System.shared_advance, hsh']
      rw [hshared] at hstays ⊢
      cases hnext with
      | reject => cases hpast
      | prepare _ hearly => exact absurd hpast (by simp [RunPc.isPast_of_isEarly hearly])
      | entered hclaims hok =>
        -- The record is now running.
        intro r hr hid hqueued
        have hstate := (Shared.state_of_transition_ok hok hw.nodup).2 r hr hid
        rw [hqueued] at hstate
        cases hstate
      | wakeRunning => exact hstays _ ht rfl
      | spawn => exact hstays _ ht rfl
      | executing hpc => rcases hpc with rfl | rfl <;> exact hstays _ ht rfl
      | failed => cases hpast
      | earned hpc => rcases hpc with rfl | rfl <;> exact hstays _ ht rfl
      | unwound => exact hstays _ ht rfl
      | cancel => exact hstays _ ht rfl
      | fail => cases hpast
  · exact hstays pc' ht hpast
  · cases hnew

theorem hasLeft_run (cfg : InvocationStoreConfig) (limits : InvocationRunningLimits)
    (h : IdsDistinct records actions) : HasLeft (run cfg (opened limits records) actions) := by
  induction actions using reverseRecOn with
  | nil => exact fun _ _ _ hi => (nomatch hi)
  | append_singleton actions a ih =>
    rw [run_append, run_cons, run_nil]
    exact (ih h.left).step (wired_run cfg limits h.left) cfg a h.fresh

/-! ### What a success goes back to -/

/-- The step in which a task takes over what its executor run has returned, with that usage. -/
def Wins (cfg : InvocationStoreConfig) (m₀ : Bridge) (inv : Invocation)
    (usage : Option InvocationUsage) (before : List Action) (i : ℕ) (env : Env) : Prop :=
  ∃ pc outcome, (run cfg m₀ before).threads[i]? = some (.task inv (.run pc)) ∧
    (pc = .executing ∨ pc = .unwinding) ∧ env.join = some (.ok outcome) ∧ Earned inv outcome ∧ usage = outcome.usage

/-- A success that is about to be written is earned. -/
theorem willSucceed_run (cfg : InvocationStoreConfig) (m₀ : Bridge) (hm₀ : m₀.threads = [])
    (actions : List Action) (i : ℕ) (inv : Invocation) (result : InvocationResult)
    (hi : (run cfg m₀ actions).threads[i]? = some (.task inv (.run (.succeed result)))) :
    Happened actions (Wins cfg m₀ inv result.usage) := by
  induction actions using reverseRecOn with
  | nil => simp [hm₀] at hi
  | append_singleton actions a ih =>
    rw [run_append, run_cons, run_nil] at hi
    obtain ⟨env, t, rfl, ht, hu⟩ | ⟨-, ht⟩ | ⟨-, hnew⟩ := threads_step hi
    · obtain ⟨-, hentry⟩ | ⟨pc, sh', rfl, hnext, -⟩ := Thread.next_of_step_run hu.symm
      · cases hentry
      · cases hnext with
        | prepare _ hearly => cases hearly
        | executing _ hpc' => rcases hpc' with h | h <;> cases h
        | earned hpc hjoin hearned husage =>
          exact ⟨actions, i, env, [], rfl, pc, _, ht, hpc, hjoin, hearned, husage⟩
    · exact (ih ht).append a
    · cases hnew

theorem target_run (cfg : InvocationStoreConfig) (m₀ : Bridge) (hm₀ : m₀.threads = [])
    (actions : List Action) (i : ℕ) (req : CancelRequest) (attempts : ℕ) (target : InvocationState)
    (hi : (run cfg m₀ actions).threads[i]? = some (.cancel req (.write attempts target))) :
    target = .cancelled ∨ target = .cancelRequested := by
  induction actions using reverseRecOn generalizing attempts with
  | nil => simp [hm₀] at hi
  | append_singleton actions a ih =>
    rw [run_append, run_cons, run_nil] at hi
    obtain ⟨env, t, rfl, ht, hu⟩ | ⟨-, ht⟩ | ⟨-, hnew⟩ := threads_step hi
    · rcases t with _ | ⟨_, _ | _ | _ | _⟩ | _ | ⟨req', pc⟩
      case cancel =>
        obtain ⟨rfl, hstep⟩ := Thread.cancel.inj hu.symm
        exact target_of_step_write hstep
      all_goals cases hu
    · exact ih attempts ht
    · cases hnew

/-! ### What a terminal state goes back to -/

/-- The executor run of the record has ended with what a success takes. -/
def EarnedIn (cfg : InvocationStoreConfig) (m₀ : Bridge) (actions : List Action) (r : Invocation) : Prop :=
  Happened actions fun before i env =>
    ∃ inv, inv.id = r.id ∧ inv.request = r.request ∧ Wins cfg m₀ inv (r.result.bind (·.usage)) before i env

/-- A cancel request takes effect on an id that is queued or running. -/
def Cancels (cfg : InvocationStoreConfig) (m₀ : Bridge) (id : String) (before : List Action) (i : ℕ)
    (env : Env) : Prop :=
  (∃ req attempts target, req.id = id ∧ (run cfg m₀ before).threads[i]? = some (.cancel req (.write attempts target))) ∧
  (∃ r ∈ (run cfg m₀ before).shared.records, r.id = id ∧ (r.state = .queued ∨ r.state = .running)) ∧
  ∃ r ∈ (run cfg m₀ (before ++ [.run i env])).shared.records, r.id = id ∧
    (r.state = .cancelled ∨ r.state = .cancelRequested)

/-- A record of the opened store keeps its state. -/
def WasSo (records : List Invocation) (r : Invocation) : Prop := ∃ r₀ ∈ records, r₀.id = r.id ∧ r₀.state = r.state

/-- What holds of a record after actions. -/
structure Accounted (cfg : InvocationStoreConfig) (limits : InvocationRunningLimits)
    (records : List Invocation) (actions : List Action) (r : Invocation) : Prop where
  succeeded : r.state = .succeeded → WasSo records r ∨ EarnedIn cfg (opened limits records) actions r
  cancelled : r.state = .cancelled ∨ r.state = .cancelRequested →
    WasSo records r ∨ Happened actions (Cancels cfg (opened limits records) r.id)
  usage : r.HasValidUsage ∨ ∃ r₀ ∈ records, r₀.id = r.id ∧ r₀.result = r.result

/-- A cancellation is written over a record that is open. -/
theorem queued_or_running {state next : InvocationState} {error : Option InvocationErrorInfo}
    (hedge : state.permitsWith next error = true) (hnext : next = .cancelled ∨ next = .cancelRequested)
    (hstate : state ≠ .cancelRequested) : state = .queued ∨ state = .running := by
  unfold InvocationState.permitsWith at hedge
  rcases hnext with rfl | rfl <;> cases state <;> simp_all [InvocationState.permits]

namespace Accounted

variable {cfg : InvocationStoreConfig} {limits : InvocationRunningLimits} {records : List Invocation}
  {actions : List Action} {r r' : Invocation}

/-- Nothing but the binding has changed. -/
theorem append (h : Accounted cfg limits records actions r) (a : Action) (hid : r'.id = r.id)
    (hrequest : r'.request = r.request) (hstate : r'.state = r.state) (hresult : r'.result = r.result) :
    Accounted cfg limits records (actions ++ [a]) r' := by
  have hwas : WasSo records r → WasSo records r' := by
    rintro ⟨r₀, hr₀, hid₀, hstate₀⟩
    exact ⟨r₀, hr₀, hid₀.trans hid.symm, hstate₀.trans hstate.symm⟩
  refine ⟨fun hsucceeded => ?_, fun hcancelled => ?_, ?_⟩
  · refine (h.succeeded (hstate ▸ hsucceeded)).imp hwas fun hearned => ?_
    unfold EarnedIn
    rw [hid, hrequest, hresult]
    exact hearned.append a
  · rw [hid]
    exact (h.cancelled (hstate ▸ hcancelled)).imp hwas fun hcancels => hcancels.append a
  · unfold Invocation.HasValidUsage
    rw [hid, hresult]
    exact h.usage

/-- What a write of the action makes of an accounted record. -/
theorem write (h : Accounted cfg limits records actions r) (hopened : ∀ r ∈ records, r.state.isTerminal = true)
    (hleft : HasLeft (run cfg (opened limits records) actions))
    (hw : Wired known (run cfg (opened limits records) actions)) {i : ℕ}
    (ht : (run cfg (opened limits records) actions).threads[i]? = some t)
    (hrequests : Requests t claims id expectedRevision next patch) (hvalid : patch.IsValid)
    (hr : r ∈ (run cfg (opened limits records) actions).shared.records) (hid : r.id = id)
    (hedge : r.state.permitsWith next patch.error = true)
    (hr' : applyTransition env.now claims.actorId next patch r ∈
      (run cfg (opened limits records) (actions ++ [.run i env])).shared.records) :
    Accounted cfg limits records (actions ++ [.run i env])
      (applyTransition env.now claims.actorId next patch r) := by
  refine ⟨fun hstate => ?_, fun hstate => ?_, ?_⟩
  · -- Only the task writes `succeeded`.
    obtain rfl : next = .succeeded := hstate
    cases hrequests with
    | @succeeded inv claims result hclaims =>
      refine .inr (((willSucceed_run cfg _ rfl actions i inv result ht).append _).mono ?_)
      intro before j env' hwins
      have hcontinues := hw.continues _ (mem_of_getElem? ht) inv rfl r hr hid
      exact ⟨inv, hid.symm, hcontinues.request_eq.symm, hwins⟩
    | @cancel req attempts target =>
      rcases target_run cfg _ rfl actions i req attempts _ ht with htarget | htarget <;> cases htarget
  · by_cases hwas : r.state = .cancelRequested
    · refine ((h.cancelled (.inr hwas)).imp (fun hso => ?_) fun hcancels => hcancels.append _)
      -- An opened store has no such record.
      obtain ⟨r₀, hr₀, -, hstate₀⟩ := hso
      have := hopened r₀ hr₀
      rw [hstate₀, hwas] at this
      cases this
    · cases hrequests with
      | @cancelled inv claims hclaims =>
        -- The store does not take it from `running`, and the record has left the queue.
        obtain hqueued | hrunning := queued_or_running hedge (.inl rfl) hwas
        · exact absurd hqueued (hleft i inv .writeCancelled ht rfl r hr hid)
        · rw [hrunning] at hedge
          cases hedge
      | @cancel req attempts =>
        refine .inr ⟨actions, i, env, [], rfl, ⟨req, attempts, next, hid.symm, ht⟩,
          ⟨r, hr, rfl, ?_⟩, _, hr', rfl, hstate⟩
        exact queued_or_running hedge hstate hwas
      | _ => rcases hstate with hstate | hstate <;> cases hstate
  · cases hp : patch.result with
    | none =>
      have hsame : (applyTransition env.now claims.actorId next patch r).result = r.result := by
        rw [applyTransition_result, hp, Option.none_or]
      unfold Invocation.HasValidUsage
      rw [hsame]
      exact h.usage
    | some written =>
      refine .inl fun result usage hresult husage => ?_
      rw [applyTransition_result, hp, Option.some_or] at hresult
      cases hresult
      exact hvalid.validateUsage_eq_ok hp husage

end Accounted

theorem accounted_run (cfg : InvocationStoreConfig) (limits : InvocationRunningLimits)
    (hopened : ∀ r ∈ records, r.state.isTerminal = true) (h : IdsDistinct records actions) :
    ∀ r ∈ (run cfg (opened limits records) actions).shared.records, Accounted cfg limits records actions r := by
  induction actions using reverseRecOn with
  | nil =>
    exact fun r hr => ⟨fun _ => .inl ⟨r, hr, rfl, rfl⟩, fun _ => .inl ⟨r, hr, rfl, rfl⟩, .inr ⟨r, hr, rfl, rfl⟩⟩
  | append_singleton actions a ih =>
    have hw := wired_run cfg limits h.left
    have hleft := hasLeft_run cfg limits h.left
    have hrun : run cfg (opened limits records) (actions ++ [a]) =
        (run cfg (opened limits records) actions).step cfg a := by
      rw [run_append, run_cons, run_nil]
    obtain ⟨survivors, added, hrecords, hpass, hadds⟩ := step_passes cfg (run cfg (opened limits records) actions) a
    intro r hr
    rw [hrun, hrecords] at hr
    rcases mem_append.1 hr with hr | hr
    · obtain ⟨r₀, hr₀, hmoves⟩ := hpass.source hr
      have hold := ih h.left r₀ hr₀
      have hr' : r ∈ (run cfg (opened limits records) (actions ++ [a])).shared.records := by
        rw [hrun, hrecords]
        exact mem_append_left _ hr
      cases hmoves with
      | same => exact hold.append a rfl rfl rfl rfl
      | unbind => exact hold.append a rfl rfl rfl rfl
      | write ha ht hrequests hvalid hselects _ _ hedge =>
        subst ha
        exact hold.write hopened hleft hw ht hrequests hvalid hr₀ (selects_iff.1 hselects).1 hedge hr'
    · cases hadds with
      | nothing => cases hr
      | created ha =>
        obtain rfl := mem_singleton.1 hr
        exact ⟨fun hstate => (nomatch hstate), fun hstate => (nomatch hstate),
          .inl fun result usage hresult => (nomatch hresult)⟩

/-- How the records of a run have come to their states and usages. -/
structure Honest (cfg : InvocationStoreConfig) (limits : InvocationRunningLimits)
    (records : List Invocation) (actions : List Action) : Prop where
  succeeded : ∀ r ∈ (run cfg (opened limits records) actions).shared.records,
    r.state = .succeeded → WasSo records r ∨ EarnedIn cfg (opened limits records) actions r
  cancelled : ∀ r ∈ (run cfg (opened limits records) actions).shared.records,
    r.state = .cancelled → WasSo records r ∨ Happened actions (Cancels cfg (opened limits records) r.id)
  usage : ∀ r ∈ (run cfg (opened limits records) actions).shared.records,
    r.HasValidUsage ∨ ∃ r₀ ∈ records, r₀.id = r.id ∧ r₀.result = r.result

/-- **Honest terminal outcomes**, over any interleaving. -/
theorem honest_run {cfg : InvocationStoreConfig} {limits : InvocationRunningLimits}
    {records : List Invocation} (hopened : IsOpened cfg records) {actions : List Action}
    (h : IdsDistinct records actions) : Honest cfg limits records actions :=
  have haccounted := accounted_run cfg limits hopened.isTerminal h
  ⟨fun r hr => (haccounted r hr).succeeded, fun r hr hstate => (haccounted r hr).cancelled (.inl hstate),
    fun r hr => (haccounted r hr).usage⟩

theorem isOpened_nil (cfg : InvocationStoreConfig) : IsOpened cfg [] := ⟨0, 0, .ok (), [], ⟨0, 0, 0, 0⟩, rfl⟩

/-- The executor run ends within its budget. -/
def finished : Env :=
  { calm with
    join := some (.ok ⟨.completed, "completed", "done",
      some ⟨none, some "model", some 3, some 4, some 5, some .gateway, none⟩⟩) }

/-- A task that runs to its end, and one that is cancelled in the queue. -/
def oneOfEach : List Action :=
  .create acme ⟨{ plainRequest with budget := some ⟨some 7, none, some 5⟩ }, none, none, none⟩ "a" 0
      (.ok ()) ::
    .create acme ⟨plainRequest, none, none, none⟩ "b" 1000 (.ok ()) ::
      (List.replicate 16 (.run 0 calm) ++ [.run 0 finished, .run 0 calm] ++
        .cancel ⟨acme, false, "inv_b", none⟩ :: List.replicate 2 (.run 2 calm))

theorem honest_run_oneOfEach :
    (run ⟨days 7, 32, hours 24⟩ (opened ⟨1, 1, 1⟩ []) oneOfEach).shared.records.map (·.state) =
        [.succeeded, .cancelled] ∧
      Honest ⟨days 7, 32, hours 24⟩ ⟨1, 1, 1⟩ [] oneOfEach :=
  ⟨by decide +kernel, honest_run (isOpened_nil _) (by decide +kernel)⟩

end Bridge

end WildAgentOs.Invocations
