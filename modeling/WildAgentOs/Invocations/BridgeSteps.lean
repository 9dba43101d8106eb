import WildAgentOs.Invocations.Bridge
import WildAgentOs.Invocations.StoreSteps
import Mathlib.Data.Prod.Lex
import Mathlib.Data.String.Basic

/-!
# What a step of the bridge does

The effects that a thread can have on what is shared, each with the places that have it, and what an
action makes of the records.

* `Requests`, `Effect`, `effect_step`, `Moves`, `step_passes`, `Wired`, `wired_run`.
-/

namespace WildAgentOs.Invocations

open ListPass Interleaving List Option RunPc Thread System Action

/-! ### Threads -/

/-- The invocation that a thread was made for. -/
def Thread.invocation : Thread → Option Invocation
  | creator inv => some inv
  | task inv _ => some inv
  | watcher inv _ => some inv
  | cancel _ _ => none

/-- The id whose run is the business of a thread. -/
def Thread.owner : Thread → Option String
  | creator inv => some inv.id
  | task inv _ => some inv.id
  | watcher _ _ => none
  | cancel _ _ => none

/-- The places of a task that holds a slot. -/
def TaskPc.holdsSlot : TaskPc → Bool
  | admitting .wakeAdmitted => true
  | run _ => true
  | leave .dropSlot | leave .unwind => true
  | _ => false

/-- The places of a task whose executor run is in flight. -/
def TaskPc.isExecuting : TaskPc → Bool
  | run .executing | run .unwinding => true
  | _ => false

/-- The places at which a notification is due. -/
def Thread.willNotify : Thread → Bool
  | task _ (.admitting .wakeAdmitted) | task _ (.run .wakeRunning) => true
  | task _ (.leave .wakeReleased) | task _ (.leave .wakeUnwound) => true
  | watcher _ .cancelToken | watcher _ (.fail _) | watcher _ .wake => true
  | _ => false

theorem Thread.invocation_step (env : Env) (sh : Shared) (t : Thread) :
    (t.step env sh).thread.invocation = t.invocation := by
  rcases t with _ | ⟨_, _ | _ | _ | _⟩ | _ | _ <;> rfl

theorem Thread.owner_step (env : Env) (sh : Shared) (t : Thread) : (t.step env sh).thread.owner = t.owner := by
  rcases t with _ | ⟨_, _ | _ | _ | _⟩ | _ | _ <;> rfl

variable {t : Thread} {id : String}

theorem Thread.invocation_of_owner (h : t.owner = some id) : ∃ inv, t.invocation = some inv ∧ inv.id = id := by
  rcases t with inv | ⟨inv, pc⟩ | _ | _
  · exact ⟨inv, rfl, some.inj h⟩
  · exact ⟨inv, rfl, some.inj h⟩
  · cases h
  · cases h

variable {env : Env} {sh : Shared} {t u : Thread}

/-- A task spawns the watcher of its deadline, and that is all that is spawned. -/
theorem Thread.spawned_step (h : u ∈ (t.step env sh).spawned) :
    ∃ inv, t = .task inv .start ∧ inv.request.deadline.isSome = true ∧ u = .watcher inv .waiting := by
  rcases t with inv | ⟨inv, _ | _ | _ | _⟩ | _ | _
  case task.start =>
    unfold step at h
    simp only at h
    split_ifs at h with hdeadline
    · exact ⟨inv, rfl, hdeadline, mem_singleton.1 h⟩
    · cases h
  all_goals cases h

/-- Threads as they are made. -/
inductive Thread.IsNew : Thread → Prop
  | creator (inv : Invocation) : IsNew (.creator inv)
  | watcher (inv : Invocation) : IsNew (.watcher inv .waiting)
  | cancel (req : CancelRequest) : IsNew (.cancel req (.read 1))

/-! ### Effects -/

/-- The transitions that threads ask the store for. -/
inductive Requests : Thread → IsolationClaims → String → Option ℕ → InvocationState → TransitionPatch → Prop
  | backstop {inv : Invocation} {claims : IsolationClaims} : claimsFromInvocation inv = .ok claims →
      Requests (.task inv (.admitting (.backstop .write))) claims inv.id none .failed
        deadlineBackstop.patch
  | enterRunning {inv : Invocation} {claims : IsolationClaims} {taskIri : String} :
      claimsFromInvocation inv = .ok claims →
      Requests (.task inv (.run (.enterRunning taskIri))) claims inv.id none .running
        { taskIri := some taskIri }
  | fail {inv : Invocation} {claims : IsolationClaims} {failure : Failure} : claimsFromInvocation inv = .ok claims →
      Requests (.task inv (.run (.fail failure .write))) claims inv.id none .failed failure.patch
  | cancelled {inv : Invocation} {claims : IsolationClaims} : claimsFromInvocation inv = .ok claims →
      Requests (.task inv (.run .writeCancelled)) claims inv.id none .cancelled {}
  | succeeded {inv : Invocation} {claims : IsolationClaims} {result : InvocationResult} :
      claimsFromInvocation inv = .ok claims →
      Requests (.task inv (.run (.succeed result))) claims inv.id none .succeeded
        { result := some result }
  | deadline {inv : Invocation} {claims : IsolationClaims} : claimsFromInvocation inv = .ok claims →
      Requests (.watcher inv (.fail .write)) claims inv.id none .failed deadlineFailure.patch
  | cancel {req : CancelRequest} {attempts : ℕ} {target : InvocationState} :
      Requests (.cancel req (.write attempts target)) req.claims req.id req.expectedRevision target {}

/-- What a step of a thread does to the shared state. -/
inductive Effect (env : Env) (sh : Shared) (t : Thread) : Shared → Prop
  | nothing : Effect env sh t sh
  | write {claims : IsolationClaims} {id : String} {expectedRevision : Option ℕ}
      {next : InvocationState} {patch : TransitionPatch} :
      Requests t claims id expectedRevision next patch →
      Effect env sh t (sh.transition env claims id expectedRevision next patch).2
  | admission {inv : Invocation} {seen : ℕ} : t = .task inv (.admitting (.tryAdmit seen)) →
      Effect env sh t
        { sh with slots := (sh.slots.tryAdmit (RunningScope.fromInvocation inv) inv.id).2 }
  | release {inv : Invocation} {pc : LeavePc} : t = .task inv (.leave pc) → pc = .dropSlot ∨ pc = .unwind →
      Effect env sh t { sh with slots := (sh.slots.release inv.id).2 }
  | notify : t.willNotify = true → Effect env sh t sh.notifyWaiters
  | cancelToken {id : String} :
      (∃ inv, inv.id = id ∧ (t = .task inv (.leave .cancelToken) ∨ t = .watcher inv .cancelToken)) ∨
        (∃ req r, req.id = id ∧ t = .cancel req (.cancelToken r)) →
      Effect env sh t (sh.cancelToken id)
  | register (id : String) : Effect env sh t (sh.register id)
  | unregister (id : String) : Effect env sh t (sh.unregister id)
  | begin {inv : Invocation} : t = .task inv (.run .spawn) →
      Effect env sh t { sh with inFlight := inv.id :: sh.inFlight }
  | finish {inv : Invocation} {pc : RunPc} : t = .task inv (.run pc) → pc = .executing ∨ pc = .unwinding →
      Effect env sh t { sh with inFlight := sh.inFlight.erase inv.id }

section Frames

variable (sh : Shared) (env : Env) (claims : IsolationClaims) (id : String)
  (expectedRevision : Option ℕ) (next : InvocationState) (patch : TransitionPatch)

/-- A failure touches the records alone. -/
theorem Failure.step_eq (f : Failure) (inv : Invocation) (pc : FailPc) :
    (f.step env inv sh pc).2 = { sh with records := (f.step env inv sh pc).2.records } := by
  unfold Failure.step
  cases claimsFromInvocation inv with
  | error e => cases pc <;> rfl
  | ok claims =>
    cases pc with
    | read =>
      simp only
      split
      · rfl
      · split_ifs <;> rfl
    | write => rfl

end Frames

variable {inv : Invocation}

/-- A failing write, wherever it is made. -/
theorem Failure.effect_step {f : Failure} (pc : FailPc)
    (h : ∀ claims, claimsFromInvocation inv = .ok claims → pc = .write →
      Requests t claims inv.id none .failed f.patch) :
    Effect env sh t (f.step env inv sh pc).2 := by
  unfold Failure.step
  cases hclaims : claimsFromInvocation inv with
  | error e => cases pc <;> exact .nothing
  | ok claims =>
    cases pc with
    | read =>
      simp only
      split
      · exact .nothing
      · split_ifs <;> exact .nothing
    | write => exact .write (h claims hclaims rfl)

theorem LeavePc.effect_step (env : Env) (inv : Invocation) (sh : Shared) (pc : LeavePc) :
    Effect env sh (.task inv (.leave pc)) (pc.step inv sh).2 := by
  cases pc with
  | dropSlot => exact .release rfl (.inl rfl)
  | wakeReleased => exact .notify rfl
  | cancelToken => exact .cancelToken (.inl ⟨inv, rfl, .inl rfl⟩)
  | unregister => exact .unregister inv.id
  | unwind => exact .release rfl (.inr rfl)
  | wakeUnwound => exact .notify rfl
  | done => exact .nothing

theorem WatcherPc.effect_step (env : Env) (inv : Invocation) (sh : Shared) (pc : WatcherPc) :
    Effect env sh (.watcher inv pc) (pc.step env inv sh).2 := by
  cases pc with
  | waiting =>
    simp only [WatcherPc.step]
    split_ifs <;> exact .nothing
  | read =>
    simp only [WatcherPc.step]
    split
    · exact .nothing
    · split
      · exact .nothing
      · split_ifs <;> exact .nothing
  | cancelToken => exact .cancelToken (.inl ⟨inv, rfl, .inr rfl⟩)
  | fail pc =>
    refine Failure.effect_step pc ?_
    rintro claims hclaims rfl
    exact .deadline hclaims
  | wake => exact .notify rfl
  | done => exact .nothing

theorem CancelPc.effect_step (env : Env) (req : CancelRequest) (sh : Shared) (pc : CancelPc) :
    Effect env sh (.cancel req pc) (pc.step env req sh).2 := by
  cases pc with
  | read attempts =>
    simp only [CancelPc.step]
    split
    · exact .nothing
    · split_ifs
      · exact .nothing
      · split <;> exact .nothing
  | write attempts target =>
    have hwrite : Effect env sh (.cancel req (.write attempts target))
        (sh.transition env req.claims req.id req.expectedRevision target {}).2 :=
      .write .cancel
    simp only [CancelPc.step]
    split
    next h => rwa [h] at hwrite
    next h => rwa [h] at hwrite
    next h => rwa [h] at hwrite
  | cancelToken r =>
    simp only [CancelPc.step, Shared.cancelRegistered]
    split_ifs with hregistered
    · exact .cancelToken (.inr ⟨req, r, rfl, rfl⟩)
    · exact .nothing
  | unregister r => exact .unregister req.id
  | done answer => exact .nothing

/-! ### The end of an executor run -/

/-- What `succeeded` takes: a completed run with an explicit success status, and a usage that is valid,
complete and within the budget. -/
structure Earned (inv : Invocation) (outcome : TaskOutcome) : Prop where
  kind : outcome.kind = .completed
  status : statusIsSuccess outcome.status = true
  usage : ∃ usage, outcome.usage = some usage ∧ validateUsage usage = .ok () ∧ IsComplete usage ∧
    ∀ budget, inv.request.budget = some budget → WithinBudget budget usage

/-- **The end of an executor run leads to a failure**, or to a success that is earned. -/
theorem afterJoin_cases (inv : Invocation) (join : Except JoinError TaskOutcome) :
    (∃ failure, afterJoin inv join = .fail failure .read) ∨
      ∃ outcome result, join = .ok outcome ∧ afterJoin inv join = .succeed result ∧
        Earned inv outcome ∧ result.usage = outcome.usage := by
  cases join with
  | error e => cases e <;> exact .inl ⟨_, rfl⟩
  | ok outcome =>
    cases hvalid : validateReported outcome.usage with
    | error e =>
      simp only [afterJoin, applyTaskOutcome, hvalid]
      exact .inl ⟨invalidUsageFailure, by split_ifs <;> rfl⟩
    | ok =>
      simp only [afterJoin, applyTaskOutcome, hvalid]
      by_cases hcancelled : outcome.kind = .cancelled
      · exact .inl ⟨_, by rw [if_pos hcancelled]⟩
      rw [if_neg hcancelled]
      by_cases hkind : outcome.kind = .completed
      swap
      · exact .inl ⟨_, by rw [if_neg hkind]⟩
      rw [if_pos hkind]
      by_cases hstatus : statusIsSuccess outcome.status = false
      · exact .inl ⟨_, by rw [if_pos hstatus]⟩
      rw [if_neg hstatus]
      by_cases hbudget : (inv.request.budget.any fun budget => outcome.usage.any (budgetIsExceeded budget)) = true
      · exact .inl ⟨_, by rw [if_pos hbudget]⟩
      rw [if_neg hbudget]
      split
      next result hresult =>
        obtain ⟨rfl, usage, husage, hcomplete⟩ := succeededPatchOrReject_eq_ok_iff.1 hresult
        simp only at husage
        refine .inr ⟨outcome, _, rfl, rfl, ⟨hkind, by simpa using hstatus, usage, husage, ?_,
          hcomplete, fun budget hb => ?_⟩, rfl⟩
        · simpa [validateReported, husage] using hvalid
        · exact withinBudget_of_not_exceeded (by simpa [hb, husage] using hbudget)
      next => exact .inl ⟨_, rfl⟩

/-! ### Edges of the admission loop -/

/-- The edges of `admit_and_run` between its places. -/
inductive AdmitPc.Next (env : Env) (inv : Invocation) (sh : Shared) : AdmitPc → TaskPc → Shared → Prop
  | subscribe : Next env inv sh .subscribe (.admitting (.readState sh.notified)) sh
  | queued {seen : ℕ} {claims : IsolationClaims} {current : Invocation} :
      claimsFromInvocation inv = .ok claims → getForClaims claims inv.id sh.records = .ok current →
      current.state = .queued → Next env inv sh (.readState seen) (.admitting (.checkToken seen)) sh
  | gone {seen : ℕ} :
      (∀ claims, claimsFromInvocation inv = .ok claims →
        ∀ current, getForClaims claims inv.id sh.records = .ok current → current.state ≠ .queued) →
      Next env inv sh (.readState seen) (.leave .cancelToken) sh
  | due {seen : ℕ} : sh.isCancelled inv.id = true → deadlineAlreadyDue env inv = true →
      Next env inv sh (.checkToken seen) (.admitting (.backstop .read)) sh
  | cancelled {seen : ℕ} : sh.isCancelled inv.id = true → deadlineAlreadyDue env inv = false →
      Next env inv sh (.checkToken seen) (.leave .cancelToken) sh
  | proceed {seen : ℕ} : sh.isCancelled inv.id = false →
      Next env inv sh (.checkToken seen) (.admitting (.readAdmitted seen)) sh
  | readAdmitted {seen : ℕ} :
      Next env inv sh (.readAdmitted seen) (.admitting (.readOldest seen sh.slots.admittedIds)) sh
  | head {seen : ℕ} {admitted : List String} {oldest : Invocation} :
      oldestQueuedInScopeExcluding inv.tenantId inv.projectId admitted sh.records = some oldest →
      oldest.id = inv.id →
      Next env inv sh (.readOldest seen admitted) (.admitting (.tryAdmit seen)) sh
  | behind {seen : ℕ} {admitted : List String} :
      (∀ oldest, oldestQueuedInScopeExcluding inv.tenantId inv.projectId admitted sh.records =
        some oldest → oldest.id ≠ inv.id) →
      Next env inv sh (.readOldest seen admitted) (.admitting (.asleep seen)) sh
  | admitted {seen : ℕ} : (sh.slots.tryAdmit (RunningScope.fromInvocation inv) inv.id).1 = true →
      Next env inv sh (.tryAdmit seen) (.admitting .wakeAdmitted)
        { sh with slots := (sh.slots.tryAdmit (RunningScope.fromInvocation inv) inv.id).2 }
  | full {seen : ℕ} : (sh.slots.tryAdmit (RunningScope.fromInvocation inv) inv.id).1 = false →
      Next env inv sh (.tryAdmit seen) (.admitting (.asleep seen)) sh
  | wakeAdmitted : Next env inv sh .wakeAdmitted (.run .entry) sh.notifyWaiters
  | woken {seen : ℕ} : seen ≠ sh.notified ∨ sh.isCancelled inv.id = true →
      Next env inv sh (.asleep seen) (.admitting .subscribe) sh
  | sleeps {seen : ℕ} : Next env inv sh (.asleep seen) (.admitting (.asleep seen)) sh
  | backstop {pc pc' : FailPc} : (deadlineBackstop.step env inv sh pc).1 = some pc' →
      Next env inv sh (.backstop pc) (.admitting (.backstop pc')) (deadlineBackstop.step env inv sh pc).2
  | failed {pc : FailPc} : (deadlineBackstop.step env inv sh pc).1 = none →
      Next env inv sh (.backstop pc) (.leave .cancelToken) (deadlineBackstop.step env inv sh pc).2

theorem AdmitPc.next_step (env : Env) (inv : Invocation) (sh : Shared) (pc : AdmitPc) :
    pc.Next env inv sh (pc.step env inv sh).1 (pc.step env inv sh).2 := by
  cases pc with
  | subscribe => exact .subscribe
  | readState seen =>
    simp only [AdmitPc.step]
    split
    next e he => exact .gone fun claims hclaims => by simp [he] at hclaims
    next claims hclaims =>
      split
      next e he =>
        refine .gone fun claims' hclaims' current hcurrent => ?_
        obtain rfl : claims = claims' := by simpa [hclaims] using hclaims'
        simp [he] at hcurrent
      next current hcurrent =>
        split_ifs with hqueued
        · exact .queued hclaims hcurrent hqueued
        · refine .gone fun claims' hclaims' current' hcurrent' => ?_
          obtain rfl : claims = claims' := by simpa [hclaims] using hclaims'
          obtain rfl : current = current' := by simpa [hcurrent] using hcurrent'
          exact hqueued
  | checkToken seen =>
    simp only [AdmitPc.step]
    split_ifs with hcancelled hdue
    · exact .due hcancelled hdue
    · exact .cancelled hcancelled (by simpa using hdue)
    · exact .proceed (by simpa using hcancelled)
  | readAdmitted seen => exact .readAdmitted
  | readOldest seen admitted =>
    simp only [AdmitPc.step]
    split_ifs with hhead
    · obtain ⟨oldest, holdest, hid⟩ := map_eq_some_iff.1 hhead
      exact .head holdest hid
    · exact .behind fun oldest holdest hid => hhead (by rw [holdest, map_some, hid])
  | tryAdmit seen =>
    simp only [AdmitPc.step]
    split_ifs with hok
    · exact .admitted hok
    · have hfalse : (sh.slots.tryAdmit (RunningScope.fromInvocation inv) inv.id).1 = false := by
        simpa using hok
      rw [(FifoRunningSlots.isFull_of_tryAdmit hfalse).2.2]
      exact .full hfalse
  | wakeAdmitted => exact .wakeAdmitted
  | asleep seen =>
    simp only [AdmitPc.step]
    split_ifs with hwoken
    · exact .woken (by simpa using hwoken)
    · exact .sleeps
  | backstop pc =>
    simp only [AdmitPc.step]
    cases h : (deadlineBackstop.step env inv sh pc).1 with
    | none => exact .failed h
    | some pc' => exact .backstop h

/-! ### Edges of a run -/

/-- The places of a run before it enters `running`. -/
def RunPc.isEarly : RunPc → Bool
  | entry | fetchInput | initTask | ensureNonempty _ | recheck _ | enterRunning _ => true
  | _ => false

/-- The edges of `run_invocation` between its places. -/
inductive RunPc.Next (env : Env) (inv : Invocation) (sh : Shared) : RunPc → TaskPc → Shared → Prop
  | cancelled {pc : RunPc} : pc.isEarly = true → sh.isCancelled inv.id = true → Next env inv sh pc (.leave .dropSlot) sh
  | panics {pc : RunPc} : pc.isEarly = true → env.panics = true → Next env inv sh pc (.leave .unwind) sh
  | reject {pc : RunPc} {code message : String} : pc.isEarly = true →
      code ∈ InvocationState.preExecutionCodes → Next env inv sh pc (.run (.reject code message)) sh
  | prepare {pc pc' : RunPc} : pc.isEarly = true → pc'.isEarly = true → Next env inv sh pc (.run pc') sh
  | unclaimed {pc : RunPc} {message : String} : (TaskPc.run pc).isExecuting = false →
      claimsFromInvocation inv = .error message → Next env inv sh pc (.leave .dropSlot) sh
  | refused {taskIri : String} {claims : IsolationClaims} {e : InvocationStoreError} :
      claimsFromInvocation inv = .ok claims →
      (sh.transition env claims inv.id none .running { taskIri := some taskIri }).1 = .error e →
      Next env inv sh (.enterRunning taskIri) (.leave .dropSlot)
        (sh.transition env claims inv.id none .running { taskIri := some taskIri }).2
  | entered {taskIri : String} {claims : IsolationClaims} {outcome : TransitionOutcome} :
      claimsFromInvocation inv = .ok claims →
      (sh.transition env claims inv.id none .running { taskIri := some taskIri }).1 = .ok outcome →
      Next env inv sh (.enterRunning taskIri) (.run .wakeRunning)
        (sh.transition env claims inv.id none .running { taskIri := some taskIri }).2
  | wakeRunning : Next env inv sh .wakeRunning (.run .spawn) sh.notifyWaiters
  | spawn : Next env inv sh .spawn (.run .executing) { sh with inFlight := inv.id :: sh.inFlight }
  | executing {pc pc' : RunPc} : pc = .executing ∨ pc = .unwinding →
      pc' = .executing ∨ pc' = .unwinding → Next env inv sh pc (.run pc') sh
  | failed {pc : RunPc} {failure : Failure} : pc = .executing ∨ pc = .unwinding →
      Next env inv sh pc (.run (.fail failure .read))
        { sh with inFlight := sh.inFlight.erase inv.id }
  | earned {pc : RunPc} {outcome : TaskOutcome} {result : InvocationResult} :
      pc = .executing ∨ pc = .unwinding → env.join = some (.ok outcome) → Earned inv outcome →
      result.usage = outcome.usage →
      Next env inv sh pc (.run (.succeed result)) { sh with inFlight := sh.inFlight.erase inv.id }
  | unwound {outcome : TaskOutcome} : env.join = some (.ok outcome) → outcome.kind = .cancelled →
      Next env inv sh .unwinding (.run .readCancelled)
        { sh with inFlight := sh.inFlight.erase inv.id }
  | keep : Next env inv sh .readCancelled (.leave .dropSlot) sh
  | cancel : Next env inv sh .readCancelled (.run .writeCancelled) sh
  | writeCancelled {claims : IsolationClaims} : claimsFromInvocation inv = .ok claims →
      Next env inv sh .writeCancelled (.leave .dropSlot)
        (sh.transition env claims inv.id none .cancelled {}).2
  | succeed {result : InvocationResult} {claims : IsolationClaims} : claimsFromInvocation inv = .ok claims →
      Next env inv sh (.succeed result) (.leave .dropSlot)
        (sh.transition env claims inv.id none .succeeded { result := some result }).2
  | fail {failure : Failure} {pc pc' : FailPc} : (failure.step env inv sh pc).1 = some pc' →
      Next env inv sh (.fail failure pc) (.run (.fail failure pc')) (failure.step env inv sh pc).2
  | done {failure : Failure} {pc : FailPc} : (failure.step env inv sh pc).1 = none →
      Next env inv sh (.fail failure pc) (.leave .dropSlot) (failure.step env inv sh pc).2

theorem InputRefFailure.code_mem (failure : InputRefFailure) : failure.code ∈ InvocationState.preExecutionCodes := by
  cases failure <;> decide

variable {pc : RunPc}

/-- The end of the executor run, as an edge. -/
theorem RunPc.Next.afterJoin {join : Except JoinError TaskOutcome}
    (hpc : pc = .executing ∨ pc = .unwinding) (hjoin : env.join = some join) :
    Next env inv sh pc (.run (Invocations.afterJoin inv join)) { sh with inFlight := sh.inFlight.erase inv.id } := by
  obtain ⟨failure, h⟩ | ⟨outcome, result, rfl, h, hearned, husage⟩ := afterJoin_cases inv join
  · rw [h]
    exact .failed hpc
  · rw [h]
    exact .earned hpc hjoin hearned husage

theorem RunPc.next_step (env : Env) (inv : Invocation) (sh : Shared) (pc : RunPc) :
    pc.Next env inv sh (pc.step env inv sh).1 (pc.step env inv sh).2 := by
  cases pc with
  | entry =>
    simp only [step]
    split
    next hcancelled => exact .cancelled rfl hcancelled
    next =>
      split
      · exact .reject rfl (by decide)
      · split_ifs <;> exact .prepare rfl rfl
  | fetchInput =>
    simp only [step]
    split_ifs with hcancelled hpanics
    · exact .cancelled rfl (by simp_all)
    · exact .panics rfl hpanics
    · split
      next failure _ => exact .reject rfl failure.code_mem
      next => exact .prepare rfl rfl
  | initTask =>
    simp only [step]
    split_ifs with hpanics
    · exact .panics rfl hpanics
    · split
      · exact .reject rfl (by decide)
      · exact .prepare rfl rfl
  | ensureNonempty taskIri =>
    simp only [step]
    split_ifs with hpanics
    · exact .panics rfl hpanics
    · split
      · exact .reject rfl (by decide)
      · exact .prepare rfl rfl
  | recheck taskIri =>
    simp only [step]
    split_ifs with hcancelled
    · exact .cancelled rfl hcancelled
    · exact .prepare rfl rfl
  | enterRunning taskIri =>
    simp only [step]
    split
    next e he => exact .unclaimed rfl he
    next claims hclaims =>
      have hrefused := @Next.refused env inv sh taskIri claims
      have hentered := @Next.entered env inv sh taskIri claims
      split
      next e sh' htransition =>
        rw [htransition] at hrefused
        exact hrefused hclaims rfl
      next outcome sh' htransition =>
        rw [htransition] at hentered
        exact hentered hclaims rfl
  | wakeRunning => exact .wakeRunning
  | spawn => exact .spawn
  | executing =>
    simp only [step]
    split
    next join hjoin => exact .afterJoin (.inl rfl) hjoin
    next =>
      split_ifs
      · exact .executing (.inl rfl) (.inr rfl)
      · exact .executing (.inl rfl) (.inl rfl)
  | unwinding =>
    simp only [step]
    split
    next => exact .executing (.inr rfl) (.inr rfl)
    next join hjoin =>
      split
      next outcome =>
        split_ifs with hkind
        · exact .unwound hjoin hkind
        · exact .afterJoin (.inr rfl) hjoin
      next => exact .afterJoin (.inr rfl) hjoin
  | readCancelled =>
    simp only [step]
    split
    · exact .keep
    · split
      · exact .cancel
      · split_ifs
        · exact .keep
        · exact .cancel
  | writeCancelled =>
    simp only [step]
    split
    next e he => exact .unclaimed rfl he
    next claims hclaims => exact .writeCancelled hclaims
  | fail failure pc =>
    simp only [step]
    cases h : (failure.step env inv sh pc).1 with
    | none => exact .done h
    | some pc' => exact .fail h
  | succeed result =>
    simp only [step]
    split
    next e he => exact .unclaimed rfl he
    next claims hclaims => exact .succeed hclaims

/-! ### Effects of edges -/

variable {sh sh' : Shared} {pc' : TaskPc}

theorem AdmitPc.Next.effect {pc : AdmitPc} (h : pc.Next env inv sh pc' sh') :
    Effect env sh (.task inv (.admitting pc)) sh' := by
  have hbackstop : ∀ pc, Effect env sh (.task inv (.admitting (.backstop pc)))
      (deadlineBackstop.step env inv sh pc).2 := by
    refine fun pc => Failure.effect_step pc ?_
    rintro claims hclaims rfl
    exact .backstop hclaims
  cases h with
  | admitted => exact .admission rfl
  | wakeAdmitted => exact .notify rfl
  | backstop => exact hbackstop _
  | failed => exact hbackstop _
  | _ => exact .nothing

theorem RunPc.Next.effect (h : pc.Next env inv sh pc' sh') : Effect env sh (.task inv (.run pc)) sh' := by
  have hfail : ∀ failure pc, Effect env sh (.task inv (.run (.fail failure pc)))
      (failure.step env inv sh pc).2 := by
    refine fun failure pc => Failure.effect_step pc ?_
    rintro claims hclaims rfl
    exact .fail hclaims
  cases h with
  | refused hclaims => exact .write (.enterRunning hclaims)
  | entered hclaims => exact .write (.enterRunning hclaims)
  | wakeRunning => exact .notify rfl
  | spawn => exact .begin rfl
  | failed hpc => exact .finish rfl hpc
  | earned hpc => exact .finish rfl hpc
  | unwound => exact .finish rfl (.inr rfl)
  | writeCancelled hclaims => exact .write (.cancelled hclaims)
  | succeed hclaims => exact .write (.succeeded hclaims)
  | fail => exact hfail _ _
  | done => exact hfail _ _
  | _ => exact .nothing

/-- **What a step of a thread does to the shared state.** -/
theorem Thread.effect_step (env : Env) (sh : Shared) (t : Thread) : Effect env sh t (t.step env sh).shared := by
  rcases t with inv | ⟨inv, _ | pc | pc | pc⟩ | ⟨inv, pc⟩ | ⟨req, pc⟩
  · exact .register inv.id
  · exact .nothing
  · exact (pc.next_step env inv sh).effect
  · exact (pc.next_step env inv sh).effect
  · exact pc.effect_step env inv sh
  · exact pc.effect_step env inv sh
  · exact pc.effect_step env req sh

/-! ### Age -/

/-- By time, then by id. -/
def age (r : Invocation) : ℤ ×ₗ String := toLex (r.createdAt.micros, r.id)

theorem isOlder_iff {a b : Invocation} : isOlder a b = true ↔ age a < age b := by
  unfold age
  rw [Prod.Lex.toLex_lt_toLex]
  have hmicros : a.createdAt = b.createdAt ↔ a.createdAt.micros = b.createdAt.micros := by
    obtain ⟨⟨x⟩, ⟨y⟩⟩ := a.createdAt, b.createdAt
    simp
  simp [isOlder, hmicros]

variable {r : Invocation} {l : List Invocation}

/-- The oldest is one of them, and none is older. -/
theorem oldest_spec (h : oldest l = some r) : r ∈ l ∧ ∀ x ∈ l, age r ≤ age x := by
  induction l generalizing r with
  | nil => cases h
  | cons a l ih =>
    unfold oldest at h
    cases hl : oldest l with
    | none =>
      rw [hl] at h
      cases h
      cases l with
      | nil => simp
      | cons b l =>
        unfold oldest at hl
        split at hl
        · cases hl
        · split_ifs at hl
    | some b =>
      rw [hl] at h
      obtain ⟨hb, hmin⟩ := ih hl
      simp only at h
      split_ifs at h with holder
      · cases h
        refine ⟨mem_cons_of_mem _ hb, fun x hx => ?_⟩
        rcases mem_cons.1 hx with rfl | hx
        · exact (isOlder_iff.1 holder).le
        · exact hmin x hx
      · cases h
        refine ⟨mem_cons_self, fun x hx => ?_⟩
        rcases mem_cons.1 hx with rfl | hx
        · exact le_rfl
        · exact (not_lt.1 fun hlt => holder (isOlder_iff.2 hlt)).trans (hmin x hx)

/-- A list that is not empty has an oldest. -/
theorem exists_oldest {x : Invocation} (h : x ∈ l) : ∃ r, oldest l = some r := by
  cases l with
  | nil => cases h
  | cons a l =>
    unfold oldest
    split
    · exact ⟨_, rfl⟩
    · split_ifs <;> exact ⟨_, rfl⟩

/-! ### Records -/

theorem Shared.transition_cases (sh : Shared) (env : Env) (claims : IsolationClaims) (id : String)
    (expectedRevision : Option ℕ) (next : InvocationState) (patch : TransitionPatch) :
    (∃ e, sh.transition env claims id expectedRevision next patch = (.error e, sh)) ∨
    (∃ current, sh.records.find? (selects claims id) = some current ∧ current.state = next ∧
      sh.transition env claims id expectedRevision next patch = (.ok ⟨current, false⟩, sh)) ∨
    ∃ current, patch.IsValid ∧ sh.records.find? (selects claims id) = some current ∧
      current.state ≠ next ∧ (∀ n, expectedRevision = some n → n = current.revision) ∧
      current.state.isTerminal = false ∧ current.state.permitsWith next patch.error = true ∧
      sh.transition env claims id expectedRevision next patch =
        (.ok ⟨applyTransition env.now claims.actorId next patch current, true⟩,
          { sh with
            records := replaceFirst (selects claims id)
              (applyTransition env.now claims.actorId next patch current) sh.records }) := by
  unfold Shared.transition
  obtain ⟨e, h⟩ | ⟨current, hfind, hsame, h⟩ |
    ⟨current, hvalid, hfind, hne, hrevision, hopen, hedge, h⟩ :=
    transitionOutcomeForClaims_cases env.now env.persist claims id expectedRevision next patch
      sh.records
  · exact .inl ⟨e, by rw [h]; rfl⟩
  · exact .inr (.inl ⟨current, hfind, hsame, by rw [h]; rfl⟩)
  · exact .inr (.inr ⟨current, hvalid, hfind, hne, hrevision, hopen, hedge, by rw [h]; rfl⟩)

variable {claims : IsolationClaims}

/-- A record of the id that a transition selects. -/
theorem selects_iff : selects claims id r = true ↔ r.id = id ∧ r.isInScope claims = true := by
  simp [selects]

/-- A later state of the same invocation. -/
structure Continues (inv r : Invocation) : Prop where
  id_eq : r.id = inv.id
  tenantId_eq : r.tenantId = inv.tenantId
  projectId_eq : r.projectId = inv.projectId
  actorId_eq : r.actorId = inv.actorId
  request_eq : r.request = inv.request
  createdAt_eq : r.createdAt = inv.createdAt

theorem Continues.refl (inv : Invocation) : Continues inv inv := ⟨rfl, rfl, rfl, rfl, rfl, rfl⟩

variable {r' : Invocation}

theorem Continues.trans (h : Continues inv r) (h' : Continues r r') : Continues inv r' :=
  ⟨h'.id_eq.trans h.id_eq, h'.tenantId_eq.trans h.tenantId_eq,
    h'.projectId_eq.trans h.projectId_eq, h'.actorId_eq.trans h.actorId_eq,
    h'.request_eq.trans h.request_eq, h'.createdAt_eq.trans h.createdAt_eq⟩

/-- What an action does to a record: nothing, or it drops its binding, or it is the write that the
thread of the action has asked for. -/
inductive Moves (m : Bridge) (a : Action) : Invocation → Invocation → Prop
  | same (r : Invocation) : Moves m a r r
  | unbind (r : Invocation) : Moves m a r { r with idempotency := none }
  | write {i : ℕ} {env : Env} {t : Thread} {claims : IsolationClaims} {id : String}
      {expectedRevision : Option ℕ} {next : InvocationState} {patch : TransitionPatch}
      {r : Invocation} : a = .run i env → m.threads[i]? = some t →
      Requests t claims id expectedRevision next patch → patch.IsValid →
      selects claims id r = true → (∀ n, expectedRevision = some n → n = r.revision) →
      r.state.isTerminal = false → r.state.permitsWith next patch.error = true →
      Moves m a r (applyTransition env.now claims.actorId next patch r)

variable {a : Action} {m : Bridge}

theorem Moves.continues (h : Moves m a r r') : Continues r r' := by
  cases h with
  | same => exact .refl r
  | unbind => exact ⟨rfl, rfl, rfl, rfl, rfl, rfl⟩
  | write => exact ⟨rfl, rfl, rfl, rfl, rfl, rfl⟩

theorem Moves.queued (h : Moves m a r r') (hqueued : r'.state = .queued) : r.state = .queued := by
  cases h with
  | same => exact hqueued
  | unbind => exact hqueued
  | @write i env t claims id expectedRevision next patch r _ _ hrequests _ _ _ _ hedge =>
    -- No state has an edge to it.
    rw [applyTransition_state] at hqueued
    subst hqueued
    unfold InvocationState.permitsWith at hedge
    cases hstate : r.state <;> simp [hstate, InvocationState.permits] at hedge

/-- The id that an action draws. -/
def Action.drawn : Action → Option String
  | .create _ _ uuid _ _ => some ("inv_" ++ uuid)
  | _ => none

namespace Bridge

/-- A create that writes adds the record and its handler; any other changes nothing. -/
theorem create_cases (cfg : InvocationStoreConfig) (now : Instant) (persist : Except String Unit)
    (claims : IsolationClaims) (new : NewInvocation) (uuid : String) (m : Bridge) :
    m.create cfg now persist claims new uuid = m ∨
      m.create cfg now persist claims new uuid =
        ⟨{ m.shared with
            records :=
              dropExpiredBindings now (sweepExpiredRecords cfg.retention now m.shared.records) ++
                [newInvocation cfg now uuid claims new] },
          m.threads ++ [.creator (newInvocation cfg now uuid claims new)]⟩ := by
  unfold create
  obtain ⟨answer, hanswer, h⟩ | ⟨-, -, h⟩ :=
    createIdempotentForClaims_cases cfg now uuid persist claims new m.shared.records
  · rw [h]
    exact .inl (by simp)
  · rw [h]
    exact .inr rfl

/-- What retention makes of the records: those that it drops are terminal. -/
theorem passes_retention (cfg : InvocationStoreConfig) (now : Instant) (records : List Invocation) :
    Passes (fun r => r.state.isTerminal = true) (Moves m a) records
      (dropExpiredBindings now (sweepExpiredRecords cfg.retention now records)) := by
  have h := Server.retention_eq_filterMap cfg now (fun r => r) records
  rw [List.map_id'] at h
  rw [h]
  unfold Server.retain
  refine .of_filterMap _ (fun r _ h => ?_) fun r _ r' h => ?_
  · split_ifs at h with hkept
    unfold isKept at hkept
    by_contra hopen
    exact hkept (by simp [hopen])
  · split_ifs at h with hkept
    cases h
    obtain ⟨hsame, -⟩ | ⟨-, -, -, hdropped⟩ := dropExpiredBinding_cases now r
    · rw [hsame]
      exact .same r
    · rw [hdropped]
      exact .unbind r

/-- The record that a create adds. -/
inductive Adds (cfg : InvocationStoreConfig) (a : Action) : List Invocation → Prop
  | nothing : Adds cfg a []
  | created {claims : IsolationClaims} {new : NewInvocation} {uuid : String} {now : Instant}
      {persist : Except String Unit} : a = .create claims new uuid now persist →
      Adds cfg a [newInvocation cfg now uuid claims new]

/-- What a step of a thread makes of the records. -/
theorem passes_effect {i : ℕ} (hi : m.threads[i]? = some t) (h : Effect env m.shared t sh) :
    Passes (fun r => r.state.isTerminal = true) (Moves m (.run i env)) m.shared.records sh.records := by
  have hsame : Passes (fun r => r.state.isTerminal = true) (Moves m (.run i env))
      m.shared.records m.shared.records := .refl (.same ·) _
  cases h with
  | @write claims id expectedRevision next patch hrequests =>
    obtain ⟨e, h⟩ | ⟨current, -, -, h⟩ | ⟨current, hvalid, hfind, -, hrevision, hopen, hedge, h⟩ :=
      m.shared.transition_cases env claims id expectedRevision next patch
    · rw [h]
      exact hsame
    · rw [h]
      exact hsame
    · rw [h]
      have hselects : selects claims id current = true := by simpa using find?_some hfind
      exact Server.passes_replaceFirst Moves.same hfind
        (Moves.write rfl hi hrequests hvalid hselects hrevision hopen hedge)
  | _ => exact hsame

/-- **An action is a pass over the records**, and adds what it creates. -/
theorem step_passes (cfg : InvocationStoreConfig) (m : Bridge) (a : Action) :
    ∃ survivors added, (m.step cfg a).shared.records = survivors ++ added ∧
      Passes (fun r => r.state.isTerminal = true) (Moves m a) m.shared.records survivors ∧ Adds cfg a added := by
  have hsame : ∃ survivors added, m.shared.records = survivors ++ added ∧
      Passes (fun r => r.state.isTerminal = true) (Moves m a) m.shared.records survivors ∧ Adds cfg a added :=
    ⟨m.shared.records, [], (append_nil _).symm, .refl (.same ·) _, .nothing⟩
  cases a with
  | create claims new uuid now persist =>
    simp only [step]
    obtain h | h := create_cases cfg now persist claims new uuid m
    · rw [h]
      exact hsame
    · rw [h]
      exact ⟨_, _, rfl, passes_retention cfg now _, .created rfl⟩
  | cancel req => exact hsame
  | shutdown => exact hsame
  | signal i =>
    simp only [step, signal]
    split
    · split_ifs <;> exact hsame
    · exact hsame
  | run i env =>
    simp only [step]
    cases hi : m.threads[i]? with
    | none =>
      rw [stepAt_of_none hi]
      exact hsame
    | some t =>
      rw [stepAt_of_some hi]
      exact ⟨_, [], (append_nil _).symm, passes_effect hi (t.effect_step env m.shared), .nothing⟩

/-! ### Places -/

/-- **The thread at a place after an action** has moved, or it was there, or it is new. -/
theorem threads_step {cfg : InvocationStoreConfig} {i : ℕ} {u : Thread} (h : (m.step cfg a).threads[i]? = some u) :
    (∃ env t, a = .run i env ∧ m.threads[i]? = some t ∧ u = (t.step env m.shared).thread) ∨
      ((∀ env, a ≠ .run i env) ∧ m.threads[i]? = some u) ∨ (m.threads.length ≤ i ∧ u.IsNew) := by
  have hpush : ∀ {v : Thread}, v.IsNew → (m.threads ++ [v])[i]? = some u →
      m.threads[i]? = some u ∨ (m.threads.length ≤ i ∧ u.IsNew) := by
    intro v hv h
    rcases lt_or_ge i m.threads.length with hlt | hge
    · exact .inl (by rwa [getElem?_append_left hlt] at h)
    · rw [getElem?_append_right hge] at h
      exact .inr ⟨hge, mem_singleton.1 (mem_of_getElem? h) ▸ hv⟩
  cases a with
  | create claims new uuid now persist =>
    have hne : ∀ env, Action.create claims new uuid now persist ≠ .run i env := by simp
    simp only [step] at h
    obtain hsame | hcreated := create_cases cfg now persist claims new uuid m
    · rw [hsame] at h
      exact .inr (.inl ⟨hne, h⟩)
    · rw [hcreated] at h
      obtain h | h := hpush (.creator _) h
      · exact .inr (.inl ⟨hne, h⟩)
      · exact .inr (.inr h)
  | cancel req =>
    obtain h | h := hpush (.cancel req) h
    · exact .inr (.inl ⟨by simp, h⟩)
    · exact .inr (.inr h)
  | shutdown => exact .inr (.inl ⟨by simp, h⟩)
  | signal j =>
    refine .inr (.inl ⟨by simp, ?_⟩)
    simp only [step, signal] at h
    split at h
    · split_ifs at h <;> exact h
    · exact h
  | run j env =>
    simp only [step] at h
    cases hj : m.threads[j]? with
    | none =>
      rw [stepAt_of_none hj] at h
      refine .inr (.inl ⟨?_, h⟩)
      rintro env' heq
      cases heq
      rw [hj] at h
      cases h
    | some t =>
      rw [stepAt_of_some hj] at h
      obtain ⟨rfl, hu⟩ | ⟨hij, hu⟩ | ⟨hlen, hu⟩ := getElem?_advance h
      · exact .inl ⟨env, t, rfl, hj, hu⟩
      · refine .inr (.inl ⟨?_, hu⟩)
        rintro env' heq
        cases heq
        exact hij rfl
      · obtain ⟨inv, -, -, rfl⟩ := spawned_step hu
        exact .inr (.inr ⟨hlen, .watcher inv⟩)

/-! ### Ids -/

/-- No two threads own one id, records have distinct ids, and a thread's invocation is that of its
record; `known` has the ids so far. -/
structure Wired (known : List String) (m : Bridge) : Prop where
  record_known : ∀ r ∈ m.shared.records, r.id ∈ known
  nodup : (m.shared.records.map (·.id)).Nodup
  thread_known : ∀ t ∈ m.threads, ∀ inv, t.invocation = some inv → inv.id ∈ known
  owners_nodup : (m.threads.filterMap Thread.owner).Nodup
  claims : ∀ t ∈ m.threads, ∀ inv, t.invocation = some inv → ∃ claims, claimsFromInvocation inv = .ok claims
  continues : ∀ t ∈ m.threads, ∀ inv, t.invocation = some inv → ∀ r ∈ m.shared.records, r.id = inv.id → Continues inv r

/-- The claims of an invocation are its own. -/
theorem claimsFromInvocation_spec (h : claimsFromInvocation inv = .ok claims) :
    claims.tenantId = inv.tenantId ∧ claims.projectId = inv.projectId := by
  unfold claimsFromInvocation at h
  split at h
  next claims' hverified =>
    cases h
    unfold IsolationClaims.fromVerified at hverified
    split at hverified
    · cases hverified
    split at hverified
    · cases hverified
    split at hverified
    · cases hverified
    cases hverified
    exact ⟨rfl, rfl⟩
  next => cases h

theorem claimsFromInvocation_new (cfg : InvocationStoreConfig) (now : Instant) (uuid : String)
    (claims : IsolationClaims) (new : NewInvocation) :
    claimsFromInvocation (newInvocation cfg now uuid claims new) = .ok claims := by
  have h : IsolationClaims.fromVerified (newInvocation cfg now uuid claims new).tenantId
      (newInvocation cfg now uuid claims new).projectId
      (newInvocation cfg now uuid claims new).actorId = .ok claims := claims.fromVerified_self
  unfold claimsFromInvocation
  rw [h]

variable {records : List Invocation}

namespace Wired

variable {known : List String} {m : Bridge}

section

variable (hm : Wired known m)
include hm

theorem mono {known' : List String} (h : ∀ id ∈ known, id ∈ known') : Wired known' m :=
  { hm with
    record_known := fun r hr => h _ (hm.record_known r hr)
    thread_known := fun t ht inv hinv => h _ (hm.thread_known t ht inv hinv) }

/-- The record of an id is the only one. -/
theorem eq_of_id_eq (hr : r ∈ m.shared.records)
    (hr' : r' ∈ m.shared.records) (h : r.id = r'.id) : r = r' :=
  inj_on_of_nodup_map hm.nodup hr hr' h

/-- The owner of an id is the only one. -/
theorem owner_unique {i j : ℕ} (hi : m.threads[i]? = some t)
    (hj : m.threads[j]? = some u) (ht : t.owner = some id) (hu : u.owner = some id) : i = j :=
  eq_of_nodup_filterMap hm.owners_nodup hi hj ht hu

/-- A thread's claims select its record. -/
theorem selects (ht : t ∈ m.threads) (hinv : t.invocation = some inv)
    (hclaims : claimsFromInvocation inv = .ok claims) (hr : r ∈ m.shared.records)
    (hid : r.id = inv.id) : Invocations.selects claims inv.id r = true := by
  have hcontinues := hm.continues t ht inv hinv r hr hid
  obtain ⟨htenant, hproject⟩ := claimsFromInvocation_spec hclaims
  refine selects_iff.2 ⟨hid, ?_⟩
  simp [Invocation.isInScope, hcontinues.tenantId_eq, hcontinues.projectId_eq, htenant, hproject]

end

/-- Records that only move keep their ids distinct. -/
theorem nodup_of_passes {drop : Invocation → Prop} {survivors : List Invocation} (hnodup : (records.map (·.id)).Nodup)
    (hpass : Passes drop (Moves m a) records survivors) : (survivors.map (·.id)).Nodup := by
  refine pairwise_map.2 (hpass.pairwise (pairwise_map.1 hnodup) ?_)
  intro r _ s _ r' s' hr hs hne
  rwa [hr.continues.id_eq, hs.continues.id_eq]

/-- Records that have moved, and threads that have stayed those of their invocations. -/
theorem of_passes (hm : Wired known m) {m' : Bridge}
    (hpass : Passes (fun r => r.state.isTerminal = true) (Moves m a) m.shared.records m'.shared.records)
    (hthreads : ∀ t ∈ m'.threads, ∀ inv, t.invocation = some inv → ∃ u ∈ m.threads, u.invocation = some inv)
    (howners : m'.threads.filterMap owner = m.threads.filterMap owner) : Wired known m' := by
  refine ⟨fun r hr => ?_, nodup_of_passes hm.nodup hpass, fun t ht inv hinv => ?_, ?_,
    fun t ht inv hinv => ?_, fun t ht inv hinv r hr hid => ?_⟩
  · obtain ⟨r₀, hr₀, hmoves⟩ := hpass.source hr
    rw [hmoves.continues.id_eq]
    exact hm.record_known r₀ hr₀
  · obtain ⟨u, hu, hinv⟩ := hthreads t ht inv hinv
    exact hm.thread_known u hu inv hinv
  · rw [howners]
    exact hm.owners_nodup
  · obtain ⟨u, hu, hinv⟩ := hthreads t ht inv hinv
    exact hm.claims u hu inv hinv
  · obtain ⟨u, hu, hinv⟩ := hthreads t ht inv hinv
    obtain ⟨r₀, hr₀, hmoves⟩ := hpass.source hr
    have hid₀ : r₀.id = inv.id := hmoves.continues.id_eq.symm.trans hid
    exact (hm.continues u hu inv hinv r₀ hr₀ hid₀).trans hmoves.continues

/-- A new record, and its create handler. -/
theorem add (hm : Wired known m) (hfresh : inv.id ∉ known) (hclaims : ∃ claims, claimsFromInvocation inv = .ok claims) :
    Wired (known ++ [inv.id])
      ⟨{ m.shared with records := m.shared.records ++ [inv] }, m.threads ++ [.creator inv]⟩ := by
  have hold : ∀ id ∈ known, id ∈ known ++ [inv.id] := fun id h => mem_append_left _ h
  have hself : inv.id ∈ known ++ [inv.id] := mem_append_right _ (mem_singleton_self _)
  refine ⟨fun r hr => ?_, ?_, fun t ht inv' hinv => ?_, ?_, fun t ht inv' hinv => ?_, fun t ht inv' hinv r hr hid => ?_⟩
  · rcases mem_append.1 hr with hr | hr
    · exact hold _ (hm.record_known r hr)
    · obtain rfl := mem_singleton.1 hr
      exact hself
  · simp only [map_append, map_cons, map_nil]
    refine nodup_append.2 ⟨hm.nodup, nodup_singleton _, ?_⟩
    rintro id hid _ hsingle rfl
    obtain ⟨r, hr, rfl⟩ := List.mem_map.1 hid
    exact hfresh (mem_singleton.1 hsingle ▸ hm.record_known r hr)
  · rcases mem_append.1 ht with ht | ht
    · exact hold _ (hm.thread_known t ht inv' hinv)
    · obtain rfl := mem_singleton.1 ht
      obtain rfl : inv = inv' := some.inj hinv
      exact hself
  · rw [filterMap_append]
    refine nodup_append.2 ⟨hm.owners_nodup, nodup_singleton inv.id, ?_⟩
    rintro id hid _ hsingle rfl
    obtain ⟨t, ht, howner⟩ := mem_filterMap.1 hid
    obtain ⟨inv', hinv', hid'⟩ := invocation_of_owner howner
    rw [← mem_singleton.1 hsingle, ← hid'] at hfresh
    exact hfresh (hm.thread_known t ht inv' hinv')
  · rcases mem_append.1 ht with ht | ht
    · exact hm.claims t ht inv' hinv
    · obtain rfl := mem_singleton.1 ht
      obtain rfl : inv = inv' := some.inj hinv
      exact hclaims
  · rcases mem_append.1 ht with hold' | hnew
    · rcases mem_append.1 hr with hr | hr
      · exact hm.continues t hold' inv' hinv r hr hid
      · rw [mem_singleton.1 hr] at hid
        exact absurd (hid ▸ hm.thread_known t hold' inv' hinv) hfresh
    · obtain rfl := mem_singleton.1 hnew
      obtain rfl : inv = inv' := some.inj hinv
      rcases mem_append.1 hr with hr | hr
      · exact absurd (hid ▸ hm.record_known r hr) hfresh
      · rw [mem_singleton.1 hr]
        exact .refl _

/-- **Distinct ids stay distinct**, if an action draws a new one. -/
theorem step (hm : Wired known m) (cfg : InvocationStoreConfig) (a : Action)
    (hfresh : ∀ id ∈ a.drawn, id ∉ known) : Wired (known ++ a.drawn.toList) (m.step cfg a) := by
  have hsame : ∀ t ∈ m.threads, ∀ inv, t.invocation = some inv →
      ∃ u ∈ m.threads, u.invocation = some inv := fun t ht inv hinv => ⟨t, ht, hinv⟩
  cases a with
  | create claims new uuid now persist =>
    simp only [Bridge.step]
    obtain h | h := create_cases cfg now persist claims new uuid m
    · rw [h]
      exact hm.mono fun id hid => mem_append_left _ hid
    · rw [h]
      have hkept : Wired known
          ⟨{ m.shared with
            records := dropExpiredBindings now
              (sweepExpiredRecords cfg.retention now m.shared.records) }, m.threads⟩ :=
        hm.of_passes (a := .shutdown) (passes_retention cfg now _) hsame rfl
      exact hkept.add (hfresh _ rfl) ⟨claims, claimsFromInvocation_new cfg now uuid claims new⟩
  | cancel req =>
    simp only [drawn, toList_none, append_nil]
    refine hm.of_passes (a := .shutdown) (.refl Moves.same _) (fun t ht inv hinv => ?_) ?_
    · rcases mem_append.1 ht with ht | ht
      · exact hsame t ht inv hinv
      · obtain rfl := mem_singleton.1 ht
        cases hinv
    · simp [Bridge.step, owner]
  | shutdown =>
    simp only [drawn, toList_none, append_nil]
    exact hm.of_passes (a := .shutdown) (.refl Moves.same _) hsame rfl
  | signal i =>
    simp only [drawn, toList_none, append_nil]
    have hsignal : (m.signal i).shared.records = m.shared.records ∧ (m.signal i).threads = m.threads := by
      unfold signal
      split
      · split_ifs <;> exact ⟨rfl, rfl⟩
      · exact ⟨rfl, rfl⟩
    refine hm.of_passes (a := .shutdown) ?_ ?_ ?_
    · rw [Bridge.step, hsignal.1]
      exact .refl Moves.same _
    · rw [Bridge.step, hsignal.2]
      exact hsame
    · rw [Bridge.step, hsignal.2]
  | run i env =>
    simp only [drawn, toList_none, append_nil]
    simp only [Bridge.step]
    cases hi : m.threads[i]? with
    | none => rwa [stepAt_of_none hi]
    | some t =>
      have ht : t ∈ m.threads := mem_of_getElem? hi
      rw [stepAt_of_some hi]
      refine hm.of_passes (passes_effect hi (t.effect_step env m.shared)) (fun u hu inv hinv => ?_) ?_
      · obtain rfl | ⟨j, -, hj⟩ | hu := mem_advance hu
        · exact ⟨t, ht, by rwa [invocation_step] at hinv⟩
        · exact ⟨u, mem_of_getElem? hj, hinv⟩
        · -- A watcher has the invocation of its task.
          obtain ⟨inv', rfl, -, rfl⟩ := spawned_step hu
          exact ⟨_, ht, hinv⟩
      · refine filterMap_advance hi (owner_step env m.shared t) fun u hu => ?_
        obtain ⟨inv', -, -, rfl⟩ := spawned_step hu
        rfl

end Wired

/-! ### Runs -/

/-- The records of a store that has been opened: none is left that runs. -/
def IsOpened (cfg : InvocationStoreConfig) (records : List Invocation) : Prop :=
  ∃ now started persist file report, (openWithConfig cfg now started persist file).1 = .ok (records, report)

/-- The ids that actions draw are new, and distinct. -/
def IdsDistinct (records : List Invocation) (actions : List Action) : Prop :=
  (records.map (·.id) ++ actions.filterMap Action.drawn).Nodup

instance (records : List Invocation) (actions : List Action) : Decidable (IdsDistinct records actions) :=
  inferInstanceAs (Decidable (List.Nodup _))

theorem IdsDistinct.left {actions later : List Action}
    (h : IdsDistinct records (actions ++ later)) : IdsDistinct records actions := by
  unfold IdsDistinct at h ⊢
  rw [filterMap_append, ← append_assoc] at h
  exact h.of_append_left

variable {actions : List Action}

theorem IdsDistinct.fresh (h : IdsDistinct records (actions ++ [a])) :
    ∀ id ∈ a.drawn, id ∉ records.map (·.id) ++ actions.filterMap drawn := by
  intro id hid hknown
  unfold IdsDistinct at h
  rw [filterMap_append, ← append_assoc] at h
  refine disjoint_of_nodup_append h hknown ?_
  simpa using hid

theorem wired_run (cfg : InvocationStoreConfig) (limits : InvocationRunningLimits) (h : IdsDistinct records actions) :
    Wired (records.map (·.id) ++ actions.filterMap drawn) (run cfg (opened limits records) actions) := by
  induction actions using reverseRecOn with
  | nil =>
    rw [filterMap_nil, append_nil]
    exact ⟨fun r hr => List.mem_map_of_mem hr, h.of_append_left, fun _ ht => (nomatch ht), .nil,
      fun _ ht => (nomatch ht), fun _ ht => (nomatch ht)⟩
  | append_singleton actions a ih =>
    have hstep := (ih h.left).step cfg a h.fresh
    have hdrawn : [a].filterMap drawn = a.drawn.toList := by
      cases hd : a.drawn <;> simp [hd]
    rw [run_append, run_cons, run_nil, filterMap_append, hdrawn, ← append_assoc]
    exact hstep

end Bridge

end WildAgentOs.Invocations
