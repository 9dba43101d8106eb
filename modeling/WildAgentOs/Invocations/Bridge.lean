import WildAgentOs.Invocations.Slots
import WildAgentOs.Lib.Interleaving

/-!
# The execution bridge

`invocations_execution.rs` with the handlers that feed it, as threads over what they share.  A thread
takes one step at a time between two of its awaits or locks: a read or a write of the store, a use of
the ledger, a notification, a use of a token.  What comes from outside (the clock, the disk, the
deadline timer, the input, the task and its executor) is in the `Env` of a step.

* `Shared`: the records, the ledger, the notifications, the tokens, the executor runs in flight;
* `AdmitPc.step`, `RunPc.step`;
* `LeavePc.step`: the drop of the slot, and what follows the run in `dispatch`;
* `Failure.step`: `fail_pre_execution` and `fail_running`;
* `WatcherPc.step`, `CancelPc.step`, `Bridge.step`, `Bridge.run`.

The prompt and the specification of the executor run are left out: only the executor reads them.
-/

namespace WildAgentOs.Invocations

open Json Interleaving

/-! ### Outcomes of an executor run -/

inductive TaskOutcomeKind
  | completed
  | failed
  | cancelled
  deriving DecidableEq

structure TaskOutcome where
  kind : TaskOutcomeKind
  status : String
  summary : String
  usage : Option InvocationUsage
  deriving DecidableEq

/-- `JoinError`, with its text. -/
inductive JoinError
  | panic (text : String)
  | aborted (text : String)
  deriving DecidableEq

inductive InputRefFailure
  | fetchFailed
  | digestMismatch
  deriving DecidableEq

def INPUT_REF_FETCH_FAILED_MESSAGE : String := "input_ref could not be resolved"
def INPUT_DIGEST_MISMATCH_MESSAGE : String := "input_ref content does not match sha256"

def InputRefFailure.code : InputRefFailure → String
  | fetchFailed => INPUT_REF_FETCH_FAILED_ERROR_CODE
  | digestMismatch => INPUT_DIGEST_MISMATCH_ERROR_CODE

def InputRefFailure.message : InputRefFailure → String
  | fetchFailed => INPUT_REF_FETCH_FAILED_MESSAGE
  | digestMismatch => INPUT_DIGEST_MISMATCH_MESSAGE

/-- What a step finds outside.  `due`: the deadline has passed; `cancelWins`: of a `select!` between a
result and a cancellation that are both ready; `panics`: what the step awaits panics; `join`: the
executor run has ended. -/
structure Env where
  now : Instant
  persist : Except String Unit
  due : Bool
  cancelWins : Bool
  panics : Bool
  fetched : Except InputRefFailure String
  taskIri : Except String String
  projected : Except String Unit
  join : Option (Except JoinError TaskOutcome)

/-! ### What threads share -/

/-- A token is named by the id it was registered for: an id is dispatched once.  A `Notified` future
keeps the number of notifications at its subscription, and is woken once there are more. -/
structure Shared where
  records : List Invocation
  slots : FifoRunningSlots
  notified : ℕ
  registered : List String
  cancelled : List String
  shutdown : Bool
  inFlight : List String

namespace Shared

def isCancelled (sh : Shared) (id : String) : Bool := sh.cancelled.contains id

def cancelToken (sh : Shared) (id : String) : Shared := { sh with cancelled := id :: sh.cancelled }

def notifyWaiters (sh : Shared) : Shared := { sh with notified := sh.notified + 1 }

def register (sh : Shared) (id : String) : Shared := { sh with registered := id :: sh.registered }

/-- `InvocationCancellationRegistry::cancel`. -/
def cancelRegistered (sh : Shared) (id : String) : Shared := if sh.registered.contains id then sh.cancelToken id else sh

/-- `InvocationCancellationRegistry::remove`. -/
def unregister (sh : Shared) (id : String) : Shared := { sh with registered := sh.registered.filter (· ≠ id) }

/-- A transition of the store. -/
def transition (sh : Shared) (env : Env) (claims : IsolationClaims) (id : String)
    (expectedRevision : Option ℕ) (next : InvocationState) (patch : TransitionPatch) :
    Except InvocationStoreError TransitionOutcome × Shared :=
  let result := transitionOutcomeForClaims env.now env.persist claims id expectedRevision next patch sh.records
  (result.1, { sh with records := result.2.getD sh.records })

end Shared

/-- The texts of `IsolationError`. -/
def IsolationError.message : IsolationError → String
  | .emptyIdentifier kind => kind ++ " must not be empty"
  | .unsafeIdentifier kind value =>
    kind ++ " contains an unsafe character or path segment: " ++ value.quote

def claimsFromInvocation (inv : Invocation) : Except String IsolationClaims :=
  match IsolationClaims.fromVerified inv.tenantId inv.projectId inv.actorId with
  | .ok claims => .ok claims
  | .error e => .error ("invalid persisted claims: " ++ IsolationError.message e)

def deadlineAlreadyDue (env : Env) (inv : Invocation) : Bool := inv.request.deadline.isSome && env.due

/-! ### Failures -/

/-- What `fail_pre_execution` and `fail_running` write. -/
structure Failure where
  code : String
  message : String
  usage : Option InvocationUsage
  deriving DecidableEq

/-- `fail_pre_execution`: no usage. -/
def failPreExecution (code message : String) : Failure := ⟨code, message, none⟩

def failRunning (code message : String) (usage : Option InvocationUsage) : Failure := ⟨code, message, usage⟩

def Failure.patch (f : Failure) : TransitionPatch where
  taskIri := none
  result := f.usage.map fun usage => ⟨"", [], some usage⟩
  error := some (InvocationErrorInfo.new f.code f.message)

/-- Both read the state, and write if it is not terminal. -/
inductive FailPc
  | read
  | write
  deriving DecidableEq

/-- A step of either; nothing is left of it when it returns. -/
def Failure.step (f : Failure) (env : Env) (inv : Invocation) (sh : Shared) : FailPc → Option FailPc × Shared
  | .read =>
    match claimsFromInvocation inv with
    | .error _ => (none, sh)
    | .ok claims =>
      match getForClaims claims inv.id sh.records with
      | .error _ => (none, sh)
      | .ok current => if current.state.isTerminal then (none, sh) else (some .write, sh)
  | .write =>
    match claimsFromInvocation inv with
    | .error _ => (none, sh)
    | .ok claims => (none, (sh.transition env claims inv.id none .failed f.patch).2)

/-! ### A task -/

/-- Places of the loop of `admit_and_run`.  `seen`: the notifications at the subscription. -/
inductive AdmitPc
  | subscribe
  | readState (seen : ℕ)
  | checkToken (seen : ℕ)
  | readAdmitted (seen : ℕ)
  | readOldest (seen : ℕ) (admitted : List String)
  | tryAdmit (seen : ℕ)
  /-- `try_admit` wakes the peers after the lock. -/
  | wakeAdmitted
  | asleep (seen : ℕ)
  | backstop (pc : FailPc)
  deriving DecidableEq

/-- Places of `run_invocation`: the slot is held. -/
inductive RunPc
  | entry
  | fetchInput
  | initTask
  | ensureNonempty (taskIri : String)
  | recheck (taskIri : String)
  | enterRunning (taskIri : String)
  | wakeRunning
  | spawn
  | executing
  /-- Cancelled: wait for the executor to unwind. -/
  | unwinding
  | readCancelled
  | writeCancelled
  | fail (failure : Failure) (pc : FailPc)
  | succeed (result : InvocationResult)

/-- Places after it: the drop of the slot, then the end of the task in `dispatch`.  A task that unwinds
drops its slot, and ends there. -/
inductive LeavePc
  | dropSlot
  | wakeReleased
  | cancelToken
  | unregister
  | unwind
  | wakeUnwound
  | done
  deriving DecidableEq

inductive TaskPc
  | start
  | admitting (pc : AdmitPc)
  | run (pc : RunPc)
  | leave (pc : LeavePc)

/-- The failure that backs up the deadline watcher. -/
def deadlineBackstop : Failure := failPreExecution DEADLINE_EXCEEDED_ERROR_CODE "deadline exceeded while queued"

/-- `admit_and_run`. -/
def AdmitPc.step (env : Env) (inv : Invocation) (sh : Shared) : AdmitPc → TaskPc × Shared
  | .subscribe => (.admitting (.readState sh.notified), sh)
  | .readState seen =>
    match claimsFromInvocation inv with
    | .error _ => (.leave .cancelToken, sh)
    | .ok claims =>
      match getForClaims claims inv.id sh.records with
      | .error _ => (.leave .cancelToken, sh)
      | .ok current =>
        if current.state = .queued then (.admitting (.checkToken seen), sh)
        else (.leave .cancelToken, sh)
  | .checkToken seen =>
    if sh.isCancelled inv.id then
      -- Only a due deadline that left us still queued is written here.
      if deadlineAlreadyDue env inv then (.admitting (.backstop .read), sh)
      else (.leave .cancelToken, sh)
    else (.admitting (.readAdmitted seen), sh)
  | .readAdmitted seen => (.admitting (.readOldest seen sh.slots.admittedIds), sh)
  | .readOldest seen admitted =>
    let oldest := oldestQueuedInScopeExcluding inv.tenantId inv.projectId admitted sh.records
    if oldest.map (·.id) = some inv.id then (.admitting (.tryAdmit seen), sh)
    else (.admitting (.asleep seen), sh)
  | .tryAdmit seen =>
    let (ok, slots) := sh.slots.tryAdmit (RunningScope.fromInvocation inv) inv.id
    (.admitting (if ok then .wakeAdmitted else .asleep seen), { sh with slots })
  | .wakeAdmitted => (.run .entry, sh.notifyWaiters)
  | .asleep seen =>
    if seen ≠ sh.notified || sh.isCancelled inv.id then (.admitting .subscribe, sh)
    else (.admitting (.asleep seen), sh)
  | .backstop pc =>
    let (pc, sh) := deadlineBackstop.step env inv sh pc
    (pc.elim (.leave .cancelToken) fun pc => .admitting (.backstop pc), sh)

def EXECUTOR_PANIC_ERROR_CODE : String := "executor_panic"
def MAX_RESULT_SUMMARY_CHARS : ℕ := 4096

def scrubResultSummary (summary : String) : String :=
  scrubSecretShapedText (String.ofList (summary.toList.take MAX_RESULT_SUMMARY_CHARS))

def structuredArtifacts (inv : Invocation) (summary : String) : List Value :=
  match inv.agentDefinition.bind (·.get "output_schema") with
  | none => []
  | some schema =>
    let schemaId :=
      ((((schema.get "$id").or (schema.get "id")).bind Value.asStr).filter fun id => !isBlank id).getD
        "agent_output"
    [.object [("schema_id", .string schemaId), ("data", .object [("summary", .string summary)])]]

/-- `usage.as_ref().map(validate_usage).transpose()`. -/
def validateReported (usage : Option InvocationUsage) : Except String Unit := (usage.map validateUsage).getD (.ok ())

def invalidUsageFailure : Failure := failRunning INVALID_USAGE_ERROR_CODE "invocation usage is invalid" none

/-- `apply_task_outcome`, up to its write. -/
def applyTaskOutcome (inv : Invocation) (outcome : TaskOutcome) : RunPc :=
  let summary := scrubResultSummary outcome.summary
  match validateReported outcome.usage with
  | .error _ => .fail invalidUsageFailure .read
  | .ok () =>
    if outcome.kind = .completed then
      if statusIsSuccess outcome.status = false then
        .fail (failRunning "task_failed"
          ("task ended with status '" ++ scrubResultSummary outcome.status ++ "'") outcome.usage) .read
      else if inv.request.budget.any fun budget => outcome.usage.any (budgetIsExceeded budget) then
        .fail (failRunning BUDGET_EXCEEDED_ERROR_CODE "request.budget limit exceeded" outcome.usage) .read
      else
        match succeededPatchOrReject ⟨summary, structuredArtifacts inv summary, outcome.usage⟩ with
        | .ok result => .succeed result
        | .error incomplete =>
          .fail (failRunning INCOMPLETE_USAGE_ERROR_CODE incomplete.asMessage
            -- A cost without its source is not persisted at all.
            (if incomplete = .costWithoutSource then none else outcome.usage)) .read
    else
      .fail (failRunning "task_failed" (if summary = "" then "task failed" else summary) outcome.usage) .read

/-- What `run_invocation` does with the end of the executor run. -/
def afterJoin (inv : Invocation) : Except JoinError TaskOutcome → RunPc
  | .error (.panic text) =>
    .fail (failRunning EXECUTOR_PANIC_ERROR_CODE ("task executor panicked: " ++ text) none) .read
  | .error (.aborted text) =>
    .fail (failRunning "task_failed" ("task executor terminated unexpectedly: " ++ text) none) .read
  | .ok outcome =>
    if outcome.kind = .cancelled then
      match validateReported outcome.usage with
      | .error _ => .fail invalidUsageFailure .read
      | .ok () =>
        .fail (failRunning "task_failed" "task execution was cancelled" outcome.usage) .read
    else applyTaskOutcome inv outcome

/-- A failure before the executor run. -/
def RunPc.reject (code message : String) : RunPc := .fail (failPreExecution code message) .read

/-- `run_invocation`.  Returning from it drops the slot. -/
def RunPc.step (env : Env) (inv : Invocation) (sh : Shared) : RunPc → TaskPc × Shared
  | .entry =>
    if sh.isCancelled inv.id then (.leave .dropSlot, sh)
    else
      match claimsFromInvocation inv with
      | .error message => (.run (.reject PROJECTION_CONTEXT_MISSING_ERROR_CODE message), sh)
      | .ok _ => (.run (if inv.request.inputRef.isSome then .fetchInput else .initTask), sh)
  | .fetchInput =>
    if sh.isCancelled inv.id && env.cancelWins then (.leave .dropSlot, sh)
    else if env.panics then (.leave .unwind, sh)
    else
      match env.fetched with
      | .error failure => (.run (.reject failure.code failure.message), sh)
      | .ok _ => (.run .initTask, sh)
  | .initTask =>
    if env.panics then (.leave .unwind, sh)
    else
      match env.taskIri with
      | .error error =>
        (.run (.reject TASK_INIT_FAILED_ERROR_CODE ("failed to init task: " ++ error)), sh)
      | .ok taskIri => (.run (.ensureNonempty taskIri), sh)
  | .ensureNonempty taskIri =>
    if env.panics then (.leave .unwind, sh)
    else
      match env.projected with
      | .error message => (.run (.reject PROJECTION_CONTEXT_MISSING_ERROR_CODE message), sh)
      | .ok () => (.run (.recheck taskIri), sh)
  | .recheck taskIri =>
    if sh.isCancelled inv.id then (.leave .dropSlot, sh) else (.run (.enterRunning taskIri), sh)
  | .enterRunning taskIri =>
    match claimsFromInvocation inv with
    | .error _ => (.leave .dropSlot, sh)
    | .ok claims =>
      match sh.transition env claims inv.id none .running { taskIri := some taskIri } with
      | (.error _, sh) => (.leave .dropSlot, sh)
      | (.ok _, sh) => (.run .wakeRunning, sh)
  | .wakeRunning => (.run .spawn, sh.notifyWaiters)
  | .spawn => (.run .executing, { sh with inFlight := inv.id :: sh.inFlight })
  | .executing =>
    match env.join with
    | some join => (.run (afterJoin inv join), { sh with inFlight := sh.inFlight.erase inv.id })
    | none => (.run (if sh.isCancelled inv.id then .unwinding else .executing), sh)
  | .unwinding =>
    match env.join with
    | none => (.run .unwinding, sh)
    | some join =>
      let sh := { sh with inFlight := sh.inFlight.erase inv.id }
      match join with
      -- The real outcome is kept if the run finished anyway.
      | .ok outcome =>
        (.run (if outcome.kind = .cancelled then .readCancelled else afterJoin inv join), sh)
      | .error _ => (.run (afterJoin inv join), sh)
  | .readCancelled =>
    match claimsFromInvocation inv with
    | .error _ => (.leave .dropSlot, sh)
    | .ok claims =>
      match getForClaims claims inv.id sh.records with
      | .error _ => (.run .writeCancelled, sh)
      | .ok current =>
        -- The deadline watcher may have written already.
        if current.state.isTerminal ||
            current.error.any fun e => e.code = DEADLINE_EXCEEDED_ERROR_CODE then
          (.leave .dropSlot, sh)
        else (.run .writeCancelled, sh)
  | .writeCancelled =>
    match claimsFromInvocation inv with
    | .error _ => (.leave .dropSlot, sh)
    | .ok claims =>
      (.leave .dropSlot, (sh.transition env claims inv.id none .cancelled {}).2)
  | .fail failure pc =>
    let (pc, sh) := failure.step env inv sh pc
    (pc.elim (.leave .dropSlot) fun pc => .run (.fail failure pc), sh)
  | .succeed result =>
    match claimsFromInvocation inv with
    | .error _ => (.leave .dropSlot, sh)
    | .ok claims =>
      (.leave .dropSlot, (sh.transition env claims inv.id none .succeeded { result := some result }).2)

/-- `release_now` of the dropped slot, then the rest of the task. -/
def LeavePc.step (inv : Invocation) (sh : Shared) : LeavePc → TaskPc × Shared
  | .dropSlot =>
    let (freed, slots) := sh.slots.release inv.id
    (.leave (if freed then .wakeReleased else .cancelToken), { sh with slots })
  | .wakeReleased => (.leave .cancelToken, sh.notifyWaiters)
  | .cancelToken => (.leave .unregister, sh.cancelToken inv.id)
  | .unregister => (.leave .done, sh.unregister inv.id)
  | .unwind =>
    let (freed, slots) := sh.slots.release inv.id
    (.leave (if freed then .wakeUnwound else .done), { sh with slots })
  | .wakeUnwound => (.leave .done, sh.notifyWaiters)
  | .done => (.leave .done, sh)

/-! ### The deadline watcher -/

inductive WatcherPc
  | waiting
  | read
  | cancelToken
  | fail (pc : FailPc)
  | wake
  | done
  deriving DecidableEq

def deadlineFailure : Failure := failPreExecution DEADLINE_EXCEEDED_ERROR_CODE "deadline exceeded"

/-- `watch_deadline`. -/
def WatcherPc.step (env : Env) (inv : Invocation) (sh : Shared) : WatcherPc → WatcherPc × Shared
  | .waiting =>
    if (sh.shutdown || sh.isCancelled inv.id) && env.cancelWins then (.done, sh)
    else if env.due then (.read, sh)
    else (.waiting, sh)
  | .read =>
    match claimsFromInvocation inv with
    | .error _ => (.done, sh)
    | .ok claims =>
      match getForClaims claims inv.id sh.records with
      | .error _ => (.done, sh)
      | .ok current => if current.state.isTerminal then (.done, sh) else (.cancelToken, sh)
  | .cancelToken => (.fail .read, sh.cancelToken inv.id)
  | .fail pc =>
    let (pc, sh) := deadlineFailure.step env inv sh pc
    (pc.elim .wake .fail, sh)
  | .wake => (.done, sh.notifyWaiters)
  | .done => (.done, sh)

/-! ### The cancel handler -/

inductive CancelAnswer
  | ok (invocation : Invocation)
  | accepted (invocation : Invocation)
  | cancelNotPermitted
  | failed (error : InvocationStoreError)

/-- The status is 200 for `cancelled`, and 202 otherwise. -/
def CancelAnswer.ofInvocation (inv : Invocation) : CancelAnswer :=
  if inv.state = .cancelled then .ok inv else .accepted inv

inductive CancelPc
  | read (attempts : ℕ)
  | write (attempts : ℕ) (target : InvocationState)
  | cancelToken (invocation : Invocation)
  | unregister (invocation : Invocation)
  | done (answer : CancelAnswer)

/-- A request of `cancel_invocation_handler`. -/
structure CancelRequest where
  claims : IsolationClaims
  isDa : Bool
  id : String
  expectedRevision : Option ℕ

/-- `cancel_invocation_handler`: a second attempt covers a state change between the read and the
write. -/
def CancelPc.step (env : Env) (req : CancelRequest) (sh : Shared) : CancelPc → CancelPc × Shared
  | .read attempts =>
    match getForClaims req.claims req.id sh.records with
    | .error e => (.done (.failed e), sh)
    | .ok current =>
      if current.actorId ≠ req.claims.actorId && !req.isDa then (.done .cancelNotPermitted, sh)
      else
        match current.state.cancelTarget with
        | none => (.done (.failed (.illegalTransition current.state .cancelled)), sh)
        | some target => (.write attempts target, sh)
  | .write attempts target =>
    match sh.transition env req.claims req.id req.expectedRevision target {} with
    | (.ok outcome, sh) => (.cancelToken outcome.invocation, sh)
    | (.error (.illegalTransition current next), sh) =>
      (if attempts < 2 then .read (attempts + 1)
        else .done (.failed (.illegalTransition current next)), sh)
    | (.error e, sh) => (.done (.failed e), sh)
  | .cancelToken invocation =>
    (if invocation.state.isTerminal then .unregister invocation
      else .done (.ofInvocation invocation), sh.cancelRegistered req.id)
  | .unregister invocation => (.done (.ofInvocation invocation), sh.unregister req.id)
  | .done answer => (.done answer, sh)

/-! ### Threads -/

/-- A creator is a create handler between the store and its dispatch. -/
inductive Thread
  | creator (inv : Invocation)
  | task (inv : Invocation) (pc : TaskPc)
  | watcher (inv : Invocation) (pc : WatcherPc)
  | cancel (req : CancelRequest) (pc : CancelPc)

/-- One step of a thread. -/
def Thread.step (env : Env) (sh : Shared) : Thread → Move Shared Thread
  | .creator inv => ⟨sh.register inv.id, .task inv .start, []⟩
  | .task inv .start =>
    ⟨sh, .task inv (.admitting .subscribe), if inv.request.deadline.isSome then [.watcher inv .waiting] else []⟩
  | .task inv (.admitting pc) => ⟨(pc.step env inv sh).2, .task inv (pc.step env inv sh).1, []⟩
  | .task inv (.run pc) => ⟨(pc.step env inv sh).2, .task inv (pc.step env inv sh).1, []⟩
  | .task inv (.leave pc) => ⟨(pc.step inv sh).2, .task inv (pc.step inv sh).1, []⟩
  | .watcher inv pc => ⟨(pc.step env inv sh).2, .watcher inv (pc.step env inv sh).1, []⟩
  | .cancel req pc => ⟨(pc.step env req sh).2, .cancel req (pc.step env req sh).1, []⟩

abbrev Bridge := System Shared Thread

/-- `signal`: the `select!` around a task sees the shutdown. -/
inductive Action
  | create (claims : IsolationClaims) (new : NewInvocation) (uuid : String) (now : Instant)
      (persist : Except String Unit)
  | cancel (req : CancelRequest)
  | shutdown
  | signal (i : ℕ)
  | run (i : ℕ) (env : Env)

namespace Bridge

/-- The bridge over an opened store. -/
def opened (limits : InvocationRunningLimits) (records : List Invocation) : Bridge :=
  ⟨⟨records, .new limits, 0, [], [], false, []⟩, []⟩

/-- A create, and its handler if there is something to dispatch. -/
def create (cfg : InvocationStoreConfig) (now : Instant) (persist : Except String Unit)
    (claims : IsolationClaims) (new : NewInvocation) (uuid : String) (m : Bridge) : Bridge :=
  let result := createIdempotentForClaims cfg now uuid persist claims new m.shared.records
  ⟨{ m.shared with records := result.2.getD m.shared.records }, match result.1 with
    | .ok (.created inv) => m.threads ++ [.creator inv]
    | _ => m.threads⟩

/-- The token of a task that sees the shutdown is cancelled. -/
def signal (i : ℕ) (m : Bridge) : Bridge :=
  match m.threads[i]? with
  | some (.task inv _) =>
    if m.shared.shutdown then ⟨m.shared.cancelToken inv.id, m.threads⟩ else m
  | _ => m

def step (cfg : InvocationStoreConfig) (m : Bridge) : Action → Bridge
  | .create claims new uuid now persist => m.create cfg now persist claims new uuid
  | .cancel req => ⟨m.shared, m.threads ++ [.cancel req (.read 1)]⟩
  | .shutdown => ⟨{ m.shared with shutdown := true }, m.threads⟩
  | .signal i => m.signal i
  | .run i env => m.stepAt (Thread.step env) i

/-- The bridge after actions. -/
def run (cfg : InvocationStoreConfig) (m : Bridge) (actions : List Action) : Bridge := actions.foldl (step cfg) m

@[simp] theorem run_nil (cfg : InvocationStoreConfig) (m : Bridge) : run cfg m [] = m := rfl

@[simp] theorem run_cons (cfg : InvocationStoreConfig) (m : Bridge) (a : Action)
    (actions : List Action) : run cfg m (a :: actions) = run cfg (step cfg m a) actions := rfl

theorem run_append (cfg : InvocationStoreConfig) (m : Bridge) (actions later : List Action) :
    run cfg m (actions ++ later) = run cfg (run cfg m actions) later :=
  List.foldl_append

end Bridge

end WildAgentOs.Invocations
