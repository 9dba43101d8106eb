import WildAgentOs.Invocations.Usage
import WildAgentOs.Lib.ListPass

/-!
# The invocation store

`InvocationStore`: the configuration, the operations on the records, and a server that runs them
with its file.  A write persists a snapshot and then publishes it; whether it can be persisted is
given.  The in-flight reservations are left out: they hold no records.

* `InvocationStoreConfig.tryFromVars`;
* `createIdempotentForClaims`, `transitionOutcomeForClaims`, `sweepExpiredAt`, `openWithConfig`;
* `getForClaims`, `listForClaims`, `findIdempotentAt`, `oldestQueuedInScopeExcluding`, `Server.step`, `Server.run`.
-/

namespace WildAgentOs.Invocations

open Json Text ListPass

/-! ### Configuration -/

/-- Durations in nanoseconds. -/
def hours (n : ℕ) : ℤ := n * 3600000000000

def days (n : ℕ) : ℤ := hours (n * 24)

def DEFAULT_RETENTION_DAYS : ℕ := 7
def DEFAULT_MAX_ACTIVE_PER_SCOPE : ℕ := 32
def DEFAULT_IDEMPOTENCY_TTL_HOURS : ℕ := 24
def MAX_STORED_INVOCATIONS : ℕ := 10000
def RETENTION_DAYS_ENV : String := "AGENTOS_INVOCATION_RETENTION_DAYS"
def MAX_ACTIVE_ENV : String := "AGENTOS_INVOCATION_MAX_ACTIVE"
def IDEMPOTENCY_TTL_ENV : String := "AGENTOS_INVOCATION_IDEMPOTENCY_TTL_HOURS"

structure InvocationStoreConfig where
  retention : ℤ
  maxActivePerScope : ℕ
  idempotencyTtl : ℤ
  deriving DecidableEq

/-- The two messages, with the values they name. -/
inductive InvocationConfigError
  | notWholeHours (raw : String)
  | ttlExceedsRetention (ttlHours retentionDays maxTtlHours : ℕ)
  deriving DecidableEq

/-- `parse::<u64>` of a trimmed text. -/
def parseU64 (raw : String) : Option ℕ :=
  let s := trim raw.toList
  let digits := if s.head? = some '+' then s.tail else s
  if digits ≠ [] ∧ digits.all Char.isDigit then
    some (digits.foldl (fun n c => 10 * n + (c.toNat - 48)) 0) |>.filter (· < 2 ^ 64)
  else none

namespace InvocationStoreConfig

/-- The closure `positive` of `try_from_vars`. -/
def positive (lookup : String → Option String) (key : String) : Option ℕ := ((lookup key).bind parseU64).filter (1 ≤ ·)

def retentionDays (lookup : String → Option String) : ℕ :=
  match positive lookup RETENTION_DAYS_ENV with
  | some days => min days 36500
  | none => DEFAULT_RETENTION_DAYS

def tryFromVars (lookup : String → Option String) :
    Except InvocationConfigError InvocationStoreConfig :=
  let ttl : Except InvocationConfigError ℕ :=
    match lookup IDEMPOTENCY_TTL_ENV with
    | none => .ok DEFAULT_IDEMPOTENCY_TTL_HOURS
    | some raw =>
      match (parseU64 raw).filter (1 ≤ ·) with
      | some hours => .ok hours
      | none => .error (.notWholeHours raw)
  match ttl with
  | .error e => .error e
  | .ok ttlHours =>
    let retentionDays := retentionDays lookup
    if retentionDays * 24 < ttlHours then
      .error (.ttlExceedsRetention ttlHours retentionDays (retentionDays * 24))
    else
      .ok {
        retention := days retentionDays
        maxActivePerScope := (positive lookup MAX_ACTIVE_ENV).getD DEFAULT_MAX_ACTIVE_PER_SCOPE
        idempotencyTtl := hours ttlHours }

/-- What an accepted configuration promises: whole hours, not beyond the retention. -/
structure Accepted (cfg : InvocationStoreConfig) : Prop where
  ttl_le : cfg.idempotencyTtl ≤ cfg.retention
  ttl_hours : ∃ n : ℕ, cfg.idempotencyTtl = hours n
  retention_hours : ∃ n : ℕ, cfg.retention = hours n

theorem accepted_of_tryFromVars {lookup : String → Option String} {cfg : InvocationStoreConfig}
    (h : tryFromVars lookup = .ok cfg) : cfg.Accepted := by
  unfold tryFromVars at h
  simp only at h
  split at h
  next => cases h
  next ttlHours _ =>
    split_ifs at h with hle
    cases h
    refine ⟨?_, ⟨_, rfl⟩, ⟨_, rfl⟩⟩
    unfold days hours
    have hle' : (ttlHours : ℤ) ≤ (retentionDays lookup * 24 : ℕ) := by exact_mod_cast not_lt.1 hle
    linarith

end InvocationStoreConfig

/-! ### Requests and answers -/

structure IdempotencyRegistration where
  key : String
  fingerprint : String
  deriving DecidableEq

structure NewInvocation where
  request : InvocationRequest
  agentDefinition : Option Value
  taskIri : Option String
  idempotency : Option IdempotencyRegistration

inductive CreateOutcome
  | created (invocation : Invocation)
  | replayed (invocation : Invocation)

inductive IdempotencyLookup
  | miss
  | replay (invocation : Invocation)
  | conflict

structure TransitionOutcome where
  invocation : Invocation
  changed : Bool

structure TransitionPatch where
  result : Option InvocationResult := none
  error : Option InvocationErrorInfo := none
  taskIri : Option String := none

inductive InvocationStoreError
  | notFound
  | revisionConflict (current : ℕ)
  | illegalTransition (source target : InvocationState)
  | storeFull
  | tooManyActive
  | persistence (message : String)
  | idempotencyKeyConflict
  | invalidUsage (message : String)
  deriving DecidableEq

structure RecoveryReport where
  loaded : ℕ
  interrupted : ℕ
  swept : ℕ
  idempotencyExpired : ℕ
  deriving DecidableEq

/-! ### Retention -/

/-- A record that a sweep keeps. -/
def isKept (retention : ℤ) (now : Instant) (r : Invocation) : Bool :=
  !r.state.isTerminal || decide (now - retention < (r.completedAt.getD r.updatedAt).instant)

def sweepExpiredRecords (retention : ℤ) (now : Instant) (records : List Invocation) : List Invocation :=
  records.filter (isKept retention now)

/-- A record without its binding, if that has expired. -/
def dropExpiredBinding (now : Instant) (r : Invocation) : Invocation :=
  if r.idempotency.any fun b => !b.isLive now then { r with idempotency := none } else r

def dropExpiredBindings (now : Instant) (records : List Invocation) : List Invocation :=
  records.map (dropExpiredBinding now)

/-! ### Writes

An operation answers, and gives the snapshot it has persisted, if it has written one. -/

/-- Persist a snapshot, and answer. -/
def persisting {α : Type} (persist : Except String Unit) (snapshot : List Invocation) (answer : α) :
    Except InvocationStoreError α × Option (List Invocation) :=
  match persist with
  | .ok () => (.ok answer, some snapshot)
  | .error e => (.error (.persistence e), none)

/-- The record that binds a key. -/
def findBound (records : List Invocation) (claims : IsolationClaims) (key : String)
    (now : Instant) : Option Invocation :=
  records.find? fun r => r.bindsKey claims key now

def sameFingerprint (r : Invocation) (fingerprint : String) : Bool :=
  r.idempotency.any fun b => b.fingerprint = fingerprint

/-- The record of a create. -/
def newInvocation (cfg : InvocationStoreConfig) (now : Instant) (uuid : String)
    (claims : IsolationClaims) (new : NewInvocation) : Invocation :=
  Invocation.pushAudit
    { id := "inv_" ++ uuid
      tenantId := claims.tenantId
      projectId := claims.projectId
      actorId := claims.actorId
      state := .queued
      revision := 1
      request := new.request
      agentDefinition := new.agentDefinition
      taskIri := new.taskIri
      result := none
      error := none
      idempotencyKey := new.idempotency.map (·.key)
      idempotency := new.idempotency.map fun registration =>
        { fingerprint := registration.fingerprint
          expiresAt := toRfc3339 (now + cfg.idempotencyTtl) }
      createdAt := toRfc3339 now
      updatedAt := toRfc3339 now
      startedAt := none
      completedAt := none
      auditEvents := [] }
    { atTime := toRfc3339 now
      fromState := none
      toState := .queued
      revision := 1
      actorId := claims.actorId }

/-- The non-terminal records of the scope. -/
def activeInScope (records : List Invocation) (claims : IsolationClaims) : ℕ :=
  (records.filter fun r => !r.state.isTerminal && r.isInScope claims).length

/-- What a create finds out about its key: the record that binds it, and whether that has the same
fingerprint. -/
def boundTo (records : List Invocation) (claims : IsolationClaims) (new : NewInvocation)
    (now : Instant) : Option (Invocation × Bool) :=
  new.idempotency.bind fun registration =>
    (findBound records claims registration.key now).map fun existing =>
      (existing, sameFingerprint existing registration.fingerprint)

def createIdempotentForClaims (cfg : InvocationStoreConfig) (now : Instant) (uuid : String)
    (persist : Except String Unit) (claims : IsolationClaims) (new : NewInvocation)
    (records : List Invocation) :
    Except InvocationStoreError CreateOutcome × Option (List Invocation) :=
  match boundTo records claims new now with
  | some (existing, true) => (.ok (.replayed existing), none)
  | some (_, false) => (.error .idempotencyKeyConflict, none)
  | none =>
    if cfg.maxActivePerScope ≤ activeInScope records claims then (.error .tooManyActive, none)
    else
      let next := dropExpiredBindings now (sweepExpiredRecords cfg.retention now records)
      if MAX_STORED_INVOCATIONS ≤ next.length then (.error .storeFull, none)
      else
        -- One write for record and binding.
        let invocation := newInvocation cfg now uuid claims new
        persisting persist (next ++ [invocation]) (.created invocation)

/-- The record after a transition. -/
def applyTransition (now : Instant) (actorId : String) (next : InvocationState)
    (patch : TransitionPatch) (current : Invocation) : Invocation :=
  let revision := saturatingSucc current.revision
  Invocation.pushAudit
    { current with
      state := next
      revision
      updatedAt := toRfc3339 now
      startedAt :=
        if next = .running ∧ current.startedAt = none then some (toRfc3339 now)
        else current.startedAt
      completedAt := if next.isTerminal then some (toRfc3339 now) else current.completedAt
      result := patch.result.or current.result
      error := (patch.error.map fun e => InvocationErrorInfo.new e.code e.message).or current.error
      taskIri := patch.taskIri.or current.taskIri }
    { atTime := toRfc3339 now
      fromState := some current.state
      toState := next
      revision
      actorId }

/-- The record of an id, if it is in the scope. -/
def selects (claims : IsolationClaims) (id : String) (r : Invocation) : Bool := r.id = id && r.isInScope claims

/-- The usage of a patch. -/
def TransitionPatch.usage (patch : TransitionPatch) : Option InvocationUsage := patch.result.bind (·.usage)

def transitionOutcomeForClaims (now : Instant) (persist : Except String Unit)
    (claims : IsolationClaims) (id : String) (expectedRevision : Option ℕ)
    (next : InvocationState) (patch : TransitionPatch) (records : List Invocation) :
    Except InvocationStoreError TransitionOutcome × Option (List Invocation) :=
  match (patch.usage.map validateUsage).getD (.ok ()) with
  | .error message => (.error (.invalidUsage message), none)
  | .ok () =>
    match records.find? (selects claims id) with
    | none => (.error .notFound, none)
    | some current =>
      -- A repeat is an idempotent success, even with a stale revision.
      if current.state = next then (.ok ⟨current, false⟩, none)
      else if expectedRevision.any (· ≠ current.revision) then
        (.error (.revisionConflict current.revision), none)
      else if current.state.isTerminal || !current.state.permitsWith next patch.error then
        (.error (.illegalTransition current.state next), none)
      else
        let updated := applyTransition now claims.actorId next patch current
        persisting persist (replaceFirst (selects claims id) updated records) ⟨updated, true⟩

def sweepExpiredAt (cfg : InvocationStoreConfig) (now : Instant) (persist : Except String Unit)
    (records : List Invocation) : Except InvocationStoreError ℕ × Option (List Invocation) :=
  let next := sweepExpiredRecords cfg.retention now records
  let swept := records.length - next.length
  if swept = 0 then (.ok 0, none) else persisting persist next swept

/-- A record as it is read back from the file. -/
def Invocation.readBack (r : Invocation) : Invocation :=
  { r with
    result := r.result.map fun result =>
      { result with usage := result.usage.map InvocationUsage.readBack } }

/-- The error of a record that a restart has interrupted. -/
def interruptedError : InvocationErrorInfo :=
  InvocationErrorInfo.new INTERRUPTED_ERROR_CODE
    "the process restarted before the invocation finished"

/-- Restart recovery of an open record. -/
def interruptRecord (now : Instant) (r : Invocation) : Invocation :=
  let revision := saturatingSucc r.revision
  Invocation.pushAudit
    { r with
      state := .failed
      revision
      error := some interruptedError
      updatedAt := toRfc3339 now
      completedAt := some (toRfc3339 now) }
    { atTime := toRfc3339 now
      fromState := some r.state
      toState := .failed
      revision
      actorId := SYSTEM_ACTOR_ID }

/-- Restart recovery. -/
def interrupt (now : Instant) (r : Invocation) : Invocation := if r.state.isTerminal then r else interruptRecord now r

/-- `open_with_config`: the records, and the snapshot that was persisted, if one had to be. -/
def openWithConfig (cfg : InvocationStoreConfig) (now started : Instant)
    (persist : Except String Unit) (file : List Invocation) :
    Except InvocationStoreError (List Invocation × RecoveryReport) × Option (List Invocation) :=
  let loaded := file.map Invocation.readBack
  let recovered := loaded.map (interrupt now)
  let kept := sweepExpiredRecords cfg.retention started recovered
  let records := dropExpiredBindings started kept
  let report : RecoveryReport :=
    { loaded := loaded.length
      interrupted := loaded.countP fun r => !r.state.isTerminal
      swept := recovered.length - kept.length
      idempotencyExpired := kept.countP fun r => r.idempotency.any fun b => !b.isLive started }
  if 0 < report.interrupted ∨ 0 < report.swept ∨ 0 < report.idempotencyExpired then
    persisting persist records (records, report)
  else (.ok (records, report), none)

/-! ### Reads -/

def getForClaims (claims : IsolationClaims) (id : String) (records : List Invocation) :
    Except InvocationStoreError Invocation :=
  match records.find? (selects claims id) with
  | some r => .ok r
  | none => .error .notFound

/-- Newest first, and of one time the greatest id first. -/
def newestFirst (a b : Invocation) : Bool :=
  b.createdAt.micros < a.createdAt.micros ||
    (a.createdAt = b.createdAt && decide (b.id ≤ a.id))

def listForClaims (claims : IsolationClaims) (state : Option InvocationState)
    (records : List Invocation) : List Invocation :=
  (records.filter fun r => r.isInScope claims && state.all (r.state = ·)).mergeSort newestFirst

def findIdempotentAt (claims : IsolationClaims) (key fingerprint : String) (now : Instant)
    (records : List Invocation) : IdempotencyLookup :=
  match findBound records claims key now with
  | none => .miss
  | some existing => if sameFingerprint existing fingerprint then .replay existing else .conflict

/-- By time, then by id. -/
def isOlder (a b : Invocation) : Bool :=
  a.createdAt.micros < b.createdAt.micros || (a.createdAt = b.createdAt && decide (a.id < b.id))

/-- `min_by`: the first of the oldest. -/
def oldest : List Invocation → Option Invocation
  | [] => none
  | r :: records =>
    match oldest records with
    | none => some r
    | some r' => if isOlder r' r then some r' else some r

def oldestQueuedInScopeExcluding (tenantId projectId : String) (exclude : List String)
    (records : List Invocation) : Option Invocation :=
  oldest (records.filter fun r =>
    r.state = .queued && r.tenantId = tenantId && r.projectId = projectId &&
      !exclude.contains r.id)

/-! ### The server -/

inductive Op
  | create (claims : IsolationClaims) (new : NewInvocation) (uuid : String)
  | transition (claims : IsolationClaims) (id : String) (expectedRevision : Option ℕ)
      (next : InvocationState) (patch : TransitionPatch)
  /-- The clock was read before the lock was taken. -/
  | sweep (clock : Instant)
  | get (claims : IsolationClaims) (id : String)
  | list (claims : IsolationClaims) (state : Option InvocationState)
  | find (claims : IsolationClaims) (key fingerprint : String) (clock : Instant)
  /-- The clock is read again for the sweep. -/
  | restart (started : Instant)

/-- An operation with its time, and whether its write succeeds. -/
structure Step where
  op : Op
  now : Instant
  persist : Except String Unit

inductive Outcome
  | create (answer : Except InvocationStoreError CreateOutcome)
  | transition (answer : Except InvocationStoreError TransitionOutcome)
  | sweep (answer : Except InvocationStoreError ℕ)
  | get (answer : Except InvocationStoreError Invocation)
  | list (answer : List Invocation)
  | find (answer : IdempotencyLookup)
  | restart (answer : Except InvocationStoreError RecoveryReport)
  /-- The last restart has failed: there is no store to ask. -/
  | unavailable

/-- The file, and the records of the open store. -/
structure Server where
  file : List Invocation
  records : Option (List Invocation)

namespace Server

/-- No file yet, and no store. -/
def init : Server := ⟨[], none⟩

/-- A snapshot that was persisted is published. -/
def publish (s : Server) : Option (List Invocation) → Server
  | none => s
  | some snapshot => ⟨snapshot, some snapshot⟩

/-- An operation of the open store. -/
def serve {α : Type} (s : Server) (outcome : α → Outcome)
    (op : List Invocation → α × Option (List Invocation)) : Outcome × Server :=
  match s.records with
  | none => (.unavailable, s)
  | some records => (outcome (op records).1, s.publish (op records).2)

/-- `open_with_config` on the file: without a store if it fails. -/
def restart (cfg : InvocationStoreConfig) (now started : Instant) (persist : Except String Unit)
    (s : Server) : Outcome × Server :=
  match openWithConfig cfg now started persist s.file with
  | (.ok (records, report), snapshot) =>
    (.restart (.ok report), ⟨snapshot.getD s.file, some records⟩)
  | (.error e, _) => (.restart (.error e), ⟨s.file, none⟩)

/-- One operation. -/
def step (cfg : InvocationStoreConfig) (s : Server) (st : Step) : Outcome × Server :=
  match st.op with
  | .create claims new uuid =>
    s.serve .create (createIdempotentForClaims cfg st.now uuid st.persist claims new)
  | .transition claims id expectedRevision next patch =>
    s.serve .transition
      (transitionOutcomeForClaims st.now st.persist claims id expectedRevision next patch)
  | .sweep clock => s.serve .sweep (sweepExpiredAt cfg clock st.persist)
  | .get claims id => s.serve .get fun records => (getForClaims claims id records, none)
  | .list claims state => s.serve .list fun records => (listForClaims claims state records, none)
  | .find claims key fingerprint clock =>
    s.serve .find fun records => (findIdempotentAt claims key fingerprint clock records, none)
  | .restart started => s.restart cfg st.now started st.persist

/-- The server after operations. -/
def run (cfg : InvocationStoreConfig) (s : Server) (steps : List Step) : Server :=
  steps.foldl (fun s st => (s.step cfg st).2) s

@[simp] theorem run_nil (cfg : InvocationStoreConfig) (s : Server) : s.run cfg [] = s := rfl

@[simp] theorem run_cons (cfg : InvocationStoreConfig) (s : Server) (st : Step)
    (steps : List Step) : s.run cfg (st :: steps) = (s.step cfg st).2.run cfg steps := rfl

theorem run_append (cfg : InvocationStoreConfig) (s : Server) (steps steps' : List Step) :
    s.run cfg (steps ++ steps') = (s.run cfg steps).run cfg steps' :=
  List.foldl_append

end Server

end WildAgentOs.Invocations
