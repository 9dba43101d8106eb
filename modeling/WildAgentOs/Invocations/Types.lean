import WildAgentOs.Isolation
import WildAgentOs.Json.Value

/-!
# Invocations

The records of `invocations_store.rs`, their lifecycle graph, and the errors they persist.  Instants
are nanoseconds since the epoch.  A timestamp is a text with microseconds, of which only the
microseconds are kept (the years 0 to 9999, where texts and microseconds are ordered alike).

* `InvocationState`: `permits`, `permitsWith`, `cancelTarget`;
* `InvocationErrorInfo.new`: scrubbed and cut off;
* `Invocation`, `pushAudit`, `bindsKey`.
-/

namespace WildAgentOs.Invocations

open Json Text

abbrev Instant := ℤ

structure Rfc3339 where
  micros : ℤ
  deriving DecidableEq

/-- `to_rfc3339_opts(Micros)`: nanoseconds below a microsecond are cut off. -/
def toRfc3339 (t : Instant) : Rfc3339 := ⟨t / 1000⟩

/-- `parse_from_rfc3339`. -/
def Rfc3339.instant (s : Rfc3339) : Instant := s.micros * 1000

/-! ### The lifecycle graph -/

inductive InvocationState
  | queued
  | running
  | cancelRequested
  | succeeded
  | failed
  | cancelled
  deriving DecidableEq

def MAX_ERROR_MESSAGE_BYTES : ℕ := 1024

def INTERRUPTED_ERROR_CODE : String := "interrupted"
def DEADLINE_EXCEEDED_ERROR_CODE : String := "deadline_exceeded"
def PROJECTION_CONTEXT_MISSING_ERROR_CODE : String := "projection_context_missing"
def TASK_INIT_FAILED_ERROR_CODE : String := "task_init_failed"
def INPUT_DIGEST_MISMATCH_ERROR_CODE : String := "input_digest_mismatch"
def INPUT_REF_FETCH_FAILED_ERROR_CODE : String := "input_ref_fetch_failed"
def SYSTEM_ACTOR_ID : String := "system"

/-- The text with every occurrence of a needle replaced: `str::replace`. -/
def replaceAll (needle repl : List Char) : ℕ → List Char → List Char
  | 0, s => s
  | _, [] => []
  | fuel + 1, c :: s =>
    match stripStart needle (c :: s) with
    | some rest => repl ++ replaceAll needle repl fuel rest
    | none => c :: replaceAll needle repl fuel s

/-- One needle of `scrub_secret_shaped_text`. -/
def scrubNeedle (s : List Char) (needle : String) : List Char :=
  if needle.toList <:+: s.map Char.toLower then
    let s := replaceAll needle.toList "[redacted]".toList s.length s
    replaceAll (needle.toList.map Char.toUpper) "[redacted]".toList s.length s
  else s

def scrubSecretShapedText (s : String) : String :=
  String.ofList
    (["api_key", "api-key", "secret", "password", "token="].foldl scrubNeedle s.toList)

/-- The longest start of at most so many bytes. -/
def truncateBytes : ℕ → List Char → List Char
  | _, [] => []
  | max, c :: s => if c.utf8Size ≤ max then c :: truncateBytes (max - c.utf8Size) s else []

structure InvocationErrorInfo where
  code : String
  message : String
  deriving DecidableEq

def InvocationErrorInfo.new (code message : String) : InvocationErrorInfo where
  code
  message := String.ofList
    (truncateBytes MAX_ERROR_MESSAGE_BYTES (scrubSecretShapedText message).toList)

@[simp] theorem InvocationErrorInfo.new_code (code message : String) :
    (InvocationErrorInfo.new code message).code = code := rfl

namespace InvocationState

def isTerminal : InvocationState → Bool
  | succeeded | failed | cancelled => true
  | queued | running | cancelRequested => false

def permits : InvocationState → InvocationState → Bool
  | queued, running | queued, cancelled => true
  | running, succeeded | running, failed | running, cancelRequested => true
  | cancelRequested, cancelled | cancelRequested, succeeded | cancelRequested, failed => true
  | _, _ => false

/-- The codes of failures before execution. -/
def preExecutionCodes : List String :=
  [DEADLINE_EXCEEDED_ERROR_CODE, PROJECTION_CONTEXT_MISSING_ERROR_CODE, TASK_INIT_FAILED_ERROR_CODE,
    INPUT_DIGEST_MISMATCH_ERROR_CODE, INPUT_REF_FETCH_FAILED_ERROR_CODE]

/-- `permits_with`: a queued invocation fails only with a code of its own. -/
def permitsWith (self next : InvocationState) (error : Option InvocationErrorInfo) : Bool :=
  self.permits next ||
    (self = queued && next = failed && error.any fun e => preExecutionCodes.contains e.code)

def cancelTarget : InvocationState → Option InvocationState
  | queued => some cancelled
  | running | cancelRequested => some cancelRequested
  | cancelled => some cancelled
  | succeeded | failed => none

theorem not_isTerminal_of_permits {self next : InvocationState} (h : self.permits next = true) :
    self.isTerminal = false := by
  cases self <;> cases next <;> first | rfl | cases h

end InvocationState

/-! ### Requests, results and records -/

structure InvocationInputRef where
  uri : String
  sha256 : String
  deriving DecidableEq

structure InvocationBudget where
  maxTokens : Option UInt64
  maxToolCalls : Option UInt64
  maxCost : Option UInt64
  deriving DecidableEq

/-- The deadline is a text as the caller sent it. -/
structure InvocationRequest where
  prompt : Option String
  agentId : Option String
  agentRevision : Option String
  input : Option Value
  inputRef : Option InvocationInputRef
  budget : Option InvocationBudget
  deadline : Option String
  metadata : List (String × Value)

inductive CostSource
  | gateway
  | configPriceTable
  deriving DecidableEq

structure InvocationToolCallUsage where
  name : String
  transport : Option String
  deriving DecidableEq

structure InvocationUsage where
  provider : Option String
  model : Option String
  inputTokens : Option UInt64
  outputTokens : Option UInt64
  cost : Option UInt64
  costSource : Option CostSource
  toolCalls : Option (List InvocationToolCallUsage)
  deriving DecidableEq

structure InvocationResult where
  summary : String
  artifacts : List Value
  usage : Option InvocationUsage

structure InvocationAuditEvent where
  atTime : Rfc3339
  fromState : Option InvocationState
  toState : InvocationState
  revision : ℕ
  actorId : String
  deriving DecidableEq

structure IdempotencyBinding where
  fingerprint : String
  expiresAt : Rfc3339
  deriving DecidableEq

/-- `is_live`: strictly before `expires_at`. -/
def IdempotencyBinding.isLive (b : IdempotencyBinding) (now : Instant) : Bool := now < b.expiresAt.instant

/-- A record.  The agent definition is kept as the JSON it is persisted as; `object` is the same
for all. -/
structure Invocation where
  id : String
  tenantId : String
  projectId : String
  actorId : String
  state : InvocationState
  revision : ℕ
  request : InvocationRequest
  agentDefinition : Option Value
  taskIri : Option String
  result : Option InvocationResult
  error : Option InvocationErrorInfo
  idempotencyKey : Option String
  idempotency : Option IdempotencyBinding
  createdAt : Rfc3339
  updatedAt : Rfc3339
  startedAt : Option Rfc3339
  completedAt : Option Rfc3339
  auditEvents : List InvocationAuditEvent

def MAX_AUDIT_EVENTS : ℕ := 32

/-- `u64::saturating_add(1)`. -/
def saturatingSucc (n : ℕ) : ℕ := if n + 1 < 2 ^ 64 then n + 1 else n

namespace Invocation

def isInScope (r : Invocation) (claims : IsolationClaims) : Bool :=
  r.tenantId = claims.tenantId && r.projectId = claims.projectId

/-- `push_audit`: the oldest events go. -/
def pushAudit (r : Invocation) (event : InvocationAuditEvent) : Invocation :=
  let events := r.auditEvents ++ [event]
  { r with auditEvents := events.drop (events.length - MAX_AUDIT_EVENTS) }

def bindsKey (r : Invocation) (claims : IsolationClaims) (key : String) (now : Instant) : Bool :=
  r.isInScope claims && r.actorId = claims.actorId && r.idempotencyKey = some key &&
    r.idempotency.any (·.isLive now)

end Invocation

end WildAgentOs.Invocations
