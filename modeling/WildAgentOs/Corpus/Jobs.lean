import WildAgentOs.Isolation

/-!
# Corpus jobs

`api/http/corpus_jobs.rs`: the jobs of one store and what is done to them under its lock.  Each function is given
its time, and whether the jobs could be saved.

* `OnlineCorpusJob`, `OnlineCorpusJobState.permits`, `sanitizeMetadata`, `classifyJobError`;
* `enqueueOnlineCorpusJob`, `transitionJobForClaims`, `recordJobLinksForClaims`;
* `enqueue_cases`, `transition_cases`, `recordLinks_cases`: what each does to the store.
-/

namespace WildAgentOs.Corpus

open Text List

structure CorpusSource where
  id : String
  version : String
  uri : Option String
  deriving DecidableEq

structure CreateOnlineCorpusJobRequest where
  source : CorpusSource
  idempotencyKey : Option String
  watcherId : Option String
  deriving DecidableEq

inductive OnlineCorpusJobState
  | queued
  | running
  | awaitingReview
  | succeeded
  | failed
  | cancelled
  deriving DecidableEq

namespace OnlineCorpusJobState

def isTerminal : OnlineCorpusJobState → Bool
  | succeeded | failed | cancelled => true
  | queued | running | awaitingReview => false

def permits : OnlineCorpusJobState → OnlineCorpusJobState → Bool
  | queued, running | queued, cancelled => true
  | running, queued | running, awaitingReview | running, succeeded | running, failed | running, cancelled => true
  | awaitingReview, succeeded | awaitingReview, failed | awaitingReview, cancelled => true
  | _, _ => false

end OnlineCorpusJobState

inductive CorpusJobErrorClassification
  | transient
  | validation
  | authorization
  | policy
  | internal
  deriving DecidableEq

structure CorpusJobAttemptSummary where
  attempts : ℕ
  retries : ℕ
  maxAttempts : ℕ
  latestError : Option String
  latestErrorClassification : Option CorpusJobErrorClassification
  deriving DecidableEq

structure CorpusJobAuditEvent where
  timestamp : String
  event : String
  attempt : ℕ
  errorClassification : Option CorpusJobErrorClassification
  detail : Option String
  deriving DecidableEq

structure CorpusJobLinks where
  sourceContentSha256 : Option String
  extractor : Option String
  model : Option String
  canonicalizationDecisionCount : ℕ
  qualityGateReportPersisted : Bool
  stagedExtractionIds : List String
  reviewIds : List String
  entityResolutionSuggestionIds : List String
  deriving DecidableEq

def CorpusJobLinks.default : CorpusJobLinks := ⟨none, none, none, 0, false, [], [], []⟩

structure OnlineCorpusJob where
  id : String
  source : CorpusSource
  idempotencyKey : Option String
  requestId : String
  tenantId : String
  projectId : String
  actorId : String
  state : OnlineCorpusJobState
  createdAt : String
  updatedAt : String
  startedAt : Option String
  completedAt : Option String
  attemptSummary : CorpusJobAttemptSummary
  links : CorpusJobLinks
  auditEvents : List CorpusJobAuditEvent
  deriving DecidableEq

inductive JobTransitionError
  | notFound
  | illegalTransition
  | persistence (message : String)
  deriving DecidableEq

def maxErrorMetadataBytes : ℕ := 1024

def maxAuditEvents : ℕ := 64

def maxRetryAttempts : ℕ := 3

/-! ### Metadata and errors -/

/-- The number of bytes of a text. -/
def byteLength (s : List Char) : ℕ := (s.map Char.utf8Size).sum

/-- As many whole characters as fit into some bytes. -/
def takeBytes : ℕ → List Char → List Char
  | _, [] => []
  | n, c :: s => if c.utf8Size ≤ n then c :: takeBytes (n - c.utf8Size) s else []

def boundedErrorMetadata (error : List Char) : List Char :=
  if byteLength error ≤ maxErrorMetadataBytes then error
  else takeBytes maxErrorMetadataBytes error ++ ['…']

/-- There is an `@` behind the first `://`. -/
def hasCredentials : List Char → Bool
  | [] => false
  | c :: s => if "://".toList <+: c :: s then (s.drop 2).contains '@' else hasCredentials s

/-- What is shown of a word. -/
def redactPart (part : List Char) : List Char :=
  if hasCredentials part then "<redacted-url>".toList
  else if "token=".toList <:+: part ∨ "api_key=".toList <:+: part ∨ "password=".toList <:+: part then
    "<redacted>".toList
  else part

/-- `sanitize_metadata`: the line breaks go with the other white space between the words. -/
def sanitizeMetadata (value : String) : String :=
  let parts := (value.toList.splitOnP isWhitespace).filter (· ≠ [])
  String.ofList (boundedErrorMetadata (List.intercalate [' '] (parts.map redactPart)))

def classifyJobError (error : String) : CorpusJobErrorClassification :=
  let starts (pre : String) : Bool := decide (pre.toList <+: error.toList)
  let contains (part : String) : Bool := decide (part.toList <:+: error.toList)
  if starts "entity resolution requires AGENTOS_KG_GLINKER_COMMAND" || starts "start entity-resolution sidecar" ||
      starts "wait for entity-resolution sidecar" || starts "entity-resolution sidecar failed" then .transient
  else if contains "quality gate blocked" || contains "canonicalization ambiguity" ||
      contains "entity resolution uncertain" then .policy
  else if contains "required" || contains "must be" || contains "invalid" then .validation
  else if contains "unauthorized" || contains "verified JWT" then .authorization
  else .internal

def isRetryable (classification : CorpusJobErrorClassification) : Bool := decide (classification = .transient)

/-- `saturating_add(1)` on `u32`. -/
def saturatingSucc (n : ℕ) : ℕ := min (n + 1) (2 ^ 32 - 1)

def appendAuditEvent (now : String) (job : OnlineCorpusJob) (event : String) (detail : Option String)
    (errorClassification : Option CorpusJobErrorClassification) : OnlineCorpusJob :=
  let events := job.auditEvents ++
    [⟨now, event, job.attemptSummary.attempts, errorClassification, detail.map sanitizeMetadata⟩]
  { job with auditEvents := events.drop (events.length - maxAuditEvents) }

/-! ### The store -/

def jobIsInScope (job : OnlineCorpusJob) (claims : IsolationClaims) : Prop :=
  job.tenantId = claims.tenantId ∧ job.projectId = claims.projectId

instance (job : OnlineCorpusJob) (claims : IsolationClaims) : Decidable (jobIsInScope job claims) :=
  inferInstanceAs (Decidable (_ ∧ _))

/-- The job of an identifier, in scope. -/
def isJob (claims : IsolationClaims) (jobId : String) (job : OnlineCorpusJob) : Bool :=
  decide (job.id = jobId ∧ jobIsInScope job claims)

def findJob (jobs : List OnlineCorpusJob) (claims : IsolationClaims) (jobId : String) : Option OnlineCorpusJob :=
  jobs.find? (isJob claims jobId)

/-- The first job that is picked is replaced. -/
def replaceFirst (pick : OnlineCorpusJob → Bool) (job : OnlineCorpusJob) : List OnlineCorpusJob → List OnlineCorpusJob
  | [] => []
  | old :: jobs => if pick old then job :: jobs else old :: replaceFirst pick job jobs

def validNonempty (value field : String) : Except String Unit :=
  if trim value.toList = [] then .error (field ++ " is required")
  else if 512 < byteLength value.toList then .error (field ++ " exceeds 512 characters")
  else .ok ()

def validateCreateRequest (request : CreateOnlineCorpusJobRequest) : Except String Unit := do
  validNonempty request.source.id "source.id"
  validNonempty request.source.version "source.version"
  if request.source.uri.any fun uri => decide (2048 < byteLength uri.toList) || hasCredentials uri.toList then
    throw "source.uri exceeds 2048 characters or includes credentials"
  match request.idempotencyKey with
  | some key => validNonempty key "idempotency_key"
  | none => return ()

/-- The job of a request that is accepted. -/
def newJob (now id requestId : String) (claims : IsolationClaims) (request : CreateOnlineCorpusJobRequest) :
    OnlineCorpusJob where
  id
  source := request.source
  idempotencyKey := request.idempotencyKey
  requestId
  tenantId := claims.tenantId
  projectId := claims.projectId
  actorId := claims.actorId
  state := .queued
  createdAt := now
  updatedAt := now
  startedAt := none
  completedAt := none
  attemptSummary := ⟨0, 0, maxRetryAttempts, none, none⟩
  links := .default
  auditEvents :=
    [{ timestamp := now
       event := if request.watcherId.isSome then "watcher_enqueued" else "queued"
       attempt := 0
       errorClassification := none
       detail := (request.watcherId.map fun watcherId =>
         "watcher_id=" ++ watcherId ++ "; cursor=source_version").or (some "job accepted") }]

/-- `enqueue_online_corpus_job`: the job, and whether it is reused. -/
def enqueueOnlineCorpusJob (now id requestId : String) (saved : Except String Unit) (jobs : List OnlineCorpusJob)
    (claims : IsolationClaims) (request : CreateOnlineCorpusJobRequest) :
    List OnlineCorpusJob × Except String (OnlineCorpusJob × Bool) :=
  match validateCreateRequest request with
  | .error e => (jobs, .error e)
  | .ok () =>
    let existing := request.idempotencyKey.bind fun key =>
      jobs.find? fun job => jobIsInScope job claims ∧ job.idempotencyKey = some key
    match existing with
    | some existing =>
      if existing.source = request.source then (jobs, .ok (existing, true))
      else (jobs, .error "idempotency_key is already bound to another source in this scope")
    | none =>
      let job := newJob now id requestId claims request
      match saved with
      | .error e => (jobs, .error e)
      | .ok () => (jobs ++ [job], .ok (job, false))

/-- The name of the audit event of a transition. -/
def transitionEvent (next : OnlineCorpusJobState) (latestError : Option String) : String :=
  match next with
  | .queued => if latestError.isSome then "retry_queued" else "queued"
  | .running => "running"
  | .awaitingReview => "awaiting_review"
  | .succeeded => "succeeded"
  | .failed => "failed"
  | .cancelled => "cancelled"

/-- The job after a transition. -/
def transitioned (now : String) (job : OnlineCorpusJob) (next : OnlineCorpusJobState) (latestError : Option String) :
    OnlineCorpusJob :=
  let summary := job.attemptSummary
  let job := { job with
    state := next
    updatedAt := now
    startedAt := if next = .running then some now else job.startedAt
    completedAt := if next.isTerminal then some now else job.completedAt
    attemptSummary := { summary with
      attempts := if next = .running then saturatingSucc summary.attempts else summary.attempts
      retries := if next = .queued ∧ latestError.isSome then saturatingSucc summary.retries else summary.retries
      latestError := latestError.map sanitizeMetadata
      latestErrorClassification := latestError.map classifyJobError } }
  appendAuditEvent now job (transitionEvent next latestError) latestError (latestError.map classifyJobError)

def transitionJobForClaims (now : String) (saved : Except String Unit) (jobs : List OnlineCorpusJob)
    (claims : IsolationClaims) (jobId : String) (next : OnlineCorpusJobState) (latestError : Option String) :
    List OnlineCorpusJob × Except JobTransitionError OnlineCorpusJob :=
  match findJob jobs claims jobId with
  | none => (jobs, .error .notFound)
  | some job =>
    if job.state.isTerminal ∨ job.state.permits next = false then (jobs, .error .illegalTransition)
    else
      let updated := transitioned now job next latestError
      match saved with
      | .error e => (jobs, .error (.persistence e))
      | .ok () => (replaceFirst (isJob claims jobId) updated jobs, .ok updated)

/-- The job with its links. -/
def linked (now : String) (job : OnlineCorpusJob) (links : CorpusJobLinks) : OnlineCorpusJob :=
  appendAuditEvent now { job with links, updatedAt := now } "provenance_recorded"
    (some "canonicalization, quality gate, ER suggestions, and staging linked") none

def recordJobLinksForClaims (now : String) (saved : Except String Unit) (jobs : List OnlineCorpusJob)
    (claims : IsolationClaims) (jobId : String) (links : CorpusJobLinks) :
    List OnlineCorpusJob × Except JobTransitionError Unit :=
  match findJob jobs claims jobId with
  | none => (jobs, .error .notFound)
  | some job =>
    match saved with
    | .error e => (jobs, .error (.persistence e))
    | .ok () => (replaceFirst (isJob claims jobId) (linked now job links) jobs, .ok ())

/-! ### What is done to the store -/

section

variable {now id requestId : String} {saved : Except String Unit} {jobs : List OnlineCorpusJob}
  {claims : IsolationClaims} {jobId : String}

variable {job : OnlineCorpusJob}

theorem isJob_iff : isJob claims jobId job = true ↔ job.id = jobId ∧ jobIsInScope job claims := by
  unfold isJob
  rw [decide_eq_true_iff]

theorem findJob_eq_some (h : findJob jobs claims jobId = some job) :
    job ∈ jobs ∧ job.id = jobId ∧ jobIsInScope job claims :=
  ⟨mem_of_find?_eq_some h, isJob_iff.1 (find?_some h)⟩

theorem map_id_replaceFirst {pick : OnlineCorpusJob → Bool} {job' : OnlineCorpusJob}
    (hpick : ∀ job ∈ jobs, pick job = true → job.id = job'.id) :
    (replaceFirst pick job' jobs).map (·.id) = jobs.map (·.id) := by
  induction jobs with
  | nil => rfl
  | cons old jobs ih =>
    unfold replaceFirst
    split_ifs with hold
    · rw [map_cons, map_cons, hpick old mem_cons_self hold]
    · rw [map_cons, map_cons, ih fun job hjob => hpick job (mem_cons_of_mem _ hjob)]

/-- Where no two jobs have one identifier, one job is replaced and the others stay. -/
theorem mem_replaceFirst {job job' : OnlineCorpusJob} (hnodup : (jobs.map (·.id)).Nodup)
    (hfind : findJob jobs claims jobId = some job) {other : OnlineCorpusJob} :
    other ∈ replaceFirst (isJob claims jobId) job' jobs ↔ other = job' ∨ other ∈ jobs ∧ other.id ≠ jobId := by
  unfold findJob at hfind
  induction jobs with
  | nil => exact (nomatch hfind)
  | cons old jobs ih =>
    rw [map_cons, nodup_cons] at hnodup
    unfold replaceFirst
    by_cases hold : isJob claims jobId old = true
    · have hid := (isJob_iff.1 hold).1
      have hne : ∀ other ∈ jobs, other.id ≠ jobId := fun other hother heq =>
        hnodup.1 (hid.trans heq.symm ▸ mem_map_of_mem hother)
      rw [if_pos hold, mem_cons, mem_cons]
      constructor
      · rintro (rfl | hother)
        · exact .inl rfl
        · exact .inr ⟨.inr hother, hne other hother⟩
      · rintro (rfl | ⟨rfl | hother, hother'⟩)
        · exact .inl rfl
        · exact absurd hid hother'
        · exact .inr hother
    · rw [find?_cons_of_neg hold] at hfind
      rw [if_neg hold, mem_cons, ih hnodup.2 hfind, mem_cons]
      have hjob := findJob_eq_some hfind
      have hidne : old.id ≠ jobId := by
        rintro rfl
        exact hnodup.1 (hjob.2.1 ▸ mem_map_of_mem hjob.1)
      constructor
      · rintro (rfl | rfl | ⟨hother, hne⟩)
        · exact .inr ⟨.inl rfl, hidne⟩
        · exact .inl rfl
        · exact .inr ⟨.inr hother, hne⟩
      · rintro (rfl | ⟨rfl | hother, hne⟩)
        · exact .inr (.inl rfl)
        · exact .inl rfl
        · exact .inr (.inr ⟨hother, hne⟩)

variable {jobs' : List OnlineCorpusJob}

theorem enqueue_cases {request : CreateOnlineCorpusJobRequest} {answer : Except String (OnlineCorpusJob × Bool)}
    (h : enqueueOnlineCorpusJob now id requestId saved jobs claims request = (jobs', answer)) :
    (jobs' = jobs ∧ ∀ job reused, answer = .ok (job, reused) → jobIsInScope job claims) ∨
      jobs' = jobs ++ [newJob now id requestId claims request] ∧
        answer = .ok (newJob now id requestId claims request, false) := by
  unfold enqueueOnlineCorpusJob at h
  split at h
  next =>
    cases h
    exact .inl ⟨rfl, fun _ _ heq => (nomatch heq)⟩
  next =>
    simp only at h
    split at h
    next existing hexisting =>
      split_ifs at h
      · cases h
        refine .inl ⟨rfl, ?_⟩
        rintro job reused ⟨⟩
        obtain ⟨key, -, hfind⟩ := Option.bind_eq_some_iff.1 hexisting
        have hpicked := find?_some hfind
        rw [decide_eq_true_iff] at hpicked
        exact hpicked.1
      · cases h
        exact .inl ⟨rfl, fun _ _ heq => (nomatch heq)⟩
    next =>
      split at h
      next =>
        cases h
        exact .inl ⟨rfl, fun _ _ heq => (nomatch heq)⟩
      next =>
        cases h
        exact .inr ⟨rfl, rfl⟩

theorem transition_cases {next : OnlineCorpusJobState} {latestError : Option String}
    {answer : Except JobTransitionError OnlineCorpusJob}
    (h : transitionJobForClaims now saved jobs claims jobId next latestError = (jobs', answer)) :
    (jobs' = jobs ∧ ∃ e, answer = .error e) ∨
      saved = .ok () ∧
        ∃ job, findJob jobs claims jobId = some job ∧ job.state.isTerminal = false ∧ job.state.permits next = true ∧
          answer = .ok (transitioned now job next latestError) ∧
          jobs' = replaceFirst (isJob claims jobId) (transitioned now job next latestError) jobs := by
  unfold transitionJobForClaims at h
  split at h
  next =>
    cases h
    exact .inl ⟨rfl, _, rfl⟩
  next job hfind =>
    split_ifs at h with hillegal
    · cases h
      exact .inl ⟨rfl, _, rfl⟩
    · rw [not_or, Bool.not_eq_true, Bool.not_eq_false] at hillegal
      simp only at h
      split at h
      next =>
        cases h
        exact .inl ⟨rfl, _, rfl⟩
      next =>
        cases h
        exact .inr ⟨rfl, job, hfind, hillegal.1, hillegal.2, rfl, rfl⟩

theorem recordLinks_cases {links : CorpusJobLinks} {answer : Except JobTransitionError Unit}
    (h : recordJobLinksForClaims now saved jobs claims jobId links = (jobs', answer)) :
    (jobs' = jobs ∧ ∃ e, answer = .error e) ∨
      saved = .ok () ∧ ∃ job, findJob jobs claims jobId = some job ∧ answer = .ok () ∧
        jobs' = replaceFirst (isJob claims jobId) (linked now job links) jobs := by
  unfold recordJobLinksForClaims at h
  split at h
  next =>
    cases h
    exact .inl ⟨rfl, _, rfl⟩
  next job hfind =>
    split at h
    next =>
      cases h
      exact .inl ⟨rfl, _, rfl⟩
    next =>
      cases h
      exact .inr ⟨rfl, job, hfind, rfl, rfl⟩

end

end WildAgentOs.Corpus
