import WildAgentOs.Corpus.Jobs

/-!
# Corpus jobs under concurrent requests

The requests on one job store, `run_online_corpus_job_handler` as the steps between which its lock is free: the
job is read, goes to running, the primitives run, the links are recorded, the outcome is taken.  What the
primitives answer is given with the step; what the requests say to their clients is left out, but for the jobs that
they show.

* `System`, `Step`, `step`, `Step.Guarded`, `Reachable`, `Lifecycle`, `Respects`, `Change`, `Effect`;
* `step_effect`, where all jobs have different identifiers and the runs have jobs.
-/

namespace WildAgentOs.Corpus

open Text List Function

/-- Where a run stands, between two steps. -/
inductive Phase
  | read
  | executing
  | executed (result : Except String CorpusJobLinks)
  | recorded

def Phase.isActive : Phase → Bool
  | read => false
  | executing | executed _ | recorded => true

/-- A request to run a job, with the job as it was read. -/
structure Run where
  claims : IsolationClaims
  jobId : String
  snapshot : OnlineCorpusJob
  phase : Phase

/-- What has happened to a job. -/
inductive Event
  | started (jobId : String)
  | requeued (jobId : String)
  | recorded (jobId : String)
  | awaiting (jobId : String)
  deriving DecidableEq

def Event.jobId : Event → String
  | started jobId | requeued jobId | recorded jobId | awaiting jobId => jobId

structure System where
  jobs : List OnlineCorpusJob
  runs : ℕ → Option Run
  log : List Event

def System.new : System := ⟨[], fun _ => none, []⟩

inductive Step
  | enqueue (claims : IsolationClaims) (request : CreateOnlineCorpusJobRequest) (now id requestId : String)
      (saved : Except String Unit)
  | read (run : ℕ) (claims : IsolationClaims) (jobId text extractor : String)
  | start (run : ℕ) (now : String) (saved : Except String Unit)
  | execute (run : ℕ) (result : Except String CorpusJobLinks)
  | record (run : ℕ) (now : String) (saved : Except String Unit)
  | finish (run : ℕ) (now : String) (saved : Except String Unit)
  | cancel (claims : IsolationClaims) (jobId now : String) (saved : Except String Unit)
  | list (claims : IsolationClaims)
  | get (claims : IsolationClaims) (jobId : String)

namespace System

variable (s : System)

def endRun (run : ℕ) : System := { s with runs := update s.runs run none }

def goOn (run : ℕ) (r : Run) (phase : Phase) : System :=
  { s with runs := update s.runs run (some { r with phase }) }

/-- The first part of `run_online_corpus_job_handler`. -/
def readJob (run : ℕ) (claims : IsolationClaims) (jobId text extractor : String) : System × List OnlineCorpusJob :=
  if trim text.toList = [] ∨ trim extractor.toList = [] then (s, [])
  else
    match findJob s.jobs claims jobId with
    | none => (s, [])
    | some job =>
      if job.state = .awaitingReview ∧ job.links.reviewIds ≠ [] ∧ job.links.entityResolutionSuggestionIds ≠ [] then
        (s, [job])
      else if job.state.isTerminal ∨ job.state = .awaitingReview then (s, [])
      else ({ s with runs := update s.runs run (some ⟨claims, jobId, job, .read⟩) }, [])

/-- The primitives begin, once a job that was read as queued is running. -/
def startRun (run : ℕ) (r : Run) (now : String) (saved : Except String Unit) : System :=
  let begun (s : System) : System := { s.goOn run r .executing with log := s.log ++ [.started r.jobId] }
  if r.snapshot.state = .queued then
    match transitionJobForClaims now saved s.jobs r.claims r.jobId .running none with
    | (jobs, .error _) => { s with jobs }.endRun run
    | (jobs, .ok _) => begun { s with jobs }
  else begun s

def recordLinks (run : ℕ) (r : Run) (links : CorpusJobLinks) (now : String) (saved : Except String Unit) : System :=
  match recordJobLinksForClaims now saved s.jobs r.claims r.jobId links with
  | (jobs, .error _) => { s with jobs }.endRun run
  | (jobs, .ok ()) => { { s with jobs }.goOn run r .recorded with log := s.log ++ [.recorded r.jobId] }

/-- The job waits for its review. -/
def awaitReview (run : ℕ) (r : Run) (now : String) (saved : Except String Unit) : System × List OnlineCorpusJob :=
  match transitionJobForClaims now saved s.jobs r.claims r.jobId .awaitingReview none with
  | (jobs, .error _) => ({ s with jobs }.endRun run, [])
  | (jobs, .ok job) => ({ { s with jobs }.endRun run with log := s.log ++ [.awaiting r.jobId] }, [job])

/-- Whether a failure is tried again, as far as the job that was read says. -/
def retryable (r : Run) (error : String) : Bool :=
  isRetryable (classifyJobError error) &&
    decide (saturatingSucc r.snapshot.attemptSummary.attempts < maxRetryAttempts)

/-- The job is queued again, or fails. -/
def failRun (run : ℕ) (r : Run) (error now : String) (saved : Except String Unit) : System × List OnlineCorpusJob :=
  let next := if retryable r error then OnlineCorpusJobState.queued else .failed
  match transitionJobForClaims now saved s.jobs r.claims r.jobId next (some error) with
  | (jobs, .error _) => ({ s with jobs }.endRun run, [])
  | (jobs, .ok job) =>
    ({ { s with jobs }.endRun run with
      log := if retryable r error then s.log ++ [.requeued r.jobId] else s.log }, [job])

end System

/-- A step of a request, if it is its turn: the system after it, and the jobs that it shows.  New identifiers are
new. -/
def step (s : System) : Step → Option (System × List OnlineCorpusJob)
  | .enqueue claims request now id requestId saved =>
    if id ∈ s.jobs.map (·.id) then none
    else
      let (jobs, answer) := enqueueOnlineCorpusJob now id requestId saved s.jobs claims request
      some ({ s with jobs }, answer.toOption.toList.map (·.1))
  | .read run claims jobId text extractor =>
    match s.runs run with
    | some _ => none
    | none => some (s.readJob run claims jobId text extractor)
  | .start run now saved =>
    match s.runs run with
    | some r =>
      match r.phase with
      | .read => some (s.startRun run r now saved, [])
      | _ => none
    | none => none
  | .execute run result =>
    match s.runs run with
    | some r =>
      match r.phase with
      | .executing => some (s.goOn run r (.executed result), [])
      | _ => none
    | none => none
  | .record run now saved =>
    match s.runs run with
    | some r =>
      match r.phase with
      | .executed (.ok links) => some (s.recordLinks run r links now saved, [])
      | _ => none
    | none => none
  | .finish run now saved =>
    match s.runs run with
    | some r =>
      match r.phase with
      | .recorded => some (s.awaitReview run r now saved)
      | .executed (.error error) => some (s.failRun run r error now saved)
      | _ => none
    | none => none
  | .cancel claims jobId now saved =>
    let (jobs, answer) := transitionJobForClaims now saved s.jobs claims jobId .cancelled none
    some ({ s with jobs }, answer.toOption.toList)
  | .list claims => some (s, s.jobs.filter fun job => decide (jobIsInScope job claims))
  | .get claims jobId => some (s, (findJob s.jobs claims jobId).toList)

/-- The claims of the request that takes the step. -/
def Step.claims (s : System) : Step → Option IsolationClaims
  | .enqueue claims _ _ _ _ _ | .read _ claims _ _ _ | .cancel claims _ _ _ | .list claims | .get claims _ =>
    some claims
  | .start run _ _ | .execute run _ | .record run _ _ | .finish run _ _ => (s.runs run).map (·.claims)

/-- A run starts with a job that was read as queued; links are recorded for a job that is still running; a job is not
cancelled between that and the wait for its review, which is saved; and it is queued again only before its last
attempt. -/
def Step.Guarded (s : System) : Step → Prop
  | .start run _ _ => ∀ r, s.runs run = some r → r.phase = .read → r.snapshot.state = .queued
  | .record run _ saved => saved = .ok () → ∀ r, s.runs run = some r →
      ∀ job ∈ s.jobs, job.id = r.jobId → job.state = .running
  | .cancel claims jobId _ saved => saved = .ok () → (∃ job ∈ s.jobs, job.id = jobId ∧ jobIsInScope job claims) →
      ∀ run r, s.runs run = some r → r.phase = .recorded → r.jobId ≠ jobId
  | .finish run _ saved => ∀ r, s.runs run = some r → (r.phase = .recorded → saved = .ok ()) ∧
      (saved = .ok () → ∀ error, r.phase = .executed (.error error) → System.retryable r error = true →
        ∀ job ∈ s.jobs, job.id = r.jobId → job.attemptSummary.attempts < maxRetryAttempts)
  | _ => True

inductive Reachable : System → Prop
  | new : Reachable .new
  | step {s s' : System} {st : Step} {shown : List OnlineCorpusJob} (h : Reachable s) (hguarded : st.Guarded s)
      (hstep : step s st = some (s', shown)) : Reachable s'

/-- What holds of the jobs, the runs and what has happened. -/
structure Lifecycle (s : System) : Prop where
  nodup : (s.jobs.map (·.id)).Nodup
  one_run : ∀ run run' r r', s.runs run = some r → s.runs run' = some r' → r.phase = .executing →
    r'.phase = .executing → r.jobId = r'.jobId → run = run'
  attempts : ∀ job ∈ s.jobs, job.attemptSummary.attempts ≤ maxRetryAttempts ∧
    job.attemptSummary.attempts = s.log.count (.started job.id)
  retries : ∀ job ∈ s.jobs, job.attemptSummary.retries = s.log.count (.requeued job.id)
  links : ∀ job ∈ s.jobs, job.links ≠ .default → .recorded job.id ∈ s.log
  /-- A job whose links are recorded has waited for its review, or its run is about to let it wait. -/
  recorded : ∀ job ∈ s.jobs, .recorded job.id ∈ s.log → .awaiting job.id ∈ s.log ∨
    job.state = .running ∧ ∃ run r, s.runs run = some r ∧ r.jobId = job.id ∧ r.phase = .recorded

/-- What holds of a step: the jobs that have ended, and those of other scopes, are as they were, and no job of another
scope is shown; a run that is about to let its job wait does so. -/
structure Respects (s s' : System) (st : Step) (shown : List OnlineCorpusJob) : Prop where
  terminal : ∀ job ∈ s.jobs, job.state.isTerminal = true → job ∈ s'.jobs
  scope : ∀ claims, st.claims s = some claims → ∀ job ∈ s.jobs, ¬jobIsInScope job claims → job ∈ s'.jobs
  shown : ∀ claims, st.claims s = some claims → ∀ job ∈ shown, jobIsInScope job claims
  awaiting : ∀ run r, s.runs run = some r → r.phase = .recorded → (∃ r', s'.runs run = some r' ∧ r'.phase = .recorded) ∨
    ∃ job ∈ s'.jobs, job.id = r.jobId ∧ job.state = .awaitingReview

/-! ### What a step does -/

/-- How a step changes a job, and with it the runs and the log. -/
inductive Change (s : System) (jobId : String) (job : OnlineCorpusJob) :
    OnlineCorpusJob → (ℕ → Option Run) → List Event → Prop
  | started {run : ℕ} {r : Run} {now : String} (hr : s.runs run = some r) (hid : r.jobId = jobId)
      (hqueued : job.state = .queued) :
      Change s jobId job (transitioned now job .running none)
        (update s.runs run (some { r with phase := .executing })) (s.log ++ [.started jobId])
  | recorded {run : ℕ} {r : Run} {now : String} {links : CorpusJobLinks} (hr : s.runs run = some r)
      (hid : r.jobId = jobId) (hphase : r.phase = .executed (.ok links)) (hrunning : job.state = .running) :
      Change s jobId job (linked now job links)
        (update s.runs run (some { r with phase := .recorded })) (s.log ++ [.recorded jobId])
  | awaited {run : ℕ} {r : Run} {now : String} (hr : s.runs run = some r) (hid : r.jobId = jobId)
      (hphase : r.phase = .recorded) :
      Change s jobId job (transitioned now job .awaitingReview none) (update s.runs run none)
        (s.log ++ [.awaiting jobId])
  | requeued {run : ℕ} {r : Run} {now error : String} (hr : s.runs run = some r) (hid : r.jobId = jobId)
      (hphase : r.phase = .executed (.error error)) (hrunning : job.state = .running)
      (hlt : job.attemptSummary.attempts < maxRetryAttempts) :
      Change s jobId job (transitioned now job .queued (some error)) (update s.runs run none)
        (s.log ++ [.requeued jobId])
  | failed {run : ℕ} {r : Run} {now error : String} (hr : s.runs run = some r) (hid : r.jobId = jobId)
      (hphase : r.phase = .executed (.error error)) :
      Change s jobId job (transitioned now job .failed (some error)) (update s.runs run none) s.log
  | cancelled {now : String} (hpending : ∀ run r, s.runs run = some r → r.phase = .recorded → r.jobId ≠ jobId) :
      Change s jobId job (transitioned now job .cancelled none) s.runs s.log

/-- What a step of the claims does. -/
inductive Effect (s : System) (claims : IsolationClaims) : System → List OnlineCorpusJob → Prop
  | quiet {shown : List OnlineCorpusJob} (hshown : ∀ job ∈ shown, jobIsInScope job claims) : Effect s claims s shown
  | enqueued {now id requestId : String} {request : CreateOnlineCorpusJobRequest}
      (hid : id ∉ s.jobs.map (·.id)) :
      Effect s claims { s with jobs := s.jobs ++ [newJob now id requestId claims request] }
        [newJob now id requestId claims request]
  | read {run : ℕ} {r : Run} {job : OnlineCorpusJob} (hrun : s.runs run = none) (hclaims : r.claims = claims)
      (hfind : findJob s.jobs claims r.jobId = some job) (hphase : r.phase = .read) :
      Effect s claims { s with runs := update s.runs run (some r) } []
  | ended {run : ℕ} {r : Run} (hr : s.runs run = some r) (hphase : r.phase ≠ .recorded) :
      Effect s claims (s.endRun run) []
  | executed {run : ℕ} {r : Run} {result : Except String CorpusJobLinks} (hr : s.runs run = some r)
      (hphase : r.phase = .executing) : Effect s claims (s.goOn run r (.executed result)) []
  | changed {jobId : String} {job job' : OnlineCorpusJob} {runs : ℕ → Option Run} {log : List Event}
      {shown : List OnlineCorpusJob} (hfind : findJob s.jobs claims jobId = some job)
      (hopen : job.state.isTerminal = false) (hchange : Change s jobId job job' runs log)
      (hshown : ∀ job ∈ shown, job = job') :
      Effect s claims ⟨replaceFirst (isJob claims jobId) job' s.jobs, runs, log⟩ shown

/-- The jobs have different identifiers, and every run that has recorded links has its job, which is running. -/
structure Owned (s : System) : Prop where
  nodup : (s.jobs.map (·.id)).Nodup
  job : ∀ run r, s.runs run = some r → ∃ job, findJob s.jobs r.claims r.jobId = some job
  running : ∀ run r, s.runs run = some r → r.phase = .recorded → ∀ job ∈ s.jobs, job.id = r.jobId → job.state = .running


section

variable {s : System} {run : ℕ} {r : Run} {now : String} {saved : Except String Unit} {claims : IsolationClaims}

theorem effect_readJob {jobId text extractor : String} (hrun : s.runs run = none) :
    Effect s claims (s.readJob run claims jobId text extractor).1 (s.readJob run claims jobId text extractor).2 := by
  have hnone : ∀ job ∈ ([] : List OnlineCorpusJob), jobIsInScope job claims := fun job hjob => (nomatch hjob)
  unfold System.readJob
  split_ifs with hblank
  · exact .quiet hnone
  · split
    next => exact .quiet hnone
    next job hfind =>
      split_ifs
      · refine .quiet fun job' hjob' => ?_
        rw [mem_singleton.1 hjob']
        exact (findJob_eq_some hfind).2.2
      · exact .quiet hnone
      · exact .read hrun rfl hfind rfl

variable {next : OnlineCorpusJobState} {latestError : Option String} {jobs : List OnlineCorpusJob}

/-- A run ends where its job cannot go on. -/
theorem effect_of_transition_error {e : JobTransitionError} (hr : s.runs run = some r) (hphase : r.phase ≠ .recorded)
    (heq : transitionJobForClaims now saved s.jobs r.claims r.jobId next latestError = (jobs, .error e)) :
    Effect s r.claims ({ s with jobs }.endRun run) [] := by
  obtain ⟨rfl, -⟩ | ⟨-, job, -, -, -, hok, -⟩ := transition_cases heq
  · exact .ended hr hphase
  · exact (nomatch hok)

theorem effect_startRun (hr : s.runs run = some r) (hphase : r.phase = .read) (hqueued : r.snapshot.state = .queued) :
    Effect s r.claims (s.startRun run r now saved) [] := by
  unfold System.startRun
  simp only
  rw [if_pos hqueued]
  split
  next jobs e heq =>
    exact effect_of_transition_error hr (by rw [hphase]; exact (nomatch ·)) heq
  next jobs job' heq =>
    obtain ⟨-, e, he⟩ | ⟨-, job, hfind, hopen, hpermits, -, rfl⟩ := transition_cases heq
    · exact (nomatch he)
    · refine .changed hfind hopen (.started hr rfl ?_) fun job hjob => (nomatch hjob)
      revert hpermits
      cases job.state <;> decide

theorem effect_recordLinks {links : CorpusJobLinks} (hr : s.runs run = some r)
    (hphase : r.phase = .executed (.ok links))
    (hrunning : saved = .ok () → ∀ job ∈ s.jobs, job.id = r.jobId → job.state = .running) :
    Effect s r.claims (s.recordLinks run r links now saved) [] := by
  unfold System.recordLinks
  split
  next jobs e heq =>
    obtain ⟨rfl, -⟩ | ⟨-, job, -, hok, -⟩ := recordLinks_cases heq
    · exact .ended hr (by rw [hphase]; exact (nomatch ·))
    · exact (nomatch hok)
  next jobs heq =>
    obtain ⟨-, e, he⟩ | ⟨hsaved, job, hfind, -, rfl⟩ := recordLinks_cases heq
    · exact (nomatch he)
    · have hjob := findJob_eq_some hfind
      have hstate := hrunning hsaved job hjob.1 hjob.2.1
      exact .changed hfind (by rw [hstate]; rfl) (.recorded hr rfl hphase hstate) fun job hjob => (nomatch hjob)

variable {jobId : String}

theorem transition_eq {job : OnlineCorpusJob} (hfind : findJob jobs claims jobId = some job)
    (hopen : job.state.isTerminal = false) (hpermits : job.state.permits next = true) :
    transitionJobForClaims now (.ok ()) jobs claims jobId next latestError =
      (replaceFirst (isJob claims jobId) (transitioned now job next latestError) jobs,
        .ok (transitioned now job next latestError)) := by
  unfold transitionJobForClaims
  rw [hfind]
  simp only
  rw [if_neg]
  rw [hopen, hpermits]
  decide

theorem effect_awaitReview (h : Owned s) (hr : s.runs run = some r) (hphase : r.phase = .recorded) :
    Effect s r.claims (s.awaitReview run r now (.ok ())).1 (s.awaitReview run r now (.ok ())).2 := by
  obtain ⟨job, hfind⟩ := h.job run r hr
  have hjob := findJob_eq_some hfind
  have hstate := h.running run r hr hphase job hjob.1 hjob.2.1
  have hopen : job.state.isTerminal = false := by rw [hstate]; rfl
  unfold System.awaitReview
  rw [transition_eq hfind hopen (by rw [hstate]; rfl)]
  exact .changed hfind hopen (.awaited hr rfl hphase) fun job' hjob' => mem_singleton.1 hjob'

theorem effect_failRun {error : String} (hr : s.runs run = some r) (hphase : r.phase = .executed (.error error))
    (hlt : saved = .ok () → System.retryable r error = true →
      ∀ job ∈ s.jobs, job.id = r.jobId → job.attemptSummary.attempts < maxRetryAttempts) :
    Effect s r.claims (s.failRun run r error now saved).1 (s.failRun run r error now saved).2 := by
  unfold System.failRun
  simp only
  split
  next jobs e heq =>
    exact effect_of_transition_error hr (by rw [hphase]; exact (nomatch ·)) heq
  next jobs job' heq =>
    obtain ⟨-, e, he⟩ | ⟨hsaved, job, hfind, hopen, hpermits, hok, rfl⟩ := transition_cases heq
    · exact (nomatch he)
    · cases hok
      have hjob := findJob_eq_some hfind
      have hshown : ∀ next, ∀ job' ∈ [transitioned now job next (some error)],
          job' = transitioned now job next (some error) := fun next job' hjob' => mem_singleton.1 hjob'
      by_cases hretry : System.retryable r error = true
      · rw [if_pos hretry] at hpermits ⊢
        rw [if_pos hretry]
        refine .changed hfind hopen (.requeued hr rfl hphase ?_ (hlt hsaved hretry job hjob.1 hjob.2.1)) (hshown _)
        revert hpermits
        cases job.state <;> decide
      · rw [if_neg hretry, if_neg hretry]
        exact .changed hfind hopen (.failed hr rfl hphase) (hshown _)

theorem effect_cancel (hpending : saved = .ok () → (∃ job ∈ s.jobs, job.id = jobId ∧ jobIsInScope job claims) →
      ∀ run r, s.runs run = some r → r.phase = .recorded → r.jobId ≠ jobId) :
    Effect s claims { s with jobs := (transitionJobForClaims now saved s.jobs claims jobId .cancelled none).1 }
      (transitionJobForClaims now saved s.jobs claims jobId .cancelled none).2.toOption.toList := by
  obtain ⟨hjobs, e, he⟩ | ⟨hsaved, job, hfind, hopen, -, hok, hjobs⟩ :=
    transition_cases (Prod.mk.eta (p := transitionJobForClaims now saved s.jobs claims jobId .cancelled none)).symm
  · rw [hjobs, he]
    exact .quiet fun job hjob => (nomatch hjob)
  · rw [hjobs, hok]
    exact .changed hfind hopen (.cancelled (hpending hsaved ⟨job, findJob_eq_some hfind⟩)) fun job' hjob' =>
      mem_singleton.1 hjob'

end

/-- A step does one of these, for the claims of its request. -/
theorem step_effect {s s' : System} {st : Step} {shown : List OnlineCorpusJob} (h : Owned s) (hguarded : st.Guarded s)
    (hstep : step s st = some (s', shown)) : ∃ claims, st.claims s = some claims ∧ Effect s claims s' shown := by
  cases st with
  | enqueue claims request now id requestId saved =>
    refine ⟨claims, rfl, ?_⟩
    unfold step at hstep
    simp only at hstep
    split_ifs at hstep with hid
    cases hstep
    obtain ⟨hjobs, hanswer⟩ | ⟨hjobs, hanswer⟩ := enqueue_cases
      (Prod.mk.eta (p := enqueueOnlineCorpusJob now id requestId saved s.jobs claims request)).symm
    · rw [hjobs]
      refine .quiet fun job hjob => ?_
      obtain ⟨⟨job', reused⟩, hmem, rfl⟩ := mem_map.1 hjob
      rw [Option.mem_toList] at hmem
      cases hok : (enqueueOnlineCorpusJob now id requestId saved s.jobs claims request).2 with
      | error e => rw [hok] at hmem; exact (nomatch hmem)
      | ok answer =>
        rw [hok] at hmem
        cases hmem
        exact hanswer _ _ hok
    · rw [hjobs, hanswer]
      exact .enqueued hid
  | read run claims jobId text extractor =>
    refine ⟨claims, rfl, ?_⟩
    unfold step at hstep
    simp only at hstep
    split at hstep
    next => exact (nomatch hstep)
    next hrun =>
      have heq := Option.some.inj hstep
      have heffect : Effect s claims (s.readJob run claims jobId text extractor).1
          (s.readJob run claims jobId text extractor).2 := effect_readJob hrun
      rw [heq] at heffect
      exact heffect
  | start run now saved =>
    unfold step at hstep
    simp only at hstep
    split at hstep
    next r hr =>
      split at hstep
      next hphase =>
        cases hstep
        exact ⟨r.claims, by rw [Step.claims, hr]; rfl, effect_startRun hr hphase (hguarded r hr hphase)⟩
      next => exact (nomatch hstep)
    next => exact (nomatch hstep)
  | execute run result =>
    unfold step at hstep
    simp only at hstep
    split at hstep
    next r hr =>
      split at hstep
      next hphase =>
        cases hstep
        exact ⟨r.claims, by rw [Step.claims, hr]; rfl, .executed hr hphase⟩
      next => exact (nomatch hstep)
    next => exact (nomatch hstep)
  | record run now saved =>
    unfold step at hstep
    simp only at hstep
    split at hstep
    next r hr =>
      split at hstep
      next links hphase =>
        cases hstep
        exact ⟨r.claims, by rw [Step.claims, hr]; rfl,
          effect_recordLinks hr hphase fun hsaved => hguarded hsaved r hr⟩
      next => exact (nomatch hstep)
    next => exact (nomatch hstep)
  | finish run now saved =>
    unfold step at hstep
    simp only at hstep
    split at hstep
    next r hr =>
      obtain ⟨hsaved, hlt⟩ := hguarded r hr
      refine ⟨r.claims, by rw [Step.claims, hr]; rfl, ?_⟩
      split at hstep
      next hphase =>
        obtain rfl := hsaved hphase
        have heffect : Effect s r.claims (s.awaitReview run r now (.ok ())).1 (s.awaitReview run r now (.ok ())).2 :=
          effect_awaitReview h hr hphase
        rw [Option.some.inj hstep] at heffect
        exact heffect
      next error hphase =>
        have heffect : Effect s r.claims (s.failRun run r error now saved).1 (s.failRun run r error now saved).2 :=
          effect_failRun hr hphase fun hsaved => hlt hsaved error hphase
        rw [Option.some.inj hstep] at heffect
        exact heffect
      next => exact (nomatch hstep)
    next => exact (nomatch hstep)
  | cancel claims jobId now saved =>
    refine ⟨claims, rfl, ?_⟩
    unfold step at hstep
    simp only at hstep
    cases hstep
    exact effect_cancel hguarded
  | list claims =>
    refine ⟨claims, rfl, ?_⟩
    unfold step at hstep
    cases hstep
    exact .quiet fun job hjob => of_decide_eq_true (mem_filter.1 hjob).2
  | get claims jobId =>
    refine ⟨claims, rfl, ?_⟩
    unfold step at hstep
    cases hstep
    exact .quiet fun job hjob => (findJob_eq_some (Option.mem_toList.1 hjob)).2.2

end WildAgentOs.Corpus
