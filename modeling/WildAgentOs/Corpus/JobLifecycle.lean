import WildAgentOs.Corpus.JobRuns

/-!
# The lifecycle of a corpus job

* `JobInv`, `Inv`: what holds of every job, with the runs that have begun with it and what has happened to it;
* `JobInv.change`, `Inv.effect`, `lifecycle_of_reachable`.
-/

namespace WildAgentOs.Corpus

open List Function Option

/-! ### One job -/

/-- The run has begun with the job. -/
def Active (s : System) (jobId : String) (run : ℕ) : Prop :=
  ∃ r, s.runs run = some r ∧ r.jobId = jobId ∧ r.phase.isActive = true

/-- The run has recorded the links of the job. -/
def Pending (s : System) (jobId : String) (run : ℕ) : Prop :=
  ∃ r, s.runs run = some r ∧ r.jobId = jobId ∧ r.phase = .recorded

structure JobInv (s : System) (job : OnlineCorpusJob) : Prop where
  attempts_le : job.attemptSummary.attempts ≤ maxRetryAttempts
  attempts_eq : job.attemptSummary.attempts = s.log.count (.started job.id)
  queued_lt : job.state = .queued → job.attemptSummary.attempts < maxRetryAttempts
  retries_eq : job.attemptSummary.retries = s.log.count (.requeued job.id)
  retries_le : job.attemptSummary.retries ≤ job.attemptSummary.attempts
  running_lt : job.state = .running → job.attemptSummary.retries < job.attemptSummary.attempts
  links : job.links ≠ .default → .recorded job.id ∈ s.log
  recorded : .recorded job.id ∈ s.log → .awaiting job.id ∈ s.log ∨ ∃ run, Pending s job.id run
  active : ∀ run, Active s job.id run → job.state = .running ∨ job.state.isTerminal = true
  one : ∀ run run', Active s job.id run → Active s job.id run' → run = run'
  pending : ∀ run, Pending s job.id run → job.state = .running

variable {s : System}

theorem Pending.active {jobId : String} {run : ℕ} (h : Pending s jobId run) : Active s jobId run := by
  obtain ⟨r, hr, hid, hphase⟩ := h
  exact ⟨r, hr, hid, by rw [hphase]; rfl⟩

variable {job : OnlineCorpusJob} {s s' : System}

/-- What happens to other jobs does not show, nor does the end of a run that has recorded nothing. -/
theorem JobInv.frame (h : JobInv s job) (hactive : ∀ run, Active s' job.id run → Active s job.id run)
    (hpending : ∀ run, Pending s' job.id run ↔ Pending s job.id run)
    (hlog : ∀ e : Event, e.jobId = job.id → s'.log.count e = s.log.count e) : JobInv s' job := by
  have hmem : ∀ e : Event, e.jobId = job.id → (e ∈ s'.log ↔ e ∈ s.log) := by
    intro e he
    rw [← count_pos_iff, ← count_pos_iff, hlog e he]
  exact
    { h with
      attempts_eq := h.attempts_eq.trans (hlog (.started job.id) rfl).symm
      retries_eq := h.retries_eq.trans (hlog (.requeued job.id) rfl).symm
      links := fun hlinks => (hmem (.recorded job.id) rfl).2 (h.links hlinks)
      recorded := fun hrecorded => (h.recorded ((hmem (.recorded job.id) rfl).1 hrecorded)).imp
        (hmem (.awaiting job.id) rfl).2 fun ⟨run, hrun⟩ => ⟨run, (hpending run).2 hrun⟩
      active := fun run hrun => h.active run (hactive run hrun)
      one := fun run run' hrun hrun' => h.one run run' (hactive run hrun) (hactive run' hrun')
      pending := fun run hrun => h.pending run ((hpending run).1 hrun) }

variable {e e' : Event}

theorem count_log_append {log : List Event} (h : e'.jobId ≠ e.jobId) : (log ++ [e']).count e = log.count e := by
  rw [count_append, count_singleton, if_neg, Nat.add_zero]
  rw [beq_iff_eq]
  rintro rfl
  exact h rfl

/-! ### The runs -/

variable {runs : ℕ → Option Run} {e : Event}

section

variable {s s' : System} {run : ℕ} {r : Run} {jobId : String} {phase : Phase} {run' : ℕ}

theorem exists_update_iff {P : Run → Prop} {changed : Option Run} :
    (∃ r', update runs run changed run' = some r' ∧ P r') ↔
      if run' = run then ∃ r', changed = some r' ∧ P r' else ∃ r', runs run' = some r' ∧ P r' := by
  split_ifs with heq
  · rw [heq, update_self]
  · rw [update_of_ne heq]

section

variable (hruns : s'.runs = update s.runs run (some { r with phase }))
include hruns

theorem active_goOn_iff :
    Active s' jobId run' ↔ if run' = run then r.jobId = jobId ∧ phase.isActive = true else Active s jobId run' := by
  unfold Active
  rw [hruns, exists_update_iff]
  simp

theorem pending_goOn_iff :
    Pending s' jobId run' ↔ if run' = run then r.jobId = jobId ∧ phase = .recorded else Pending s jobId run' := by
  unfold Pending
  rw [hruns, exists_update_iff]
  simp

end

theorem active_endRun_iff (hruns : s'.runs = update s.runs run none) :
    Active s' jobId run' ↔ run' ≠ run ∧ Active s jobId run' := by
  unfold Active
  rw [hruns, exists_update_iff]
  simp

theorem pending_endRun_iff (hruns : s'.runs = update s.runs run none) :
    Pending s' jobId run' ↔ run' ≠ run ∧ Pending s jobId run' := by
  unfold Pending
  rw [hruns, exists_update_iff]
  simp

/-- The run is at the place of its phase. -/
theorem active_self (hr : s.runs run = some r) (hactive : r.phase.isActive = true) : Active s r.jobId run :=
  ⟨r, hr, rfl, hactive⟩

theorem phase_of_pending (hr : s.runs run = some r) (h : Pending s jobId run) : r.phase = .recorded := by
  obtain ⟨r', hr', -, hphase⟩ := h
  obtain rfl := some.inj (hr.symm.trans hr')
  exact hphase

/-- A run of another job goes on, with something that has happened to its own. -/
theorem JobInv.other_goOn (h : JobInv s job) (hr : s.runs run = some r)
    (hne : r.jobId ≠ job.id) (hruns : s'.runs = update s.runs run (some { r with phase }))
    (he : e.jobId = r.jobId) (hlog : s'.log = s.log ++ [e]) : JobInv s' job := by
  refine h.frame (fun run' hactive => ?_) (fun run' => ?_) fun e' he' => ?_
  · rw [active_goOn_iff hruns] at hactive
    split_ifs at hactive with heq
    · exact absurd hactive.1 hne
    · exact hactive
  · rw [pending_goOn_iff hruns]
    split_ifs with heq
    · subst heq
      refine iff_of_false (fun hpending => hne hpending.1) ?_
      rintro ⟨r', hr', hid, -⟩
      obtain rfl := some.inj (hr.symm.trans hr')
      exact hne hid
    · exact Iff.rfl
  · rw [hlog, count_log_append]
    rw [he, he']
    exact hne

/-- A run of another job ends, with what has happened to its own. -/
theorem JobInv.other_endRun (h : JobInv s job) (hr : s.runs run = some r)
    (hne : r.jobId ≠ job.id) (hruns : s'.runs = update s.runs run none)
    (hlog : ∀ e : Event, e.jobId ≠ r.jobId → s'.log.count e = s.log.count e) : JobInv s' job := by
  refine h.frame (fun run' hactive => ((active_endRun_iff hruns).1 hactive).2) (fun run' => ?_) fun e he =>
    hlog e (he ▸ fun heq => hne heq.symm)
  rw [pending_endRun_iff hruns]
  refine and_iff_right_of_imp ?_
  rintro ⟨r', hr', hid, -⟩ rfl
  obtain rfl := some.inj (hr.symm.trans hr')
  exact hne hid

end


/-! ### One change of a job -/

section

variable {s s' : System} {jobId : String} {job job' other : OnlineCorpusJob} {runs : ℕ → Option Run}
  {log : List Event}

theorem saturatingSucc_of_lt {n : ℕ} (h : n < maxRetryAttempts) : saturatingSucc n = n + 1 := by
  unfold saturatingSucc
  unfold maxRetryAttempts at h
  omega

theorem count_log_self : (log ++ [e]).count e = log.count e + 1 := by
  rw [count_append, count_singleton_self]

theorem count_log_of_ne (h : e' ≠ e) : (log ++ [e']).count e = log.count e := by
  rw [count_append, count_singleton, if_neg (by rwa [beq_iff_eq]), Nat.add_zero]

theorem mem_log_of_ne (h : e' ≠ e) : e ∈ log ++ [e'] ↔ e ∈ log := by
  rw [mem_append, mem_singleton]
  exact or_iff_left h.symm

section

variable (h : Change s jobId job job' runs log)
include h

/-- What a change does to the identifier and the scope: nothing. -/
theorem Change.same :
    job'.id = job.id ∧ job'.tenantId = job.tenantId ∧ job'.projectId = job.projectId := by
  cases h <;> exact ⟨rfl, rfl, rfl⟩

theorem Change.run {run : ℕ} {r : Run} (hr : runs run = some r) :
    ∃ r', s.runs run = some r' ∧ r'.jobId = r.jobId ∧ r'.claims = r.claims := by
  have hgoOn : ∀ {run' : ℕ} {r' : Run} {phase : Phase}, s.runs run' = some r' →
      update s.runs run' (some { r' with phase }) run = some r →
        ∃ r', s.runs run = some r' ∧ r'.jobId = r.jobId ∧ r'.claims = r.claims := by
    intro run' r' phase hr' hr
    by_cases heq : run = run'
    · subst heq
      rw [update_self] at hr
      cases hr
      exact ⟨r', hr', rfl, rfl⟩
    · rw [update_of_ne heq] at hr
      exact ⟨r, hr, rfl, rfl⟩
  have hendRun : ∀ {run' : ℕ}, update s.runs run' none run = some r →
      ∃ r', s.runs run = some r' ∧ r'.jobId = r.jobId ∧ r'.claims = r.claims := by
    intro run' hr
    by_cases heq : run = run'
    · subst heq
      rw [update_self] at hr
      exact (nomatch hr)
    · rw [update_of_ne heq] at hr
      exact ⟨r, hr, rfl, rfl⟩
  cases h with
  | started hr' | recorded hr' => exact hgoOn hr' hr
  | awaited | requeued | failed => exact hendRun hr
  | cancelled => exact ⟨r, hr, rfl, rfl⟩

theorem Change.logged : ∀ e ∈ log, e ∈ s.log ∨ e.jobId = jobId := by
  have happend : ∀ {e' : Event}, e'.jobId = jobId → ∀ e ∈ s.log ++ [e'], e ∈ s.log ∨ e.jobId = jobId := by
    intro e' he' e he
    refine (mem_append.1 he).imp_right fun he => ?_
    rw [mem_singleton.1 he, he']
  cases h with
  | started | recorded | awaited | requeued => exact happend rfl
  | failed | cancelled => exact fun e he => .inl he

end

/-- A change of one job does not show to the others. -/
theorem JobInv.others (h : JobInv s other) (hchange : Change s jobId job job' runs log) (hne : jobId ≠ other.id)
    (hruns : s'.runs = runs) (hlog : s'.log = log) : JobInv s' other := by
  cases hchange with
  | started hr hid | recorded hr hid =>
    subst hid
    exact h.other_goOn hr hne hruns rfl hlog
  | awaited hr hid | requeued hr hid =>
    refine h.other_endRun hr (hid ▸ hne) hruns fun e he => ?_
    rw [hlog]
    exact count_log_append fun heq => he (heq.symm.trans hid.symm)
  | failed hr hid => exact h.other_endRun hr (hid ▸ hne) hruns fun e _ => by rw [hlog]
  | cancelled =>
    refine h.frame (fun run hrun => ?_) (fun run => ?_) fun e _ => by rw [hlog]
    · unfold Active at hrun ⊢
      rwa [hruns] at hrun
    · unfold Pending
      rw [hruns]

theorem JobInv.not_active (h : JobInv s job) (hqueued : job.state = .queued) (run : ℕ) : ¬Active s job.id run := by
  intro hrun
  obtain hstate | hstate := h.active run hrun <;> rw [hqueued] at hstate <;> exact (nomatch hstate)

/-- The job of a run that ends has no run any more. -/
theorem JobInv.not_active_endRun (h : JobInv s job) {run : ℕ} (hactive : Active s job.id run)
    (hruns : s'.runs = update s.runs run none) (run' : ℕ) : ¬Active s' job.id run' := by
  intro hrun'
  obtain ⟨hne, hrun'⟩ := (active_endRun_iff hruns).1 hrun'
  exact hne (h.one run' run hrun' hactive)

/-- A job that has ended, or waits for its review, without having its summary or its links changed. -/
theorem JobInv.left (h : JobInv s job) (hid : job'.id = job.id) (hlinks : job'.links = job.links)
    (hattempts : job'.attemptSummary.attempts = job.attemptSummary.attempts)
    (hretries : job'.attemptSummary.retries = job.attemptSummary.retries) (hqueued : job'.state ≠ .queued)
    (hrunning : job'.state ≠ .running) (hlog : ∀ e : Event, e ≠ .awaiting job.id → s'.log.count e = s.log.count e)
    (hactive : ∀ run, Active s' job.id run → Active s job.id run ∧ job'.state.isTerminal = true)
    (hrecorded : .recorded job.id ∈ s.log → .awaiting job.id ∈ s'.log) (hpending : ∀ run, ¬Pending s' job.id run) :
    JobInv s' job' := by
  have hmem : .recorded job.id ∈ s'.log ↔ .recorded job.id ∈ s.log := by
    rw [← count_pos_iff, ← count_pos_iff, hlog _ (by exact (nomatch ·))]
  constructor
  · rw [hattempts]; exact h.attempts_le
  · rw [hattempts, hid, h.attempts_eq, hlog _ (by exact (nomatch ·))]
  · exact fun hstate => absurd hstate hqueued
  · rw [hretries, hid, h.retries_eq, hlog _ (by exact (nomatch ·))]
  · rw [hretries, hattempts]; exact h.retries_le
  · exact fun hstate => absurd hstate hrunning
  · rw [hlinks, hid, hmem]; exact h.links
  · rw [hid, hmem]; exact fun hlogged => .inl (hrecorded hlogged)
  · rw [hid]; exact fun run hrun => .inr (hactive run hrun).2
  · rw [hid]; exact fun run run' hrun hrun' => h.one run run' (hactive run hrun).1 (hactive run' hrun').1
  · rw [hid]; exact fun run hrun => absurd hrun (hpending run)

/-- The job that is changed keeps its invariant. -/
theorem JobInv.change (h : JobInv s job) (hjobId : job.id = jobId)
    (hchange : Change s jobId job job' runs log) (hruns : s'.runs = runs) (hlog : s'.log = log) : JobInv s' job' := by
  subst hjobId
  cases hchange with
  | @started run r now hr hid hqueued =>
    have hlt := h.queued_lt hqueued
    have hself : ∀ run', Active s' job.id run' → run' = run := by
      intro run' hrun'
      rw [active_goOn_iff hruns] at hrun'
      split_ifs at hrun' with heq
      · exact heq
      · exact absurd hrun' (h.not_active hqueued run')
    have hpending : ∀ run', ¬Pending s' job.id run' := by
      intro run' hrun'
      rw [pending_goOn_iff hruns] at hrun'
      split_ifs at hrun' with heq
      · exact (nomatch hrun'.2)
      · exact h.not_active hqueued run' hrun'.active
    have hattempts : (transitioned now job .running none).attemptSummary.attempts = job.attemptSummary.attempts + 1 :=
      saturatingSucc_of_lt hlt
    have hretries : (transitioned now job .running none).attemptSummary.retries = job.attemptSummary.retries := rfl
    constructor
    · rw [hattempts]; exact hlt
    · rw [hattempts, hlog, h.attempts_eq]; exact count_log_self.symm
    · exact (nomatch ·)
    · rw [hretries, hlog, h.retries_eq]; exact (count_log_of_ne (by exact (nomatch ·))).symm
    · rw [hretries, hattempts]; exact h.retries_le.trans (Nat.le_succ _)
    · rw [hretries, hattempts]; exact fun _ => Nat.lt_succ_of_le h.retries_le
    · rw [hlog]; exact fun hlinks => (mem_log_of_ne (by exact (nomatch ·))).2 (h.links hlinks)
    · rw [hlog]
      intro hrecorded
      obtain hawaiting | ⟨run', hrun'⟩ := h.recorded ((mem_log_of_ne (by exact (nomatch ·))).1 hrecorded)
      · exact .inl ((mem_log_of_ne (by exact (nomatch ·))).2 hawaiting)
      · exact absurd hrun'.active (h.not_active hqueued run')
    · exact fun _ _ => .inl rfl
    · exact fun run' run'' hrun' hrun'' => (hself run' hrun').trans (hself run'' hrun'').symm
    · exact fun run' hrun' => absurd hrun' (hpending run')
  | @recorded run r now links hr hid hphase hrunning =>
    have hactive : Active s job.id run := hid ▸ active_self hr (by rw [hphase]; rfl)
    have hself : ∀ run', Active s' job.id run' → run' = run := by
      intro run' hrun'
      rw [active_goOn_iff hruns] at hrun'
      split_ifs at hrun' with heq
      · exact heq
      · exact h.one run' run hrun' hactive
    have hpending : Pending s' job.id run := by
      rw [pending_goOn_iff hruns, if_pos rfl]
      exact ⟨hid, rfl⟩
    constructor
    · exact h.attempts_le
    · rw [hlog]; exact h.attempts_eq.trans (count_log_of_ne (by exact (nomatch ·))).symm
    · exact h.queued_lt
    · rw [hlog]; exact h.retries_eq.trans (count_log_of_ne (by exact (nomatch ·))).symm
    · exact h.retries_le
    · exact h.running_lt
    · rw [hlog]; exact fun _ => mem_append_right _ mem_cons_self
    · exact fun _ => .inr ⟨run, hpending⟩
    · exact fun _ _ => .inl hrunning
    · exact fun run' run'' hrun' hrun'' => (hself run' hrun').trans (hself run'' hrun'').symm
    · exact fun _ _ => hrunning
  | @awaited run r now hr hid hphase =>
    have hactive : Active s job.id run := hid ▸ active_self hr (by rw [hphase]; rfl)
    have hnone := h.not_active_endRun hactive hruns
    refine h.left rfl rfl rfl rfl (by exact (nomatch ·)) (by exact (nomatch ·)) (fun e he => ?_)
      (fun run' hrun' => absurd hrun' (hnone run')) (fun _ => ?_) fun run' hrun' => hnone run' hrun'.active
    · rw [hlog, count_log_of_ne he.symm]
    · rw [hlog]
      exact mem_append_right _ mem_cons_self
  | @requeued run r now error hr hid hphase hrunning hlt =>
    have hactive : Active s job.id run := hid ▸ active_self hr (by rw [hphase]; rfl)
    have hnone := h.not_active_endRun hactive hruns
    have hretries : (transitioned now job .queued (some error)).attemptSummary.retries =
        job.attemptSummary.retries + 1 :=
      saturatingSucc_of_lt ((h.running_lt hrunning).trans hlt)
    constructor
    · exact h.attempts_le
    · rw [hlog]; exact h.attempts_eq.trans (count_log_of_ne (by exact (nomatch ·))).symm
    · exact fun _ => hlt
    · rw [hretries, hlog, h.retries_eq]; exact count_log_self.symm
    · rw [hretries]; exact h.running_lt hrunning
    · exact (nomatch ·)
    · rw [hlog]; exact fun hlinks => (mem_log_of_ne (by exact (nomatch ·))).2 (h.links hlinks)
    · rw [hlog]
      intro hrecorded
      obtain hawaiting | ⟨run', hrun'⟩ := h.recorded ((mem_log_of_ne (by exact (nomatch ·))).1 hrecorded)
      · exact .inl ((mem_log_of_ne (by exact (nomatch ·))).2 hawaiting)
      · obtain rfl := h.one run' run hrun'.active hactive
        have hrecorded := phase_of_pending hr hrun'
        rw [hphase] at hrecorded
        exact (nomatch hrecorded)
    · exact fun run' hrun' => absurd hrun' (hnone run')
    · exact fun run' run'' hrun' _ => absurd hrun' (hnone run')
    · exact fun run' hrun' => absurd hrun'.active (hnone run')
  | @failed run r now error hr hid hphase =>
    have hactive : Active s job.id run := hid ▸ active_self hr (by rw [hphase]; rfl)
    have hnone := h.not_active_endRun hactive hruns
    refine h.left rfl rfl rfl rfl (by exact (nomatch ·)) (by exact (nomatch ·)) (fun e _ => by rw [hlog])
      (fun run' hrun' => absurd hrun' (hnone run')) (fun hrecorded => ?_) fun run' hrun' => hnone run' hrun'.active
    rw [hlog]
    refine (h.recorded hrecorded).resolve_right ?_
    rintro ⟨run', hrun'⟩
    obtain rfl := h.one run' run hrun'.active hactive
    have hrecorded := phase_of_pending hr hrun'
    rw [hphase] at hrecorded
    exact (nomatch hrecorded)
  | @cancelled now hpending =>
    have hactive : ∀ run, Active s' job.id run ↔ Active s job.id run := by
      intro run
      unfold Active
      rw [hruns]
    have hpending' : ∀ run, ¬Pending s job.id run := fun run ⟨r, hr, hid, hphase⟩ => hpending run r hr hphase hid
    refine h.left rfl rfl rfl rfl (by exact (nomatch ·)) (by exact (nomatch ·)) (fun e _ => by rw [hlog])
      (fun run hrun => ⟨(hactive run).1 hrun, rfl⟩) (fun hrecorded => ?_) fun run hrun => ?_
    · rw [hlog]
      exact (h.recorded hrecorded).resolve_right fun ⟨run, hrun⟩ => hpending' run hrun
    · unfold Pending at hrun
      rw [hruns] at hrun
      exact hpending' run hrun

end

/-! ### Every step -/

structure Inv (s : System) : Prop where
  nodup : (s.jobs.map (·.id)).Nodup
  owned : ∀ run r, s.runs run = some r → ∃ job ∈ s.jobs, job.id = r.jobId ∧ jobIsInScope job r.claims
  logged : ∀ e ∈ s.log, e.jobId ∈ s.jobs.map (·.id)
  job : ∀ job ∈ s.jobs, JobInv s job

section

variable {s s' : System} {claims : IsolationClaims} {jobId : String} {job job' other : OnlineCorpusJob}
  {runs : ℕ → Option Run} {log : List Event} {shown : List OnlineCorpusJob}

variable {jobs : List OnlineCorpusJob}

theorem eq_of_id (hnodup : (jobs.map (·.id)).Nodup) (hjob : job ∈ jobs)
    (hother : other ∈ jobs) (h : other.id = job.id) : other = job :=
  inj_on_of_nodup_map hnodup hother hjob h

theorem Inv.toOwned (h : Inv s) : Owned s where
  nodup := h.nodup
  job run r hr := by
    obtain ⟨job, hjob, hid, hscope⟩ := h.owned run r hr
    exact isSome_iff_exists.1 (find?_isSome.2 ⟨job, hjob, isJob_iff.2 ⟨hid, hscope⟩⟩)
  running run r hr hphase job hjob hid := (h.job job hjob).pending run ⟨r, hr, hid.symm, hphase⟩

theorem inv_new : Inv .new where
  nodup := nodup_nil
  owned _ _ hr := (nomatch hr)
  logged _ he := (nomatch he)
  job _ hjob := (nomatch hjob)

/-- The jobs that are not replaced stay. -/
theorem mem_replaceFirst_of_ne (hnodup : (jobs.map (·.id)).Nodup) (hfind : findJob jobs claims jobId = some job)
    (hother : other ∈ jobs) (hne : other ≠ job) : other ∈ replaceFirst (isJob claims jobId) job' jobs := by
  have hjob := findJob_eq_some hfind
  refine (mem_replaceFirst hnodup hfind).2 (.inr ⟨hother, fun hid => hne ?_⟩)
  exact eq_of_id hnodup hjob.1 hother (hid.trans hjob.2.1.symm)

theorem Inv.changed (h : Inv s) (hfind : findJob s.jobs claims jobId = some job)
    (hchange : Change s jobId job job' runs log) : Inv ⟨replaceFirst (isJob claims jobId) job' s.jobs, runs, log⟩ := by
  obtain ⟨hjob, hid, hscope⟩ := findJob_eq_some hfind
  obtain ⟨hsame, htenant, hproject⟩ := hchange.same
  have hids : (replaceFirst (isJob claims jobId) job' s.jobs).map (·.id) = s.jobs.map (·.id) :=
    map_id_replaceFirst fun other _ hpick => (isJob_iff.1 hpick).1.trans (hid.symm.trans hsame.symm)
  constructor
  · rw [hids]
    exact h.nodup
  · intro run r hr
    obtain ⟨r', hr', hjobId, hclaims⟩ := hchange.run hr
    obtain ⟨owner, howner, hownerId, hownerScope⟩ := h.owned run r' hr'
    rw [hjobId] at hownerId
    rw [hclaims] at hownerScope
    by_cases heq : owner = job
    · subst heq
      refine ⟨job', (mem_replaceFirst h.nodup hfind).2 (.inl rfl), hsame.trans hownerId, ?_⟩
      exact ⟨htenant.trans hownerScope.1, hproject.trans hownerScope.2⟩
    · exact ⟨owner, mem_replaceFirst_of_ne h.nodup hfind howner heq, hownerId, hownerScope⟩
  · intro e he
    rw [hids]
    obtain he | he := hchange.logged e he
    · exact h.logged e he
    · rw [he, ← hid]
      exact List.mem_map_of_mem hjob
  · intro other hother
    obtain rfl | ⟨hother, hne⟩ := (mem_replaceFirst h.nodup hfind).1 hother
    · exact (h.job job hjob).change hid hchange rfl rfl
    · exact (h.job other hother).others hchange hne.symm rfl rfl

/-- A new job has no runs, and nothing has happened to it. -/
theorem Inv.enqueued (h : Inv s) {now id requestId : String} {request : CreateOnlineCorpusJobRequest}
    (hid : id ∉ s.jobs.map (·.id)) : Inv { s with jobs := s.jobs ++ [newJob now id requestId claims request] } := by
  have hmem : ∀ {job}, job ∈ s.jobs → job ∈ s.jobs ++ [newJob now id requestId claims request] :=
    fun hjob => mem_append_left _ hjob
  have hcount : ∀ e : Event, e.jobId = id → e ∉ s.log := by
    rintro e rfl he
    exact hid (h.logged e he)
  have hactive : ∀ run, ¬Active s id run := by
    rintro run ⟨r, hr, rfl, -⟩
    obtain ⟨job, hjob, hjobId, -⟩ := h.owned run r hr
    exact hid (hjobId ▸ List.mem_map_of_mem hjob)
  constructor
  · rw [map_append, map_singleton]
    refine nodup_append.2 ⟨h.nodup, nodup_singleton _, ?_⟩
    rintro a ha b hb rfl
    obtain rfl : a = id := mem_singleton.1 hb
    exact hid ha
  · intro run r hr
    obtain ⟨job, hjob, howned⟩ := h.owned run r hr
    exact ⟨job, hmem hjob, howned⟩
  · intro e he
    rw [map_append]
    exact mem_append_left _ (h.logged e he)
  · intro job hjob
    obtain hjob | hjob := mem_append.1 hjob
    · exact { h.job job hjob with }
    · obtain rfl := mem_singleton.1 hjob
      constructor
      · exact Nat.zero_le _
      · exact (count_eq_zero.2 (hcount _ rfl)).symm
      · exact fun _ => (by decide : 0 < maxRetryAttempts)
      · exact (count_eq_zero.2 (hcount _ rfl)).symm
      · exact le_rfl
      · exact (nomatch ·)
      · exact fun hlinks => absurd rfl hlinks
      · exact fun hrecorded => absurd hrecorded (hcount _ rfl)
      · exact fun run hrun => absurd hrun (hactive run)
      · exact fun run run' hrun _ => absurd hrun (hactive run)
      · exact fun run hrun => absurd hrun.active (hactive run)

/-- A run begins to read, ends without having recorded anything, or has executed: nothing shows at the jobs. -/
theorem Inv.otherRuns (h : Inv s)
    (howned : ∀ run r, runs run = some r → ∃ job ∈ s.jobs, job.id = r.jobId ∧ jobIsInScope job r.claims)
    (hactive : ∀ jobId run, Active { s with runs } jobId run → Active s jobId run)
    (hpending : ∀ jobId run, Pending { s with runs } jobId run ↔ Pending s jobId run) : Inv { s with runs } where
  nodup := h.nodup
  owned := howned
  logged := h.logged
  job job hjob := (h.job job hjob).frame (hactive job.id) (hpending job.id) fun _ _ => rfl

theorem Inv.effect (h : Inv s) (heffect : Effect s claims s' shown) : Inv s' := by
  cases heffect with
  | quiet => exact h
  | enqueued hid => exact h.enqueued hid
  | @read run r job hrun hclaims hfind hphase =>
    have hother : ∀ {P : Run → Prop} {run'}, ¬P r →
        ((∃ r', update s.runs run (some r) run' = some r' ∧ P r') ↔ ∃ r', s.runs run' = some r' ∧ P r') := by
      intro P run' hP
      by_cases heq : run' = run
      · subst heq
        rw [update_self, hrun]
        exact iff_of_false (fun ⟨r', hr', hP'⟩ => hP (some.inj hr' ▸ hP')) fun ⟨_, hr', _⟩ => (nomatch hr')
      · rw [update_of_ne heq]
    refine h.otherRuns (fun run' r' hr' => ?_) (fun jobId run' => ?_) fun jobId run' => ?_
    · by_cases heq : run' = run
      · subst heq
        rw [update_self] at hr'
        cases hr'
        rw [hclaims]
        exact ⟨job, findJob_eq_some hfind⟩
      · rw [update_of_ne heq] at hr'
        exact h.owned run' r' hr'
    · exact (hother fun hP => by rw [hphase] at hP; exact (nomatch hP.2)).1
    · exact hother fun hP => by rw [hphase] at hP; exact (nomatch hP.2)
  | @ended run r hr hphase =>
    refine h.otherRuns (fun run' r' hr' => ?_) (fun jobId run' hrun' => ((active_endRun_iff rfl).1 hrun').2)
      fun jobId run' => ?_
    · by_cases heq : run' = run
      · subst heq
        rw [update_self] at hr'
        exact (nomatch hr')
      · rw [update_of_ne heq] at hr'
        exact h.owned run' r' hr'
    · rw [pending_endRun_iff rfl]
      refine and_iff_right_of_imp ?_
      rintro hpending rfl
      exact hphase (phase_of_pending hr hpending)
  | @executed run r result hr hphase =>
    refine h.otherRuns (fun run' r' hr' => ?_) (fun jobId run' hrun' => ?_) fun jobId run' => ?_
    · by_cases heq : run' = run
      · subst heq
        rw [update_self] at hr'
        cases hr'
        exact h.owned run' r hr
      · rw [update_of_ne heq] at hr'
        exact h.owned run' r' hr'
    · rw [active_goOn_iff rfl] at hrun'
      split_ifs at hrun' with heq
      · subst heq
        exact ⟨r, hr, hrun'.1, by rw [hphase]; rfl⟩
      · exact hrun'
    · rw [pending_goOn_iff rfl]
      split_ifs with heq
      · subst heq
        refine iff_of_false (fun hpending => (nomatch hpending.2)) fun hpending => ?_
        have hrecorded := phase_of_pending hr hpending
        rw [hphase] at hrecorded
        exact (nomatch hrecorded)
      · exact Iff.rfl
  | changed hfind hopen hchange => exact h.changed hfind hchange

end

theorem inv_of_reachable (h : Reachable s) : Inv s := by
  induction h with
  | new => exact inv_new
  | step h hguarded hstep ih =>
    obtain ⟨claims, -, heffect⟩ := step_effect ih.toOwned hguarded hstep
    exact ih.effect heffect

/-! ### What follows -/

theorem Inv.lifecycle (h : Inv s) : Lifecycle s where
  nodup := h.nodup
  one_run run run' r r' hr hr' hphase hphase' hid := by
    obtain ⟨job, hjob, hjobId, -⟩ := h.owned run r hr
    exact (h.job job hjob).one run run' ⟨r, hr, hjobId.symm, by rw [hphase]; rfl⟩
      ⟨r', hr', (hjobId.trans hid).symm, by rw [hphase']; rfl⟩
  attempts job hjob := ⟨(h.job job hjob).attempts_le, (h.job job hjob).attempts_eq⟩
  retries job hjob := (h.job job hjob).retries_eq
  links job hjob := (h.job job hjob).links
  recorded job hjob hrecorded := by
    refine ((h.job job hjob).recorded hrecorded).imp_right ?_
    rintro ⟨run, hrun⟩
    exact ⟨(h.job job hjob).pending run hrun, run, hrun⟩

theorem Inv.respects {st : Step} {shown : List OnlineCorpusJob} (h : Inv s)
    (hguarded : st.Guarded s) (hstep : step s st = some (s', shown)) : Respects s s' st shown := by
  obtain ⟨claims, hclaims, heffect⟩ := step_effect h.toOwned hguarded hstep
  have hone : ∀ claims', st.claims s = some claims' → claims' = claims := fun claims' hclaims' =>
    some.inj (hclaims'.symm.trans hclaims)
  have hkept : ∀ job ∈ s.jobs, job.state.isTerminal = true ∨ ¬jobIsInScope job claims → job ∈ s'.jobs := by
    intro job hjob hout
    cases heffect with
    | quiet | read | ended | executed => exact hjob
    | enqueued => exact mem_append_left _ hjob
    | changed hfind hopen =>
      refine mem_replaceFirst_of_ne h.nodup hfind hjob ?_
      rintro rfl
      obtain hterminal | hscope := hout
      · rw [hopen] at hterminal
        exact (nomatch hterminal)
      · exact hscope (findJob_eq_some hfind).2.2
  constructor
  · exact fun job hjob hterminal => hkept job hjob (.inl hterminal)
  · exact fun claims' hclaims' job hjob hscope => hkept job hjob (.inr (hone claims' hclaims' ▸ hscope))
  · intro claims' hclaims' job hjob
    rw [hone claims' hclaims']
    cases heffect with
    | quiet hshown => exact hshown job hjob
    | enqueued =>
      rw [mem_singleton.1 hjob]
      exact ⟨rfl, rfl⟩
    | read | ended | executed => exact (nomatch hjob)
    | changed hfind hopen hchange hshown =>
      rw [hshown job hjob]
      have hscope := (findJob_eq_some hfind).2.2
      obtain ⟨-, htenant, hproject⟩ := hchange.same
      exact ⟨htenant.trans hscope.1, hproject.trans hscope.2⟩
  · intro run r hr hphase
    have hother : ∀ {run' : ℕ} {x : Option Run}, run ≠ run' →
        ∃ r', update s.runs run' x run = some r' ∧ r'.phase = .recorded := fun hne =>
      ⟨r, (update_of_ne hne _ _).trans hr, hphase⟩
    have hne : ∀ {run' : ℕ} {r' : Run}, s.runs run' = some r' → r'.phase ≠ .recorded → run ≠ run' := by
      rintro run' r' hr' hphase' rfl
      exact hphase' (some.inj (hr.symm.trans hr') ▸ hphase)
    cases heffect with
    | quiet | enqueued => exact .inl ⟨r, hr, hphase⟩
    | read hrun =>
      refine .inl (hother ?_)
      rintro rfl
      exact (nomatch hrun.symm.trans hr)
    | ended hr' hphase' => exact .inl (hother (hne hr' hphase'))
    | executed hr' hphase' => exact .inl (hother (hne hr' (by rw [hphase']; exact (nomatch ·))))
    | @changed jobId job job' runs log shown hfind hopen hchange hshown =>
      have hjob := findJob_eq_some hfind
      have hinv := h.job job hjob.1
      cases hchange with
      | @started run' r' now hr' hid hqueued =>
        refine .inl (hother ?_)
        rintro rfl
        refine hinv.not_active hqueued run ⟨r, hr, ?_, by rw [hphase]; rfl⟩
        rw [some.inj (hr.symm.trans hr'), hid, hjob.2.1]
      | recorded hr' hid hphase' | requeued hr' hid hphase' | failed hr' hid hphase' =>
        exact .inl (hother (hne hr' (by rw [hphase']; exact (nomatch ·))))
      | @awaited run' r' now hr' hid hphase' =>
        by_cases heq : run = run'
        · subst heq
          obtain rfl := some.inj (hr.symm.trans hr')
          refine .inr ⟨_, (mem_replaceFirst h.nodup hfind).2 (.inl rfl), ?_, rfl⟩
          exact hjob.2.1.trans hid.symm
        · exact .inl (hother heq)
      | cancelled => exact .inl ⟨r, hr, hphase⟩

/-- Over every run whose steps are guarded, the jobs keep their lifecycle and every step respects it. -/
theorem lifecycle_of_reachable {s : System} (h : Reachable s) :
    Lifecycle s ∧ ∀ st s' shown, st.Guarded s → step s st = some (s', shown) → Respects s s' st shown :=
  ⟨(inv_of_reachable h).lifecycle, fun _ _ _ hguarded hstep => (inv_of_reachable h).respects hguarded hstep⟩

/-- A queued job has an attempt left and no run, and a running one has an attempt that was not requeued. -/
def RetriesExact (s : System) : Prop :=
  ∀ job ∈ s.jobs, job.attemptSummary.retries ≤ job.attemptSummary.attempts ∧
    (job.state = .queued → job.attemptSummary.attempts < maxRetryAttempts ∧ ∀ run, ¬Active s job.id run) ∧
    (job.state = .running → job.attemptSummary.retries < job.attemptSummary.attempts)

/-- A request, its job, and the job as a run has read it. -/
def sampleClaims : IsolationClaims := ⟨"acme", "docs", "ada", tenant_safe_acme, by decide, actor_safe_ada⟩

def sampleRequest : CreateOnlineCorpusJobRequest := ⟨⟨"manual", "v1", none⟩, none, none⟩

def sampleJob : OnlineCorpusJob := newJob "t0" "job" "request" sampleClaims sampleRequest

def sampleRun : Run := ⟨sampleClaims, "job", sampleJob, .read⟩

def sampleRead : System := ⟨[sampleJob], update (fun _ => none) 0 (some sampleRun), []⟩

/-- The job is queued, read and started: it is running. -/
theorem lifecycle_of_start : (sampleRead.startRun 0 sampleRun "t1" (.ok ())).jobs.map (·.state) = [.running] ∧
      Lifecycle (sampleRead.startRun 0 sampleRun "t1" (.ok ())) := by
  have henqueue : step .new (.enqueue sampleClaims sampleRequest "t0" "job" "request" (.ok ())) =
      some (⟨[sampleJob], fun _ => none, []⟩, [sampleJob]) := by rfl
  have hread : step ⟨[sampleJob], fun _ => none, []⟩ (.read 0 sampleClaims "job" "text" "gliner") =
      some (sampleRead, []) := by rfl
  have hstart : step sampleRead (.start 0 "t1" (.ok ())) =
      some (sampleRead.startRun 0 sampleRun "t1" (.ok ()), []) := by rfl
  have hqueued : Reachable ⟨[sampleJob], fun _ => none, []⟩ := .step .new (by trivial) henqueue
  have hpicked : Reachable sampleRead := .step hqueued (by trivial) hread
  refine ⟨by decide +kernel, (lifecycle_of_reachable (.step hpicked ?_ hstart)).1⟩
  intro r hr _
  cases hr
  rfl

/-- Steps in a row. -/
def runSteps (s : System) : List Step → Option System
  | [] => some s
  | st :: steps => (step s st).bind fun p => runSteps p.1 steps

/-- The job is cancelled between the primitives of its run and the record of their links. -/
def cancelledRun : List Step :=
  [.enqueue sampleClaims sampleRequest "t0" "job" "request" (.ok ()), .read 0 sampleClaims "job" "text" "gliner",
    .start 0 "t1" (.ok ()), .execute 0 (.ok .default), .cancel sampleClaims "job" "t2" (.ok ())]

/-- A cancelled job changes again, and has its links recorded without a review. -/
theorem cancelled_job_changes :
    ((runSteps .new cancelledRun).map fun s => s.jobs.map fun job => (job.state, job.auditEvents.length)) =
        some [(.cancelled, 3)] ∧
      ((runSteps .new (cancelledRun ++ [.record 0 "t3" (.ok ())])).map fun s =>
          (s.jobs.map fun job => (job.state, job.auditEvents.length), s.log)) =
        some ([(.cancelled, 4)], [.started "job", .recorded "job"]) := by
  decide +kernel

end WildAgentOs.Corpus
