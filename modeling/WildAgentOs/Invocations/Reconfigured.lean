import WildAgentOs.Invocations.Idempotency

/-!
# Restarts with another configuration

A binding expires at a time that was fixed by the TTL of its create. A sweep goes by the retention of the process that
runs now, which may be another one.

* `Deployment`: a server and its configuration, which each start reads anew;
* `Sweep.SparesLive`;
* `Covered`: a start does not shorten the retention below what the live bindings in the file need;
* `sparesLive_run`.
-/

namespace WildAgentOs.Invocations

open ListPass List Server

/-! ### Deployments -/

/-- A server with the configuration of the process. -/
structure Deployment where
  server : Server
  cfg : InvocationStoreConfig

/-- What happens to a deployment: a process is started, with its variables, or an operation runs. -/
inductive Event
  | start (lookup : String → Option String) (started now : Instant) (persist : Except String Unit)
  | serve (st : Step)

def Event.step : Event → Step
  | start _ started now persist => ⟨.restart started, now, persist⟩
  | serve st => st

/-- The configuration that an event runs with. -/
def Event.config (cfg : InvocationStoreConfig) : Event → Except InvocationConfigError InvocationStoreConfig
  | start lookup _ _ _ => InvocationStoreConfig.tryFromVars lookup
  | serve _ => .ok cfg

/-- A call of `sweep_expired_records`. -/
structure Sweep where
  retention : ℤ
  now : Instant
  records : List Invocation

/-- The sweep keeps the records whose binding is live at its time. -/
def Sweep.SparesLive (w : Sweep) : Prop :=
  ∀ r ∈ w.records, ∀ b, r.idempotency = some b → b.isLive w.now = true → isKept w.retention w.now r = true

/-- The records that a start has recovered before it sweeps. -/
def loaded (now : Instant) (file : List Invocation) : List Invocation :=
  (file.map Invocation.readBack).map (interrupt now)

/-- The sweep of an operation, if it comes to one. -/
def Server.sweep (cfg : InvocationStoreConfig) (s : Server) (st : Step) : Option Sweep :=
  match st.op with
  | .create claims new _ =>
    s.records.bind fun records =>
      if (boundTo records claims new st.now).isNone ∧ activeInScope records claims < cfg.maxActivePerScope then
        some ⟨cfg.retention, st.now, records⟩
      else none
  | .sweep clock => s.records.map (Sweep.mk cfg.retention clock)
  | .restart started => some ⟨cfg.retention, started, loaded st.now s.file⟩
  | _ => none

namespace Deployment

/-- No process yet. -/
def init : Deployment := ⟨Server.init, ⟨days DEFAULT_RETENTION_DAYS, DEFAULT_MAX_ACTIVE_PER_SCOPE,
  hours DEFAULT_IDEMPOTENCY_TTL_HOURS⟩⟩

/-- One event: a start with a configuration that is refused leaves no process. -/
def step (d : Deployment) (e : Event) : Deployment :=
  match e.config d.cfg with
  | .ok cfg => ⟨(d.server.step cfg e.step).2, cfg⟩
  | .error _ => ⟨⟨d.server.file, none⟩, d.cfg⟩

def run (d : Deployment) (events : List Event) : Deployment := events.foldl step d

/-- The sweep of an event. -/
def sweep (d : Deployment) (e : Event) : Option Sweep :=
  match e.config d.cfg with
  | .ok cfg => d.server.sweep cfg e.step
  | .error _ => none

/-- What a start finds in the file is covered by its retention: no binding that is live then lasts longer than the
retention of its record. -/
def Covers (cfg : InvocationStoreConfig) (st : Step) (file : List Invocation) : Prop :=
  ∀ started, st.op = .restart started → ∀ r ∈ loaded st.now file, ∀ b, r.idempotency = some b →
    b.isLive started = true → b.expiresAt.instant ≤ (r.completedAt.getD r.updatedAt).instant + cfg.retention

def Covered (d : Deployment) (e : Event) : Prop := ∀ cfg, e.config d.cfg = .ok cfg → Covers cfg e.step d.server.file

end Deployment

/-! ### Records -/

/-- The binding of a record does not outlast its retention, from its completion or, as long as that is open, from its
create. -/
def Outlasted (retention : ℤ) (r : Invocation) : Prop :=
  ∀ b, r.idempotency = some b → b.expiresAt.instant ≤ (r.completedAt.getD r.createdAt).instant + retention

/-- A record that was created before a time. -/
structure Dated (now : Instant) (r : Invocation) : Prop where
  tracked : Tracked r
  created : r.createdAt.micros ≤ (toRfc3339 now).micros

variable {now : Instant} {r : Invocation}

theorem Dated.mono {now' : Instant} (h : Dated now r) (hle : now ≤ now') : Dated now' r :=
  ⟨h.tracked, h.created.trans (toRfc3339_mono hle)⟩

variable {st : Step} {r' : Invocation}

theorem Change.dated (hchange : Change st r r') (h : Dated st.now r) : Dated st.now r' := by
  refine ⟨hchange.tracked h.tracked, ?_⟩
  cases hchange <;> exact h.created

theorem Changes.dated (hchanges : Changes st r r') (h : Dated st.now r) : Dated st.now r' := by
  induction hchanges with
  | refl => exact h
  | tail _ hchange ih => exact hchange.dated ih

variable {retention : ℤ}

/-- A record is completed after its create, so that its retention can only move on. -/
theorem Change.outlasted (hchange : Change st r r')
    (hdated : Dated st.now r) (h : Outlasted retention r) : Outlasted retention r' := by
  have hlater : r.completedAt = none → ∀ b, r.idempotency = some b →
      b.expiresAt.instant ≤ (toRfc3339 st.now).instant + retention := by
    intro hnone b hb
    have hb := h b hb
    have hcreated := hdated.created
    rw [hnone, Option.getD_none] at hb
    unfold Rfc3339.instant at hb ⊢
    linarith
  cases hchange with
  | @transition actorId next patch _ hopen _ =>
    intro b hb
    have hnone := hdated.tracked.completedAt_eq_none hopen
    rw [applyTransition_completedAt]
    split_ifs
    · exact hlater hnone b hb
    · exact h b hb
  | interrupt hopen => exact hlater (hdated.tracked.completedAt_eq_none hopen)
  | unbind => exact fun b hb => nomatch hb

theorem Changes.outlasted (hchanges : Changes st r r')
    (hdated : Dated st.now r) (h : Outlasted retention r) : Outlasted retention r' := by
  induction hchanges with
  | refl => exact h
  | tail hbefore hchange ih => exact hchange.outlasted (Changes.dated hbefore hdated) ih

/-- A record with a live binding that its retention outlasts is kept. -/
theorem isKept_of_le {b : IdempotencyBinding}
    (hle : r.state.isTerminal = true → b.expiresAt.instant ≤ (r.completedAt.getD r.updatedAt).instant + retention)
    (hlive : b.isLive now = true) : isKept retention now r = true := by
  unfold isKept
  cases hterminal : r.state.isTerminal with
  | false => rfl
  | true =>
    have hlt := of_decide_eq_true hlive
    have hle := hle hterminal
    simp only [Bool.not_true, Bool.false_or, decide_eq_true_eq]
    linarith

/-- A terminal record has the time of its completion. -/
theorem Tracked.getD_completedAt (h : Tracked r) (hterminal : r.state.isTerminal = true) (t t' : Rfc3339) :
    r.completedAt.getD t = r.completedAt.getD t' := by
  have hcompleted := h.completed
  rw [hterminal] at hcompleted
  obtain ⟨c, hc⟩ := Option.isSome_iff_exists.1 hcompleted
  rw [hc, Option.getD_some, Option.getD_some]

/-! ### Files -/

/-- The records of the file were created before a time, and of an open store none outlasts its retention. -/
structure Guarded (now : Instant) (cfg : InvocationStoreConfig) (s : Server) : Prop extends s.Sound where
  accepted : cfg.Accepted
  dated : ∀ r ∈ s.file, Dated now r
  outlasted : s.records.isSome = true → ∀ r ∈ s.file, Outlasted cfg.retention r

theorem dated_newInvocation (cfg : InvocationStoreConfig) (now : Instant) (uuid : String) (claims : IsolationClaims)
    (new : NewInvocation) : Dated now (newInvocation cfg now uuid claims new) :=
  ⟨tracked_newInvocation cfg now uuid claims new, le_refl _⟩

variable {cfg : InvocationStoreConfig}

theorem outlasted_newInvocation (hcfg : cfg.Accepted) (now : Instant) (uuid : String) (claims : IsolationClaims)
    (new : NewInvocation) : Outlasted cfg.retention (newInvocation cfg now uuid claims new) := by
  intro b hb
  exact (timed_newInvocation hcfg now uuid claims new).binding b hb

variable {s : Server}

/-- What a step makes of the file, whatever the store. -/
theorem dated_step (hs : s.Sound) (hdated : ∀ r ∈ s.file, Dated now r) (cfg : InvocationStoreConfig)
    (hle : now ≤ st.now) : ∀ r ∈ (s.step cfg st).2.file, Dated st.now r := by
  intro r hr
  obtain ⟨survivors, added, hfile, hpass, hadds⟩ := step_passes cfg st hs
  rw [hfile, mem_append] at hr
  obtain hr | hr := hr
  · obtain ⟨r₀, hr₀, hchanges⟩ := hpass.source hr
    exact hchanges.dated ((hdated r₀ hr₀).mono hle)
  · cases hadds with
    | nothing => cases hr
    | created =>
      obtain rfl := mem_singleton.1 hr
      exact dated_newInvocation cfg st.now _ _ _

/-- An open store keeps its configuration, and what it writes. -/
theorem Guarded.outlasted_step (h : Guarded now cfg s) (hle : now ≤ st.now)
    (hopen : s.records.isSome = true) : ∀ r ∈ (s.step cfg st).2.file, Outlasted cfg.retention r := by
  intro r hr
  obtain ⟨survivors, added, hfile, hpass, hadds⟩ := step_passes cfg st h.toSound
  rw [hfile, mem_append] at hr
  obtain hr | hr := hr
  · obtain ⟨r₀, hr₀, hchanges⟩ := hpass.source hr
    exact hchanges.outlasted ((h.dated r₀ hr₀).mono hle) (h.outlasted hopen r₀ hr₀)
  · cases hadds with
    | nothing => cases hr
    | created =>
      obtain rfl := mem_singleton.1 hr
      exact outlasted_newInvocation h.accepted st.now _ _ _

/-- A closed store answers nothing until it is started. -/
theorem step_eq_of_closed (hclosed : s.records = none)
    (hop : ∀ started, st.op ≠ .restart started) : (s.step cfg st).2 = s := by
  unfold step
  cases hst : st.op with
  | restart started => exact absurd hst (hop started)
  | _ =>
    simp only [serve]
    rw [hclosed]

variable {file : List Invocation}

theorem tracked_loaded (husages : ∀ r ∈ file, r.HasValidUsage)
    (htracked : ∀ r ∈ file, Tracked r) (hr : r ∈ loaded now file) : Tracked r ∧ r.state.isTerminal = true := by
  unfold loaded at hr
  rw [map_congr_left fun r hr => readBack_of_hasValidUsage (husages r hr), map_id'] at hr
  obtain ⟨r₀, hr₀, rfl⟩ := mem_map.1 hr
  unfold interrupt
  split_ifs with hterminal
  · exact ⟨htracked r₀ hr₀, hterminal⟩
  · exact ⟨(htracked r₀ hr₀).interruptRecord now (by simpa using hterminal), rfl⟩

variable {started : Instant}

/-- A start that covers what it finds opens the store on records that its retention outlasts. -/
theorem outlasted_recovered (husages : ∀ r ∈ file, r.HasValidUsage) (htracked : ∀ r ∈ file, Tracked r)
    (hcovers : ∀ r ∈ loaded now file, ∀ b, r.idempotency = some b → b.isLive started = true →
      b.expiresAt.instant ≤ (r.completedAt.getD r.updatedAt).instant + cfg.retention) :
    ∀ r ∈ recovered cfg now started file, Outlasted cfg.retention r := by
  intro r hr b hb
  have hlive := isLive_of_mem_dropExpiredBindings hr b hb
  obtain ⟨r₀, hr₀, rfl⟩ := mem_map.1 hr
  have hmem : r₀ ∈ loaded now file := (mem_filter.1 hr₀).1
  obtain ⟨htr, hterminal⟩ := tracked_loaded husages htracked hmem
  obtain ⟨hsame, -⟩ | ⟨b', -, -, hdropped⟩ := dropExpiredBinding_cases started r₀
  · rw [hsame] at hb ⊢
    rw [htr.getD_completedAt hterminal r₀.createdAt r₀.updatedAt]
    exact hcovers r₀ hmem b hb hlive
  · rw [hdropped] at hb
    cases hb

theorem outlasted_restart (hs : s.Sound) (htracked : ∀ r ∈ s.file, Tracked r) (hop : st.op = .restart started)
    (hcovers : Deployment.Covers cfg st s.file)
    (hopen : (s.step cfg st).2.records.isSome = true) : ∀ r ∈ (s.step cfg st).2.file, Outlasted cfg.retention r := by
  have houtlasted := outlasted_recovered hs.usages htracked (hcovers started hop)
  unfold step at hopen ⊢
  rw [hop] at hopen ⊢
  simp only [restart] at hopen ⊢
  obtain ⟨e, he⟩ | ⟨report, hsame, hfile⟩ | ⟨report, hwrites⟩ :=
    openWithConfig_cases cfg st.now started st.persist hs.usages
  · rw [he] at hopen
    cases hopen
  · rw [hsame]
    rw [hfile] at houtlasted
    exact houtlasted
  · rw [hwrites]
    exact houtlasted

/-- **A step whose start covers what it finds keeps the file guarded.** -/
theorem Guarded.step {now : Instant} {cfg cfg' : InvocationStoreConfig} (h : Guarded now cfg s)
    (hle : now ≤ st.now) (haccepted : cfg'.Accepted) (hcovers : Deployment.Covers cfg' st s.file)
    (hconfig : (∀ started, st.op ≠ .restart started) → cfg' = cfg) : Guarded st.now cfg' (s.step cfg' st).2 := by
  refine ⟨h.toSound.step st, haccepted, dated_step h.toSound h.dated cfg' hle, fun hopen => ?_⟩
  by_cases hop : ∃ started, st.op = .restart started
  · obtain ⟨started, hop⟩ := hop
    exact outlasted_restart h.toSound (fun r hr => (h.dated r hr).tracked) hop hcovers hopen
  · have hop' : ∀ started, st.op ≠ .restart started := fun started heq => hop ⟨started, heq⟩
    obtain rfl := hconfig hop'
    cases hrecords : s.records with
    | none =>
      rw [step_eq_of_closed hrecords hop', hrecords] at hopen
      cases hopen
    | some records => exact h.outlasted_step hle (by rw [hrecords]; rfl)

variable {cfg' : InvocationStoreConfig} {w : Sweep}

/-- **A sweep of a guarded store spares the live bindings.** -/
theorem Guarded.sparesLive (h : Guarded now cfg s)
    (hcovers : Deployment.Covers cfg' st s.file) (hconfig : (∀ started, st.op ≠ .restart started) → cfg' = cfg)
    (hw : s.sweep cfg' st = some w) : w.SparesLive := by
  have hfile : ∀ clock records, s.records = some records → cfg' = cfg →
      (Sweep.mk cfg'.retention clock records).SparesLive := by
    rintro clock records hopen rfl r hr b hb hlive
    obtain rfl := h.toSound.records_eq hopen
    refine isKept_of_le (fun hterminal => ?_) hlive
    rw [(h.dated r hr).tracked.getD_completedAt hterminal r.updatedAt r.createdAt]
    exact h.outlasted (by rw [hopen]; rfl) r hr b hb
  unfold sweep at hw
  cases hop : st.op with
  | create claims new uuid =>
    rw [hop] at hw
    obtain ⟨records, hopen, hw⟩ := Option.bind_eq_some_iff.1 hw
    split_ifs at hw
    cases hw
    exact hfile st.now records hopen (hconfig fun started heq => by rw [hop] at heq; cases heq)
  | sweep clock =>
    rw [hop] at hw
    obtain ⟨records, hopen, rfl⟩ := Option.map_eq_some_iff.1 hw
    exact hfile clock records hopen (hconfig fun started heq => by rw [hop] at heq; cases heq)
  | restart started =>
    rw [hop] at hw
    cases hw
    exact fun r hr b hb hlive => isKept_of_le (fun _ => hcovers started hop r hr b hb hlive) hlive
  | _ =>
    rw [hop] at hw
    cases hw

/-! ### Runs -/

namespace Deployment

variable {e : Event}

theorem accepted_config (h : cfg.Accepted) (hconfig : e.config cfg = .ok cfg') : cfg'.Accepted := by
  cases e with
  | start lookup started now persist => exact InvocationStoreConfig.accepted_of_tryFromVars hconfig
  | serve st =>
    cases hconfig
    exact h

/-- The configuration changes at starts alone. -/
theorem config_eq (hconfig : e.config cfg = .ok cfg') (hop : ∀ started, e.step.op ≠ .restart started) : cfg' = cfg := by
  cases e with
  | start lookup started now persist => exact absurd rfl (hop started)
  | serve st => exact (Except.ok.inj hconfig).symm

theorem guarded_init (now : Instant) : Guarded now init.cfg init.server :=
  ⟨sound_init, @InvocationStoreConfig.accepted_of_tryFromVars (fun _ => none) _ rfl,
    fun _ h => (nomatch h), fun h => (nomatch h)⟩

variable {d : Deployment}

theorem guarded_step (h : Guarded now d.cfg d.server) (hle : now ≤ e.step.now)
    (hcovered : d.Covered e) : Guarded e.step.now (d.step e).cfg (d.step e).server := by
  unfold Deployment.step
  cases hconfig : e.config d.cfg with
  | ok cfg =>
    exact h.step hle (accepted_config h.accepted hconfig) (hcovered cfg hconfig) (config_eq hconfig)
  | error =>
    exact ⟨⟨.inl rfl, h.usages⟩, h.accepted, fun r hr => (h.dated r hr).mono hle, fun hopen => nomatch hopen⟩

theorem sparesLive_sweep (h : Guarded now d.cfg d.server) (hcovered : d.Covered e) : ∀ w ∈ d.sweep e, w.SparesLive := by
  intro w hw
  unfold Deployment.sweep at hw
  cases hconfig : e.config d.cfg with
  | ok cfg =>
    rw [hconfig] at hw
    exact h.sparesLive (hcovered cfg hconfig) (config_eq hconfig) hw
  | error =>
    rw [hconfig] at hw
    cases hw

/-- Every event of a run, with what it meets. -/
def Along (P : Deployment → Event → Prop) (d : Deployment) (events : List Event) : Prop :=
  ∀ i e, events[i]? = some e → P (d.run (events.take i)) e

variable {events : List Event}

theorem along_cons {P : Deployment → Event → Prop} : Along P d (e :: events) ↔ P d e ∧ Along P (d.step e) events := by
  constructor
  · exact fun h => ⟨h 0 e rfl, fun i e' he' => h (i + 1) e' he'⟩
  · rintro ⟨hhead, htail⟩ i e' he'
    cases i with
    | zero =>
      cases he'
      exact hhead
    | succ i => exact htail i e' he'

/-- No sweep of the run removes a record with a live binding. -/
def NeverSweepsLive (events : List Event) : Prop := Along (fun d e => ∀ w ∈ d.sweep e, w.SparesLive) init events

theorem sparesLive_of_guarded (hclock : Clocked (events.map Event.step))
    (h : Guarded now d.cfg d.server) (hnow : ∀ e ∈ events, now ≤ e.step.now) (hcovered : Along Covered d events) :
    Along (fun d e => ∀ w ∈ d.sweep e, w.SparesLive) d events := by
  induction events generalizing d now with
  | nil => exact fun i e he => nomatch he
  | cons e events ih =>
    obtain ⟨hhead, htail⟩ := along_cons.1 hcovered
    obtain ⟨hlater, hclock⟩ := pairwise_cons.1 hclock
    refine along_cons.2 ⟨sparesLive_sweep h hhead, ?_⟩
    refine ih hclock (guarded_step h (hnow e mem_cons_self) hhead) (fun e' he' => ?_) htail
    exact (hlater e'.step (mem_map_of_mem he')).1

/-- **In a run whose starts cover what they find, no sweep removes a record with a live binding.** -/
theorem sparesLive_run {events : List Event} (hclock : Clocked (events.map Event.step))
    (hcovered : Along Covered init events) : NeverSweepsLive events := by
  cases events with
  | nil => exact fun i e he => nomatch he
  | cons e events =>
    refine sparesLive_of_guarded hclock (guarded_init e.step.now) (fun e' he' => ?_) hcovered
    rcases mem_cons.1 he' with rfl | he'
    · exact le_refl _
    · exact ((pairwise_cons.1 hclock).1 e'.step (mem_map_of_mem he')).1

instance (cfg : InvocationStoreConfig) (st : Step) (file : List Invocation) : Decidable (Covers cfg st file) :=
  match h : st.op with
  | .restart started =>
    decidable_of_iff (∀ r ∈ loaded st.now file, ∀ b ∈ r.idempotency, b.isLive started = true →
      b.expiresAt.instant ≤ (r.completedAt.getD r.updatedAt).instant + cfg.retention)
      ⟨fun hall started' heq => by
        obtain rfl := Op.restart.inj (h.symm.trans heq)
        exact hall, fun hall => hall started h⟩
  | .create .. | .transition .. | .sweep _ | .get .. | .list .. | .find .. =>
    isTrue fun started heq => absurd (h.symm.trans heq) (by simp)

instance (d : Deployment) (e : Event) : Decidable (d.Covered e) :=
  match h : e.config d.cfg with
  | .ok cfg =>
    decidable_of_iff (Covers cfg e.step d.server.file)
      ⟨fun hall cfg' heq => by
        obtain rfl := Except.ok.inj (h.symm.trans heq)
        exact hall, fun hall => hall cfg h⟩
  | .error _ => isTrue fun cfg heq => absurd (h.symm.trans heq) (by simp)

/-- Variables with one set. -/
def setVar (key value : String) (k : String) : Option String := if k = key then some value else none

/-- A create with a key that lives for 168 hours, a cancel, and a start two days later with a retention of `days`. -/
def cancelAndRestart (retentionDays : String) : List Event :=
  [.start (setVar IDEMPOTENCY_TTL_ENV "168") 0 0 (.ok ()),
    .serve ⟨.create acme ⟨plainRequest, none, none, some ⟨"k", "f"⟩⟩ "a", 1000, .ok ()⟩,
    .serve ⟨.transition acme "inv_a" none .cancelled {}, 2000, .ok ()⟩,
    .start (setVar RETENTION_DAYS_ENV retentionDays) (days 2) (days 2) (.ok ())]

/-- With the same retention as before nothing is swept. -/
theorem sparesLive_run_cancelAndRestart : NeverSweepsLive (cancelAndRestart "7") :=
  sparesLive_run (by unfold Clocked; decide +kernel)
    (along_cons.2 ⟨by decide +kernel, along_cons.2 ⟨by decide +kernel, along_cons.2 ⟨by decide +kernel,
      along_cons.2 ⟨by decide +kernel, fun i e he => nomatch he⟩⟩⟩⟩)

theorem not_sparesLive_of_any
    (h : (w.records.any fun r => r.idempotency.any (·.isLive w.now) && !isKept w.retention w.now r) = true) :
    ¬w.SparesLive := by
  intro hspares
  obtain ⟨r, hr, hand⟩ := any_eq_true.1 h
  obtain ⟨hlive, hswept⟩ := Bool.and_eq_true_iff.1 hand
  obtain ⟨b, hb, hlive⟩ := (Option.any_eq_true _ _).1 hlive
  rw [hspares r hr b hb hlive] at hswept
  cases hswept

/-- **With a retention of one day the record is swept, and its binding is live for another five days.** -/
theorem not_neverSweepsLive_cancelAndRestart :
    Clocked ((cancelAndRestart "1").map Event.step) ∧ ¬NeverSweepsLive (cancelAndRestart "1") := by
  refine ⟨by unfold Clocked; decide +kernel, fun h => ?_⟩
  have hswept : ((init.run ((cancelAndRestart "1").take 3)).sweep
      (.start (setVar RETENTION_DAYS_ENV "1") (days 2) (days 2) (.ok ()))).any (fun w =>
        w.records.any fun r => r.idempotency.any (·.isLive w.now) && !isKept w.retention w.now r) = true := by
    decide +kernel
  obtain ⟨w, hw, hany⟩ := (Option.any_eq_true _ _).1 hswept
  exact not_sparesLive_of_any hany (h 3 _ rfl w hw)

end Deployment

end WildAgentOs.Invocations
