import WildAgentOs.Invocations.StoreSteps

/-!
# The lifecycle of a stored record

Over any run of creates, transitions, sweeps and restarts, with any clock and any failing writes.

* `Lifecycle`: the audit events are one path through the lifecycle graph, which ends where the
  record is;
* `Evolves`, `Wins`, `lifecycle_of_run`.
-/

namespace WildAgentOs.Invocations

open ListPass List Option InvocationState

/-! ### The path of the audit events -/

/-- The edge of restart recovery, which `permits_with` does not have. -/
structure IsRecovery (source next : InvocationState) (error : Option InvocationErrorInfo)
    (actorId : String) : Prop where
  isOpen : source.isTerminal = false
  failed : next = .failed
  interrupted : error = some interruptedError
  system : actorId = SYSTEM_ACTOR_ID

/-- An event comes directly after another; the error is the record's. -/
structure Follows (error : Option InvocationErrorInfo) (e e' : InvocationAuditEvent) : Prop where
  source : e'.fromState = some e.toState
  revision : e'.revision = e.revision + 1
  edge : e.toState.permitsWith e'.toState error = true ∨ IsRecovery e.toState e'.toState error e'.actorId

structure Lifecycle (r : Invocation) : Prop where
  starts : ∃ e, r.auditEvents.head? = some e ∧ e.fromState = none ∧ e.toState = .queued ∧ e.revision = 1
  path : r.auditEvents.IsChain (Follows r.error)
  ends : ∃ e, r.auditEvents.getLast? = some e ∧ e.toState = r.state ∧ e.revision = r.revision
  completed : r.completedAt.isSome = r.state.isTerminal

variable {error error' : Option InvocationErrorInfo}

namespace InvocationState

/-- The longest path to a state. -/
def rank : InvocationState → ℕ
  | queued => 1
  | running => 2
  | cancelRequested => 3
  | succeeded | failed | cancelled => 4

theorem rank_le (s : InvocationState) : s.rank ≤ 4 := by
  cases s <;> decide

variable {s s' : InvocationState}

theorem rank_lt_of_permits (h : s.permits s' = true) : s.rank < s'.rank := by
  cases s <;> cases s' <;> first | decide | cases h

theorem permitsWith_iff : s.permitsWith s' error = true ↔ s.permits s' = true ∨
      (s = queued ∧ s' = failed ∧ ∃ e, error = some e ∧ e.code ∈ preExecutionCodes) := by
  unfold permitsWith
  cases error <;> simp [and_assoc]

theorem isTerminal_of_permitsWith (h : s.permitsWith s' error = true) : s.isTerminal = false := by
  obtain hp | ⟨rfl, -, -⟩ := permitsWith_iff.1 h
  · exact not_isTerminal_of_permits hp
  · rfl

/-- An edge to an open state needs no error. -/
theorem permitsWith_of_open (h : s.permitsWith s' error = true) (hopen : s'.isTerminal = false) :
    s.permitsWith s' error' = true := by
  obtain hp | ⟨-, rfl, -⟩ := permitsWith_iff.1 h
  · exact permitsWith_iff.2 (.inl hp)
  · cases hopen

theorem rank_lt_of_permitsWith (h : s.permitsWith s' error = true) : s.rank < s'.rank := by
  obtain hp | ⟨rfl, rfl, -⟩ := permitsWith_iff.1 h
  · exact rank_lt_of_permits hp
  · decide

end InvocationState

variable {e e' : InvocationAuditEvent}

theorem Follows.isOpen (h : Follows error e e') : e.toState.isTerminal = false :=
  h.edge.elim isTerminal_of_permitsWith IsRecovery.isOpen

/-- The error matters for the last event of a terminal record alone. -/
theorem Follows.of_open (h : Follows error e e') (hopen : e'.toState.isTerminal = false) : Follows error' e e' := by
  refine ⟨h.source, h.revision, .inl ?_⟩
  obtain hedge | hrecovery := h.edge
  · exact permitsWith_of_open hedge hopen
  · rw [hrecovery.failed] at hopen
    cases hopen

theorem isChain_follows_of_open {events : List InvocationAuditEvent} (h : events.IsChain (Follows error))
    (hopen : ∀ e, events.getLast? = some e → e.toState.isTerminal = false) : events.IsChain (Follows error') := by
  induction h with
  | nil => exact .nil
  | singleton e => exact .singleton e
  | @cons_cons e e' events hfollows hchain ih =>
    refine .cons_cons (hfollows.of_open ?_) (ih fun e hlast => hopen e ?_)
    · cases events with
      | nil => exact hopen e' rfl
      | cons e'' events => exact (isChain_cons_cons.1 hchain).1.isOpen
    · rw [getLast?_cons_cons]
      exact hlast

/-! ### Changes keep the path -/

/-- A path has at most four events, so none is cut off and no revision saturates. -/
structure Tracked (r : Invocation) : Prop extends Lifecycle r where
  length_eq : r.auditEvents.length = r.revision
  revision_le : r.revision ≤ r.state.rank

variable {r : Invocation}

theorem Tracked.revision_lt (h : Tracked r) : r.revision ≤ 4 := h.revision_le.trans r.state.rank_le

theorem Tracked.saturatingSucc_revision (h : Tracked r) : saturatingSucc r.revision = r.revision + 1 := by
  have := h.revision_lt
  unfold saturatingSucc
  rw [if_pos (by omega)]

variable {event : InvocationAuditEvent}

/-- Nothing is cut off before the limit. -/
theorem pushAudit_auditEvents (h : r.auditEvents.length < MAX_AUDIT_EVENTS) :
    (r.pushAudit event).auditEvents = r.auditEvents ++ [event] := by
  unfold Invocation.pushAudit
  have : (r.auditEvents ++ [event]).length - MAX_AUDIT_EVENTS = 0 := by
    rw [length_append, length_singleton]
    omega
  simp only [this, drop_zero]

theorem tracked_newInvocation (cfg : InvocationStoreConfig) (now : Instant) (uuid : String)
    (claims : IsolationClaims) (new : NewInvocation) :
    Tracked (newInvocation cfg now uuid claims new) where
  starts := ⟨_, rfl, rfl, rfl, rfl⟩
  path := .singleton _
  ends := ⟨_, rfl, rfl, rfl⟩
  completed := rfl
  length_eq := rfl
  revision_le := le_refl 1

variable {r' : Invocation}

/-- One more event on the path of an open record. -/
theorem Tracked.extend (h : Tracked r) (hopen : r.state.isTerminal = false)
    (hevents : r'.auditEvents = r.auditEvents ++ [event]) (hsource : event.fromState = some r.state)
    (hstate : event.toState = r'.state) (heventRevision : event.revision = r.revision + 1)
    (hrevision : r'.revision = r.revision + 1) (hrank : r.state.rank < r'.state.rank)
    (hedge : r.state.permitsWith r'.state r'.error = true ∨ IsRecovery r.state r'.state r'.error event.actorId)
    (hcompleted : r'.completedAt.isSome = r'.state.isTerminal) : Tracked r' := by
  obtain ⟨first, hfirst, hstart⟩ := h.starts
  obtain ⟨last, hlast, hlastState, hlastRevision⟩ := h.ends
  refine ⟨⟨⟨first, ?_, hstart⟩, ?_, ⟨event, ?_, hstate, ?_⟩, hcompleted⟩, ?_, ?_⟩
  · rw [hevents, head?_append, hfirst, some_or]
  · have hpath : r.auditEvents.IsChain (Follows r'.error) := by
      refine isChain_follows_of_open h.path fun e he => ?_
      obtain rfl := some.inj (hlast.symm.trans he)
      rw [hlastState, hopen]
    rw [hevents]
    refine hpath.append (.singleton event) fun e he e' he' => ?_
    obtain rfl := some.inj (hlast.symm.trans he)
    obtain rfl : event = e' := by simpa using he'
    refine ⟨hsource.trans (by rw [hlastState]), by rw [heventRevision, hlastRevision], ?_⟩
    rw [hlastState, hstate]
    exact hedge
  · rw [hevents, getLast?_append, getLast?_singleton, some_or]
  · rw [heventRevision, hrevision]
  · rw [hevents, length_append, length_singleton, h.length_eq, hrevision]
  · have := h.revision_le
    omega

theorem Tracked.completedAt_eq_none (h : Tracked r) (hopen : r.state.isTerminal = false) : r.completedAt = none := by
  have := h.completed
  rw [hopen] at this
  exact isNone_iff_eq_none.1 (by simpa using this)

theorem Tracked.length_lt (h : Tracked r) : r.auditEvents.length < MAX_AUDIT_EVENTS := by
  rw [h.length_eq]
  exact lt_of_le_of_lt h.revision_lt (by decide)

theorem Tracked.applyTransition (h : Tracked r) (now : Instant) (actorId : String) {next : InvocationState}
    {patch : TransitionPatch} (hedge : r.state.permitsWith next patch.error = true) :
    Tracked (applyTransition now actorId next patch r) := by
  have hopen := isTerminal_of_permitsWith hedge
  refine h.extend hopen (pushAudit_auditEvents h.length_lt) rfl rfl h.saturatingSucc_revision
    h.saturatingSucc_revision (rank_lt_of_permitsWith hedge) (.inl ?_) ?_
  · -- The code of the patch's error is the code of the record's.
    refine permitsWith_iff.2 ?_
    refine (permitsWith_iff.1 hedge).imp_right ?_
    rintro ⟨hqueued, hfailed, e, he, hcode⟩
    refine ⟨hqueued, hfailed, InvocationErrorInfo.new e.code e.message, ?_, ?_⟩
    · rw [applyTransition_error, he, map_some, some_or]
    · rwa [InvocationErrorInfo.new_code]
  · rw [applyTransition_completedAt, applyTransition_state]
    cases hnext : next.isTerminal with
    | true => rfl
    | false => simp [h.completedAt_eq_none hopen]

theorem Tracked.interruptRecord (h : Tracked r) (now : Instant)
    (hopen : r.state.isTerminal = false) : Tracked (interruptRecord now r) := by
  refine h.extend hopen (pushAudit_auditEvents h.length_lt) rfl rfl h.saturatingSucc_revision
    h.saturatingSucc_revision ?_ (.inr ⟨hopen, rfl, rfl, rfl⟩) rfl
  rw [interruptRecord_state]
  revert hopen
  cases r.state <;> intro hopen <;> first | decide | cases hopen

variable {st : Step}

theorem Change.tracked (h : Change st r r') (hr : Tracked r) : Tracked r' := by
  cases h with
  | transition actorId _ _ hedge => exact hr.applyTransition st.now actorId hedge
  | interrupt hopen => exact hr.interruptRecord st.now hopen
  | unbind => exact ⟨⟨hr.starts, hr.path, hr.ends, hr.completed⟩, hr.length_eq, hr.revision_le⟩

theorem Changes.tracked (h : Changes st r r') (hr : Tracked r) : Tracked r' := by
  induction h with
  | refl => exact hr
  | tail _ hchange ih => exact hchange.tracked ih

/-! ### Identity -/

/-- What a record is later: the same one, and after its end with the same outcome. -/
structure Evolves (r r' : Invocation) : Prop where
  id_eq : r'.id = r.id
  revision_le : r.revision ≤ r'.revision
  settled : r.state.isTerminal = true → r'.state = r.state ∧ r'.revision = r.revision ∧
    r'.result = r.result ∧ r'.error = r.error

theorem Evolves.refl (r : Invocation) : Evolves r r := ⟨rfl, le_refl _, fun _ => ⟨rfl, rfl, rfl, rfl⟩⟩

theorem Evolves.trans {r'' : Invocation} (h : Evolves r r') (h' : Evolves r' r'') : Evolves r r'' := by
  refine ⟨h'.id_eq.trans h.id_eq, h.revision_le.trans h'.revision_le, fun hterminal => ?_⟩
  obtain ⟨hstate, hrevision, hresult, herror⟩ := h.settled hterminal
  obtain ⟨hstate', hrevision', hresult', herror'⟩ := h'.settled (by rw [hstate, hterminal])
  exact ⟨hstate'.trans hstate, hrevision'.trans hrevision, hresult'.trans hresult, herror'.trans herror⟩

theorem le_saturatingSucc (n : ℕ) : n ≤ saturatingSucc n := by
  unfold saturatingSucc
  split_ifs <;> omega

theorem Change.evolves (h : Change st r r') : Evolves r r' := by
  cases h with
  | transition actorId _ hopen _ =>
    exact ⟨rfl, le_saturatingSucc _, fun h => absurd (hopen.symm.trans h) (by decide)⟩
  | interrupt hopen =>
    exact ⟨rfl, le_saturatingSucc _, fun h => absurd (hopen.symm.trans h) (by decide)⟩
  | unbind => exact ⟨rfl, le_refl _, fun _ => ⟨rfl, rfl, rfl, rfl⟩⟩

theorem Changes.evolves (h : Changes st r r') : Evolves r r' := by
  induction h with
  | refl => exact .refl r
  | tail _ hchange ih => exact ih.trans hchange.evolves

/-- What steps make of a record. -/
def Descends : Invocation → Invocation → Prop := Relation.ReflTransGen fun r r' => ∃ st, Change st r r'

theorem Descends.refl (r : Invocation) : Descends r r := Relation.ReflTransGen.refl

theorem Changes.descends (h : Changes st r r') : Descends r r' := by
  induction h with
  | refl => exact .refl r
  | tail _ hchange ih => exact ih.tail ⟨st, hchange⟩

theorem Descends.evolves (h : Descends r r') : Evolves r r' := by
  induction h with
  | refl => exact .refl r
  | tail _ hchange ih => exact ih.trans hchange.choose_spec.evolves

/-- The UUID that a step draws. -/
def Step.uuid (st : Step) : Option String :=
  match st.op with
  | .create _ _ uuid => some uuid
  | _ => none

/-- No UUID is drawn twice. -/
def UuidsDistinct (steps : List Step) : Prop := (steps.filterMap Step.uuid).Nodup

instance (steps : List Step) : Decidable (UuidsDistinct steps) := inferInstanceAs (Decidable (List.Nodup _))

/-- An id that was drawn. -/
def IsDrawn (steps : List Step) (id : String) : Prop := ∃ uuid ∈ steps.filterMap Step.uuid, id = "inv_" ++ uuid

variable {steps : List Step} {id : String}

theorem IsDrawn.append_left (h : IsDrawn steps id) (later : List Step) : IsDrawn (steps ++ later) id := by
  obtain ⟨uuid, huuid, hid⟩ := h
  refine ⟨uuid, ?_, hid⟩
  rw [filterMap_append]
  exact mem_append_left _ huuid

variable {later : List Step}

/-- What is drawn later was not drawn before. -/
theorem UuidsDistinct.not_isDrawn (h : UuidsDistinct (steps ++ later)) (hlater : IsDrawn later id) :
    ¬IsDrawn steps id := by
  rintro ⟨uuid, huuid, hid⟩
  obtain ⟨uuid', huuid', hid'⟩ := hlater
  obtain rfl := String.append_right_inj "inv_" |>.1 (hid.symm.trans hid')
  unfold UuidsDistinct at h
  rw [filterMap_append] at h
  exact disjoint_of_nodup_append h huuid huuid'

theorem UuidsDistinct.left (h : UuidsDistinct (steps ++ later)) : UuidsDistinct steps := by
  unfold UuidsDistinct at h ⊢
  rw [filterMap_append] at h
  exact h.of_append_left

namespace Server

variable {cfg : InvocationStoreConfig}

/-- The record that a create adds is tracked, and its id is drawn by the step. -/
theorem Adds.spec {records survivors added : List Invocation} (h : Adds cfg st records survivors added) :
    (∀ r ∈ added, Tracked r ∧ IsDrawn [st] r.id) ∧ (added.map Invocation.id).Nodup := by
  cases h with
  | nothing => exact ⟨fun r h => (nomatch h), nodup_nil⟩
  | @created claims new uuid hop _ _ =>
    refine ⟨fun r hr => ?_, nodup_singleton _⟩
    obtain rfl := mem_singleton.1 hr
    refine ⟨tracked_newInvocation cfg st.now uuid claims new, uuid, ?_, rfl⟩
    have : st.uuid = some uuid := by
      unfold Step.uuid
      rw [hop]
    rw [filterMap_cons_some this]
    exact mem_cons_self

/-- **Every stored record is tracked**, after any run. -/
theorem tracked_run (cfg : InvocationStoreConfig) (steps : List Step) : ∀ r ∈ (init.run cfg steps).file, Tracked r := by
  induction steps using reverseRecOn with
  | nil => exact fun r h => nomatch h
  | append_singleton steps st ih =>
    intro r hr
    obtain ⟨survivors, added, hfile, hpass, hadds⟩ := step_passes cfg st (sound_run cfg steps)
    rw [run_append, run_cons, run_nil, hfile, mem_append] at hr
    obtain hr | hr := hr
    · obtain ⟨r₀, hr₀, hchanges⟩ := hpass.source hr
      exact hchanges.tracked (ih r₀ hr₀)
    · exact (hadds.spec.1 r hr).1

/-- Where a record of a later file comes from. -/
theorem descends_or_isDrawn (cfg : InvocationStoreConfig) (steps later : List Step) :
    ∀ r' ∈ (init.run cfg (steps ++ later)).file,
      (∃ r ∈ (init.run cfg steps).file, Descends r r') ∨ IsDrawn later r'.id := by
  induction later using reverseRecOn with
  | nil =>
    intro r' hr'
    rw [append_nil] at hr'
    exact .inl ⟨r', hr', .refl r'⟩
  | append_singleton later st ih =>
    intro r' hr'
    obtain ⟨survivors, added, hfile, hpass, hadds⟩ := step_passes cfg st (sound_run cfg (steps ++ later))
    rw [← append_assoc, run_append, run_cons, run_nil, hfile, mem_append] at hr'
    obtain hr' | hr' := hr'
    · obtain ⟨r₁, hr₁, hchanges⟩ := hpass.source hr'
      obtain ⟨r, hr, hdescends⟩ | hdrawn := ih r₁ hr₁
      · exact .inl ⟨r, hr, hdescends.trans hchanges.descends⟩
      · rw [hchanges.evolves.id_eq]
        exact .inr (hdrawn.append_left [st])
    · obtain ⟨uuid, huuid, hid⟩ := (hadds.spec.1 r' hr').2
      refine .inr ⟨uuid, ?_, hid⟩
      rw [filterMap_append]
      exact mem_append_right _ huuid

theorem isDrawn_of_mem (h : r ∈ (init.run cfg steps).file) : IsDrawn steps r.id :=
  (descends_or_isDrawn cfg [] steps r h).resolve_left fun ⟨_, h, _⟩ => nomatch h

theorem nodup_ids (h : UuidsDistinct steps) : ((init.run cfg steps).file.map Invocation.id).Nodup := by
  induction steps using reverseRecOn with
  | nil => exact nodup_nil
  | append_singleton steps st ih =>
    obtain ⟨survivors, added, hfile, hpass, hadds⟩ := step_passes cfg st (sound_run cfg steps)
    rw [run_append, run_cons, run_nil, hfile, map_append]
    refine nodup_append.2 ⟨?_, hadds.spec.2, ?_⟩
    · refine pairwise_map.2 (hpass.pairwise (pairwise_map.1 (ih h.left)) ?_)
      intro a _ b _ a' b' ha hb hne
      rwa [ha.evolves.id_eq, hb.evolves.id_eq]
    · rintro _ hmem _ hadded rfl
      obtain ⟨r, hr, hid⟩ := List.mem_map.1 hmem
      obtain ⟨r', hr', hid'⟩ := List.mem_map.1 hadded
      obtain ⟨r₀, hr₀, hchanges⟩ := hpass.source hr
      refine h.not_isDrawn (hadds.spec.1 r' hr').2 ?_
      rw [hid', ← hid, hchanges.evolves.id_eq]
      exact isDrawn_of_mem hr₀

theorem eq_of_id_eq (h : UuidsDistinct steps) (hr : r ∈ (init.run cfg steps).file)
    (hr' : r' ∈ (init.run cfg steps).file) (hid : r.id = r'.id) : r = r' :=
  inj_on_of_nodup_map (nodup_ids h) hr hr' hid

/-- **An id keeps its record.** -/
theorem descends_of_id_eq (h : UuidsDistinct (steps ++ later)) (hr : r ∈ (init.run cfg steps).file)
    (hr' : r' ∈ (init.run cfg (steps ++ later)).file) (hid : r'.id = r.id) : Descends r r' := by
  obtain ⟨r₀, hr₀, hdescends⟩ | hdrawn := descends_or_isDrawn cfg steps later r' hr'
  · rwa [eq_of_id_eq h.left hr hr₀ (hid.symm.trans hdescends.evolves.id_eq)]
  · rw [hid] at hdrawn
    exact absurd (isDrawn_of_mem hr) (h.not_isDrawn hdrawn)

/-! ### Runs -/

/-- A record is stored: in the file, or in the open store. -/
def Stores (s : Server) (r : Invocation) : Prop := r ∈ s.file ∨ ∃ records, s.records = some records ∧ r ∈ records

theorem Sound.stores_iff {s : Server} (h : s.Sound) : s.Stores r ↔ r ∈ s.file := by
  refine ⟨?_, .inl⟩
  rintro (hr | ⟨records, hrecords, hr⟩)
  · exact hr
  · exact h.records_eq hrecords ▸ hr

/-- A step of a run is a transition that passed a revision and has changed the record. -/
def Wins (cfg : InvocationStoreConfig) (steps : List Step) (i : ℕ) (id : String) (n : ℕ) : Prop :=
  ∃ st claims next patch invocation, steps[i]? = some st ∧ st.op = .transition claims id (some n) next patch ∧
    ((init.run cfg (steps.take i)).step cfg st).1 = .transition (.ok ⟨invocation, true⟩)

theorem selects_iff {claims : IsolationClaims} :
    selects claims id r = true ↔ r.id = id ∧ r.isInScope claims = true := by
  unfold selects
  rw [Bool.and_eq_true, decide_eq_true_iff]

/-- The winner finds the revision it passed, and leaves the next one. -/
theorem Wins.revision {i : ℕ} {n : ℕ} (h : Wins cfg steps i id n) :
    (∃ r ∈ (init.run cfg (steps.take i)).file, r.id = id ∧ r.revision = n) ∧
      ∃ r ∈ (init.run cfg (steps.take (i + 1))).file, r.id = id ∧ r.revision = n + 1 := by
  obtain ⟨st, claims, next, patch, invocation, hst, hop, hwon⟩ := h
  have hsound := sound_run cfg (steps.take i)
  rw [take_add_one, hst, toList_some, run_append, run_cons, run_nil]
  generalize hs : init.run cfg (steps.take i) = s at hwon hsound ⊢
  unfold step at hwon ⊢
  rw [hop] at hwon ⊢
  simp only at hwon ⊢
  unfold serve at hwon ⊢
  obtain hclosed | hopen := hsound.synced
  · rw [hclosed] at hwon
    cases hwon
  · rw [hopen] at hwon ⊢
    simp only [Outcome.transition.injEq] at hwon ⊢
    obtain ⟨e, he⟩ | ⟨current, -, -, hsame⟩ | ⟨current, -, hfind, -, hrevision, -, -, hwrites⟩ :=
      transitionOutcomeForClaims_cases st.now st.persist claims id (some n) next patch s.file
    · rw [he] at hwon
      cases hwon
    · rw [hsame] at hwon
      cases hwon
    · have hcurrent := mem_of_find?_eq_some hfind
      have hid : current.id = id := (selects_iff.1 (find?_some hfind)).1
      have htracked : Tracked current := tracked_run cfg (steps.take i) current (hs ▸ hcurrent)
      have hn : n = current.revision := hrevision n rfl
      refine ⟨⟨current, hcurrent, hid, hn.symm⟩, ?_⟩
      rw [hwrites]
      refine ⟨_, mem_replaceFirst_of_find? hfind, hid, ?_⟩
      rw [applyTransition_revision, htracked.saturatingSucc_revision, hn]

/-- **The lifecycle over whole runs.**  At every moment, every stored record is where its audit
events lead; a terminal record keeps its outcome for as long as it is stored; and of the writers that
passed the same expected revision at most one has changed the record. -/
theorem lifecycle_of_run (cfg : InvocationStoreConfig) (steps : List Step) (huuids : UuidsDistinct steps) :
    (∀ i r, (init.run cfg (steps.take i)).Stores r → Lifecycle r) ∧
    (∀ i j, i ≤ j → ∀ r r', (init.run cfg (steps.take i)).Stores r →
      (init.run cfg (steps.take j)).Stores r' → r'.id = r.id → r.state.isTerminal = true →
      r'.state = r.state ∧ r'.revision = r.revision ∧ r'.result = r.result ∧ r'.error = r.error) ∧
    (∀ i j id n, Wins cfg steps i id n → Wins cfg steps j id n → i = j) := by
  have hevolves : ∀ i j, i ≤ j → ∀ r ∈ (init.run cfg (steps.take i)).file,
      ∀ r' ∈ (init.run cfg (steps.take j)).file, r'.id = r.id → Evolves r r' := by
    intro i j hij r hr r' hr' hid
    obtain ⟨k, rfl⟩ := Nat.exists_eq_add_of_le hij
    rw [take_add] at hr'
    refine (descends_of_id_eq ?_ hr hr' hid).evolves
    rw [← take_add]
    have := huuids
    rw [← take_append_drop (i + k) steps] at this
    exact this.left
  refine ⟨fun i r hr => ?_, fun i j hij r r' hr hr' hid hterminal => ?_, fun i j id n hi hj => ?_⟩
  · exact (tracked_run cfg _ r ((sound_run cfg _).stores_iff.1 hr)).toLifecycle
  · exact (hevolves i j hij r ((sound_run cfg _).stores_iff.1 hr) r'
      ((sound_run cfg _).stores_iff.1 hr') hid).settled hterminal
  · -- The later of two winners would find the revision that the earlier one has left behind.
    have hlate : ∀ i j, i < j → Wins cfg steps i id n → ¬Wins cfg steps j id n := by
      intro i j hij hi hj
      obtain ⟨-, r, hr, hid, hrevision⟩ := hi.revision
      obtain ⟨⟨r', hr', hid', hrevision'⟩, -⟩ := hj.revision
      have := (hevolves (i + 1) j hij r hr r' hr' (hid'.trans hid.symm)).revision_le
      omega
    rcases lt_trichotomy i j with hij | hij | hij
    · exact absurd hj (hlate i j hij hi)
    · exact hij
    · exact absurd hi (hlate j i hij hj)

end Server

def acme : IsolationClaims := ⟨"acme", "p1", "ada", tenant_safe_acme, project_safe_p1, actor_safe_ada⟩

def plainRequest : InvocationRequest := ⟨none, none, none, none, none, none, none, []⟩

/-- Two writers race for revision 1; then the process restarts. -/
def twoWriters : List Step :=
  [⟨.restart 0, 0, .ok ()⟩, ⟨.create acme ⟨plainRequest, none, none, none⟩ "a", 0, .ok ()⟩,
    ⟨.transition acme "inv_a" (some 1) .running {}, 1000, .ok ()⟩,
    ⟨.transition acme "inv_a" (some 1) .cancelled {}, 1000, .ok ()⟩,
    ⟨.restart 2000, 2000, .ok ()⟩]

theorem Server.lifecycle_of_run_twoWriters :
    ((init.run ⟨days 7, 32, hours 24⟩ twoWriters).file.map fun r => (r.state, r.revision)) = [(.failed, 3)] ∧
    ∀ r, (init.run ⟨days 7, 32, hours 24⟩ twoWriters).Stores r → Lifecycle r :=
  ⟨by decide +kernel, (lifecycle_of_run _ twoWriters (by decide +kernel)).1 5⟩

end WildAgentOs.Invocations
