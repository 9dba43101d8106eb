import WildAgentOs.Invocations.Outcome

/-!
# Wakeups

Whether a scope of the bridge can get stuck: its tasks asleep, no notification on the way, and a slot
free for an invocation that is queued.

* `Alarm`;
* `Departing`: an id that has left the queue, or leaves it with a notification;
* `Watchful`: what tasks rely on at their places, `watchful_run`;
* `Stuck`, `Strands`;
* `not_stuck_run`, and the run `cancelledHead`, which gets stuck.
-/

namespace WildAgentOs.Invocations

open Interleaving ListPass List RunningScope System Thread InvocationState FifoRunningSlots

/-! ### Steps without disturbance -/

/-- Writes succeed, and nothing that a task awaits panics. -/
def Action.IsUndisturbed : Action → Prop
  | .run _ env => env.persist = .ok () ∧ env.panics = false
  | _ => True

variable {env : Env} {sh : Shared} {id : String} {claims : IsolationClaims}

/-- A write that the queue permits takes the id out of it. -/
theorem Shared.notQueued_of_write {next : InvocationState} {patch : TransitionPatch} (hpersist : env.persist = .ok ())
    (hvalid : patch.IsValid) (hedge : queued.permitsWith next patch.error = true)
    (hnodup : (sh.records.map (·.id)).Nodup) (hselects : ∀ r ∈ sh.records, r.id = id → selects claims id r = true) :
    NotQueued (sh.transition env claims id none next patch).2 id := by
  have hnext : next ≠ .queued := by
    rintro rfl
    simp [permitsWith, permits] at hedge
  unfold Shared.transition transitionOutcomeForClaims
  rw [hvalid, hpersist]
  cases hfind : sh.records.find? (Invocations.selects claims id) with
  | none =>
    -- There is no such record.
    intro r hr hid
    exact absurd (hselects r hr hid) (find?_eq_none.1 hfind r hr)
  | some current =>
    have hmem := mem_of_find?_eq_some hfind
    have hcurrent := (selects_iff.1 (by simpa using find?_some hfind)).1
    have hone : ∀ r ∈ sh.records, r.id = id → r = current := fun r hr hid =>
      inj_on_of_nodup_map hnodup hr hmem (hid.trans hcurrent.symm)
    simp only [Option.any_none, Bool.false_eq_true, if_false]
    split_ifs with hsame hrefused
    · intro r hr hid
      rw [hone r hr hid, hsame]
      exact hnext
    · intro r hr hid hqueued
      rw [hone r hr hid] at hqueued
      simp [hqueued, hedge, isTerminal] at hrefused
    · intro r hr hid
      obtain rfl | ⟨-, hne⟩ := mem_replaceFirst hfind hnodup hr
      · exact hnext
      · exact absurd (hid.trans hcurrent.symm) hne

/-- A failure before the executor run, which the queue permits. -/
def Failure.IsEarly (f : Failure) : Prop := f.code ∈ InvocationState.preExecutionCodes ∧ f.usage = none

theorem isEarly_failPreExecution {code : String} (h : code ∈ preExecutionCodes)
    (message : String) : (failPreExecution code message).IsEarly := ⟨h, rfl⟩

variable {inv : Invocation} {t : Thread}

/-- A failure that is done with has taken the id out of the queue, if it was in it. -/
theorem Failure.notQueued_step {f : Failure} (hf : f.IsEarly) (hpersist : env.persist = .ok ()) {known : List String}
    {m : Bridge} (hw : m.Wired known) (ht : t ∈ m.threads) (hinv : t.invocation = some inv) {pc : FailPc}
    (hdone : (f.step env inv m.shared pc).1 = none) : NotQueued (f.step env inv m.shared pc).2 inv.id := by
  obtain ⟨claims, hclaims⟩ := hw.claims t ht inv hinv
  have hselects : ∀ r ∈ m.shared.records, r.id = inv.id → selects claims inv.id r = true :=
    fun r hr hid => hw.selects ht hinv hclaims hr hid
  cases pc with
  | read =>
    simp only [Failure.step, hclaims, getForClaims] at hdone ⊢
    cases hfind : m.shared.records.find? (selects claims inv.id) with
    | none =>
      rw [hfind] at hdone
      intro r hr hid
      exact absurd (hselects r hr hid) (find?_eq_none.1 hfind r hr)
    | some current =>
      rw [hfind] at hdone
      simp only at hdone ⊢
      split_ifs at hdone with hterminal
      rw [if_pos hterminal]
      have hcurrent := (selects_iff.1 (by simpa using find?_some hfind)).1
      intro r hr hid hqueued
      rw [hw.eq_of_id_eq hr (mem_of_find?_eq_some hfind) (hid.trans hcurrent.symm)] at hqueued
      rw [hqueued] at hterminal
      cases hterminal
  | write =>
    simp only [Failure.step, hclaims]
    refine Shared.notQueued_of_write hpersist ?_ ?_ hw.nodup hselects
    · simp [TransitionPatch.IsValid, TransitionPatch.usage, Failure.patch, hf.2]
    · simp [permitsWith, Failure.patch, hf.1]

/-! ### Notifications -/

/-- Places of the admission loop that have subscribed. -/
def AdmitPc.seen : AdmitPc → Option ℕ
  | .readState seen | .checkToken seen | .readAdmitted seen | .readOldest seen _ => some seen
  | .tryAdmit seen | .asleep seen => some seen
  | _ => none

/-- A thread that is to notify does so, or still is to. -/
theorem Thread.willNotify_step (t : Thread) (env : Env) (sh : Shared) (h : t.willNotify = true) :
    (t.step env sh).thread.willNotify = true ∨ (t.step env sh).shared.notified = sh.notified + 1 := by
  unfold willNotify at h
  split at h
  · exact .inr rfl
  · exact .inr rfl
  · exact .inr rfl
  · exact .inr rfl
  · exact .inl rfl
  next inv pc =>
    refine .inl ?_
    simp only [step, WatcherPc.step]
    cases (deadlineFailure.step env inv sh pc).1 <;> rfl
  · exact .inr rfl
  · cases h

variable {seen : ℕ} {sh sh' : Shared}

theorem AdmitPc.Next.seen_le {pc pc' : AdmitPc} (h : pc.Next env inv sh (.admitting pc') sh')
    (hle : ∀ seen, pc.seen = some seen → seen ≤ sh.notified) (hseen : pc'.seen = some seen) : seen ≤ sh.notified := by
  cases h with
  | subscribe => exact (Option.some.inj hseen).ge
  | admitted => cases hseen
  | due => cases hseen
  | woken => cases hseen
  | backstop => cases hseen
  | _ => exact hle seen hseen

/-- Whoever takes a slot, or frees one, is to notify. -/
theorem Thread.slots_step (env : Env) (sh : Shared) (t : Thread) :
    (t.step env sh).shared.slots = sh.slots ∨ (t.step env sh).thread.willNotify = true := by
  have heffect := t.effect_step env sh
  generalize hsh : (t.step env sh).shared = sh' at heffect ⊢
  cases heffect with
  | @admission inv seen ht =>
    subst ht
    cases hok : (sh.slots.tryAdmit (fromInvocation inv) inv.id).1 with
    | false => exact .inl (isFull_of_tryAdmit hok).2.2
    | true => exact .inr (by simp [step, AdmitPc.step, hok, willNotify])
  | @release inv pc ht hpc =>
    subst ht
    by_cases hid : inv.id ∈ sh.slots.admittedIds
    · obtain ⟨scope, hlookup⟩ := mem_admittedIds_iff.1 hid
      refine .inr ?_
      rcases hpc with rfl | rfl <;>
        simp [step, LeavePc.step, release, hlookup, willNotify]
    · exact .inl (by rw [release_of_not_mem hid])
  | _ => exact .inl rfl

theorem Effect.notified_le (h : Effect env sh t sh') : sh.notified ≤ sh'.notified := by
  cases h with
  | notify => exact Nat.le_succ _
  | _ => exact le_rfl

theorem Effect.shutdown_eq (h : Effect env sh t sh') : sh'.shutdown = sh.shutdown := by
  cases h <;> rfl

/-- A thread of the scope that is not done, nor asleep with nothing to wake it. -/
def Thread.isUp (sh : Shared) (scope : RunningScope) : Thread → Bool
  | creator inv => RunningScope.fromInvocation inv = scope
  | task inv pc => RunningScope.fromInvocation inv = scope &&
    match pc with
    | .leave .done => false
    | .admitting (.asleep seen) => seen ≠ sh.notified || sh.isCancelled inv.id
    | _ => true
  | _ => false

variable {scope : RunningScope}

theorem Thread.isUp_of_holdsSlot {pc : TaskPc} (h : pc.holdsSlot = true)
    (hscope : fromInvocation inv = scope) : (task inv pc).isUp sh scope = true := by
  unfold TaskPc.holdsSlot at h
  split at h
  case h_5 => cases h
  all_goals simp [isUp, hscope]

/-- A cancel request that is being handled. -/
def Thread.isCancel : Thread → Bool
  | cancel _ _ => true
  | _ => false

/-- The owner of an id of the scope that is not up. -/
theorem Thread.eq_of_not_isUp (howner : t.owner = some id)
    (hinv : t.invocation = some inv) (hscope : fromInvocation inv = scope) (h : t.isUp sh scope = false) :
    ∃ pc, t = .task inv pc ∧ (pc = .leave .done ∨ ∃ seen, pc = .admitting (.asleep seen) ∧ seen = sh.notified) := by
  rcases t with _ | ⟨inv', pc⟩ | _ | _
  · cases hinv
    simp [isUp, hscope] at h
  · cases hinv
    refine ⟨pc, rfl, ?_⟩
    simp only [isUp, hscope, decide_true, Bool.true_and] at h
    split at h
    · exact .inl rfl
    next seen =>
      refine .inr ⟨seen, rfl, ?_⟩
      simp only [Bool.or_eq_false_iff, decide_eq_false_iff_not, not_not] at h
      exact h.1
    · cases h
  · cases howner
  · cases howner

namespace Bridge

variable {cfg : InvocationStoreConfig} {known : List String} {m : Bridge} {a : Action}

theorem notified_le_step (cfg : InvocationStoreConfig) (m : Bridge) (a : Action) :
    m.shared.notified ≤ (m.step cfg a).shared.notified := by
  cases a with
  | create claims new uuid now persist =>
    simp only [step]
    obtain h | h := create_cases cfg now persist claims new uuid m <;> rw [h]
  | cancel req => exact le_rfl
  | shutdown => exact le_rfl
  | signal i =>
    simp only [step, signal]
    split
    · split_ifs <;> exact le_rfl
    · exact le_rfl
  | run i env =>
    simp only [step]
    cases hi : m.threads[i]? with
    | none => rw [stepAt_of_none hi]
    | some t =>
      rw [stepAt_of_some hi]
      exact (t.effect_step env m.shared).notified_le

theorem shutdown_step (h : m.shared.shutdown = true) : (m.step cfg a).shared.shutdown = true := by
  cases a with
  | create claims new uuid now persist =>
    simp only [step]
    obtain h' | h' := create_cases cfg now persist claims new uuid m
    · rwa [h']
    · rwa [h']
  | cancel req => exact h
  | shutdown => rfl
  | signal i =>
    simp only [step, signal]
    split
    · rw [if_pos h]
      exact h
    · exact h
  | run i env =>
    simp only [step]
    cases hi : m.threads[i]? with
    | none => rwa [stepAt_of_none hi]
    | some t =>
      rw [stepAt_of_some hi, shared_advance, (t.effect_step env m.shared).shutdown_eq]
      exact h

/-- A thread is still there, or it is the one that moves. -/
theorem exists_thread_step (cfg : InvocationStoreConfig) (a : Action) {Q : Thread → Prop} (h : ∃ t ∈ m.threads, Q t) :
    (∃ t ∈ (m.step cfg a).threads, Q t) ∨ ∃ i env t, a = .run i env ∧ m.threads[i]? = some t ∧ Q t := by
  obtain ⟨t, ht, hQ⟩ := h
  have hkept : ∀ l, t ∈ m.threads ++ l := fun l => mem_append_left l ht
  cases a with
  | create claims new uuid now persist =>
    refine .inl ⟨t, ?_, hQ⟩
    simp only [step]
    obtain h' | h' := create_cases cfg now persist claims new uuid m <;> rw [h']
    · exact ht
    · exact hkept _
  | cancel req => exact .inl ⟨t, hkept _, hQ⟩
  | shutdown => exact .inl ⟨t, ht, hQ⟩
  | signal i =>
    refine .inl ⟨t, ?_, hQ⟩
    simp only [step, signal]
    split
    · split_ifs <;> exact ht
    · exact ht
  | run i env =>
    simp only [step]
    cases hi : m.threads[i]? with
    | none =>
      rw [stepAt_of_none hi]
      exact .inl ⟨t, ht, hQ⟩
    | some u =>
      rw [stepAt_of_some hi]
      exact (exists_advance _ hi ⟨t, ht, hQ⟩).imp_right fun hu => ⟨i, env, u, rfl, hi, hu⟩

/-- A notification has come since, or is on the way. -/
def Alarm (m : Bridge) (seen : ℕ) : Prop :=
  seen < m.shared.notified ∨ m.shared.shutdown = true ∨ ∃ t ∈ m.threads, t.willNotify = true

/-- **A notification is not lost.** -/
theorem alarm_step (hseen : seen ≤ m.shared.notified) (h : Alarm m seen) : Alarm (m.step cfg a) seen := by
  obtain hlt | hshutdown | hnotifier := h
  · exact .inl (hlt.trans_le (notified_le_step cfg m a))
  · exact .inr (.inl (shutdown_step hshutdown))
  · obtain h | ⟨i, env, t, rfl, hi, ht⟩ := exists_thread_step cfg a hnotifier
    · exact .inr (.inr h)
    · simp only [step, stepAt_of_some hi]
      obtain hwill | hnotified := t.willNotify_step env m.shared ht
      · exact .inr (.inr ⟨_, thread_mem_advance hi, hwill⟩)
      · refine .inl ?_
        rw [shared_advance, hnotified]
        omega

/-- An id that is not queued, or whose watcher takes it out of the queue and then notifies. -/
def Departing (m : Bridge) (id : String) : Prop :=
  m.shared.shutdown = true ∨ NotQueued m.shared id ∨
    ∃ t ∈ m.threads, ∃ inv pc, t = .watcher inv (.fail pc) ∧ inv.id = id

theorem departing_step (hw : Wired known m) (ha : a.IsUndisturbed) (hid : id ∈ known)
    (hfresh : ∀ id ∈ a.drawn, id ∉ known) (h : Departing m id) : Departing (m.step cfg a) id := by
  obtain hshutdown | hnot | hwatcher := h
  · exact .inl (shutdown_step hshutdown)
  · exact .inr (.inl (notQueued_step hid hfresh hnot))
  · obtain h | ⟨i, env, t, rfl, hi, inv, pc, rfl, rfl⟩ := exists_thread_step cfg a hwatcher
    · exact .inr (.inr h)
    · simp only [step, stepAt_of_some hi]
      cases hpc : (deadlineFailure.step env inv m.shared pc).1 with
      | none =>
        refine .inr (.inl ?_)
        exact Failure.notQueued_step (isEarly_failPreExecution (by decide) _) ha.1 hw
          (mem_of_getElem? hi) rfl hpc
      | some pc' =>
        refine .inr (.inr ⟨_, thread_mem_advance hi, inv, pc', ?_, rfl⟩)
        simp only [Thread.step, WatcherPc.step, hpc, Option.elim_some]

/-! ### What waits -/

/-- Queued, and without a slot. -/
def Waits (sh : Shared) (r : Invocation) : Prop := r ∈ sh.records ∧ r.state = .queued ∧ r.id ∉ sh.slots.admittedIds

/-- An older one of the scope waits. -/
def Behind (sh : Shared) (inv : Invocation) : Prop :=
  ∃ r, Waits sh r ∧ RunningScope.fromInvocation r = RunningScope.fromInvocation inv ∧ age r < age inv

/-- The oldest of its scope that waits. -/
def IsHead (sh : Shared) (r : Invocation) : Prop :=
  Waits sh r ∧ ∀ r', Waits sh r' → RunningScope.fromInvocation r' = RunningScope.fromInvocation r → age r ≤ age r'

variable {r : Invocation}

theorem exists_isHead (hr : Waits sh r) :
    ∃ head, IsHead sh head ∧ fromInvocation head = fromInvocation r ∧ age head ≤ age r := by
  have hmem : ∀ x, x ∈ sh.records.filter (fun x => x.state = .queued && !sh.slots.admittedIds.contains x.id
      && fromInvocation x = fromInvocation r) ↔
      Waits sh x ∧ fromInvocation x = fromInvocation r := by
    intro x
    simp [Waits, and_assoc]
  obtain ⟨head, hhead⟩ := exists_oldest ((hmem r).2 ⟨hr, rfl⟩)
  obtain ⟨hin, hmin⟩ := oldest_spec hhead
  obtain ⟨hwaits, hscope⟩ := (hmem head).1 hin
  refine ⟨head, ⟨hwaits, fun x hx hxscope => ?_⟩, hscope, hmin r ((hmem r).2 ⟨hr, rfl⟩)⟩
  exact hmin x ((hmem x).2 ⟨hx, hxscope.trans hscope⟩)

variable {r' : Invocation}

theorem age_of_continues (h : Continues r r') : age r' = age r := by
  unfold age
  rw [h.createdAt_eq, h.id_eq]

theorem scope_of_continues (h : Continues r r') : fromInvocation r' = fromInvocation r := by
  unfold fromInvocation
  rw [h.tenantId_eq, h.projectId_eq]

theorem slots_step (cfg : InvocationStoreConfig) (m : Bridge) (a : Action) :
    (m.step cfg a).shared.slots = m.shared.slots ∨ ∃ t ∈ (m.step cfg a).threads, t.willNotify = true := by
  cases a with
  | create claims new uuid now persist =>
    simp only [step]
    obtain h | h := create_cases cfg now persist claims new uuid m <;> rw [h] <;> exact .inl rfl
  | cancel req => exact .inl rfl
  | shutdown => exact .inl rfl
  | signal i =>
    simp only [step, signal]
    split
    · split_ifs <;> exact .inl rfl
    · exact .inl rfl
  | run i env =>
    simp only [step]
    cases hi : m.threads[i]? with
    | none =>
      rw [stepAt_of_none hi]
      exact .inl rfl
    | some t =>
      rw [stepAt_of_some hi]
      refine (Thread.slots_step env m.shared t).imp_right fun hwill => ?_
      exact ⟨_, thread_mem_advance hi, hwill⟩

/-- **Where the ledger changes, a notification is on the way.** -/
theorem full_step (h : m.shared.slots.isFull scope = true) (seen : ℕ) :
    Alarm (m.step cfg a) seen ∨ (m.step cfg a).shared.slots.isFull scope = true := by
  obtain hsame | hwill := slots_step cfg m a
  · exact .inr (by rwa [hsame])
  · exact .inl (.inr (.inr hwill))

/-! ### What tasks rely on -/

/-- What a thread relies on at its place; `known` has the ids so far. -/
def Relies (known : List String) (m : Bridge) : Thread → Prop
  | .task inv (.admitting (.readOldest seen admitted)) =>
    inv.id ∉ admitted ∧ ∀ id ∈ m.shared.slots.admittedIds, id ∉ admitted → Alarm m seen
  | .task inv (.admitting (.asleep seen)) =>
    NotQueued m.shared inv.id ∨ Alarm m seen ∨
      m.shared.slots.isFull (RunningScope.fromInvocation inv) = true ∨ Behind m.shared inv
  | .task inv (.admitting (.backstop _)) => Departing m inv.id
  | .task inv (.run (.fail failure _)) => NotQueued m.shared inv.id ∨ failure.IsEarly
  | .task inv (.leave _) => Departing m inv.id
  | .cancel _ (.write _ target) => target = .cancelled ∨ target = .cancelRequested
  | .cancel req (.cancelToken _) => req.id ∈ known ∧ NotQueued m.shared req.id
  | _ => True

theorem Relies.mono (h : Relies known m t) {known' : List String}
    (hknown : ∀ id ∈ known, id ∈ known') : Relies known' m t := by
  rcases t with inv | ⟨inv, _ | pc | pc | pc⟩ | ⟨inv, pc⟩ | ⟨req, pc⟩
  · trivial
  · trivial
  · cases pc <;> exact h
  · cases pc <;> exact h
  · exact h
  · trivial
  · cases pc with
    | cancelToken r => exact ⟨hknown _ h.1, h.2⟩
    | _ => exact h

structure Watchful (known : List String) (m : Bridge) : Prop where
  seen_le : ∀ t ∈ m.threads, ∀ inv pc, t = .task inv (.admitting pc) → ∀ seen, pc.seen = some seen →
    seen ≤ m.shared.notified
  cancelled : ∀ id ∈ m.shared.cancelled, id ∈ known ∧ Departing m id
  live : ∀ r ∈ m.shared.records, r.state = .queued → ∃ t ∈ m.threads, t.owner = some r.id
  relies : ∀ t ∈ m.threads, Relies known m t

/-- An id that is queued and departs has an alarm with it. -/
theorem alarm_of_departing (hr : r ∈ m.shared.records) (hqueued : r.state = .queued) (h : Departing m r.id) (seen : ℕ) :
    Alarm m seen := by
  obtain hshutdown | hnot | ⟨t, ht, inv, pc, rfl, -⟩ := h
  · exact .inr (.inl hshutdown)
  · exact absurd hqueued (hnot r hr rfl)
  · exact .inr (.inr ⟨_, ht, rfl⟩)

/-- **What waits goes on waiting**, or sets off an alarm, or is taken out of the queue by a cancel
request. -/
theorem waits_step (cfg : InvocationStoreConfig) (a : Action) (hheld : Held m) (hwatch : Watchful known m)
    (hr : Waits m.shared r) :
    (∃ r', Waits (m.step cfg a).shared r' ∧ Continues r r') ∨
    (∀ seen, seen ≤ m.shared.notified → Alarm (m.step cfg a) seen) ∨
    ∃ i env req attempts, a = .run i env ∧ m.threads[i]? = some (.cancel req (.write attempts .cancelled)) ∧
      selects req.claims req.id r = true ∧ ∀ n, req.expectedRevision = some n → n = r.revision := by
  obtain ⟨hmem, hqueued, hid⟩ := hr
  obtain ⟨survivors, added, hrecords, hpass, -⟩ := step_passes cfg m a
  -- It keeps to the queue, and gets a slot at most.
  have hstays : ∀ r' ∈ survivors, r'.state = .queued → Continues r r' →
      (∃ r', Waits (m.step cfg a).shared r' ∧ Continues r r') ∨
        ∀ seen, seen ≤ m.shared.notified → Alarm (m.step cfg a) seen := by
    intro r' hr' hqueued' hcontinues
    obtain hsame | hwill := slots_step cfg m a
    · refine .inl ⟨r', ⟨?_, hqueued', ?_⟩, hcontinues⟩
      · rw [hrecords]
        exact mem_append_left _ hr'
      · rw [hsame, hcontinues.id_eq]
        exact hid
    · exact .inr fun seen _ => .inr (.inr hwill)
  obtain hterminal | ⟨r', hr', hmoves⟩ := hpass.fate hmem
  · rw [hqueued] at hterminal
    cases hterminal
  cases hmoves with
  | same => exact (hstays r hr' hqueued (.refl r)).imp_right .inl
  | unbind => exact (hstays _ hr' hqueued ⟨rfl, rfl, rfl, rfl, rfl, rfl⟩).imp_right .inl
  | @write i env t claims id expectedRevision next patch _ ha ht hrequests _ hselects hrevision _ hedge =>
    have htmem : t ∈ m.threads := mem_of_getElem? ht
    have hrid := (selects_iff.1 hselects).1
    -- Whoever holds the slot of the id.
    have hholds : t.owner = some id → t.holdsSlot = true → False := by
      intro howner hholds
      exact hid (hrid ▸ (hheld.booked t htmem id howner).slot.2 hholds)
    have halarm : (∀ seen, Alarm m seen) → ∀ seen, seen ≤ m.shared.notified → Alarm (m.step cfg a) seen :=
      fun h seen hseen => alarm_step hseen (h seen)
    cases hrequests with
    | backstop =>
      have hdeparting : Departing m r.id := hrid ▸ hwatch.relies _ htmem
      exact .inr (.inl (halarm (alarm_of_departing hmem hqueued hdeparting)))
    | enterRunning => exact (hholds rfl rfl).elim
    | fail => exact (hholds rfl rfl).elim
    | cancelled => exact (hholds rfl rfl).elim
    | succeeded => exact (hholds rfl rfl).elim
    | deadline => exact .inr (.inl (halarm fun _ => .inr (.inr ⟨_, htmem, rfl⟩)))
    | @cancel req attempts =>
      have htarget : next = .cancelled ∨ next = .cancelRequested := hwatch.relies _ htmem
      obtain rfl | rfl := htarget
      · exact .inr (.inr ⟨i, env, req, attempts, ha, ht, hselects, hrevision⟩)
      · rw [hqueued] at hedge
        cases hedge

/-- **The step that strands a scope**: a cancel request is about to take the head out of the queue,
while a slot is free and a peer sleeps with no notification on the way. -/
structure Strands (m : Bridge) (i : ℕ) (req : CancelRequest) (attempts : ℕ) (head inv : Invocation)
    (seen : ℕ) : Prop where
  thread : m.threads[i]? = some (.cancel req (.write attempts .cancelled))
  selects : selects req.claims req.id head = true
  revision : ∀ n, req.expectedRevision = some n → n = head.revision
  isHead : IsHead m.shared head
  room : m.shared.slots.isFull (RunningScope.fromInvocation head) = false
  scope_eq : RunningScope.fromInvocation inv = RunningScope.fromInvocation head
  asleep : .task inv (.admitting (.asleep seen)) ∈ m.threads
  peer : ∃ r ∈ m.shared.records, r.id = inv.id ∧ r.state = .queued ∧ r.id ≠ head.id
  quiet : ¬Alarm m seen

/-- The action does not strand a scope. -/
def Spares (m : Bridge) (a : Action) : Prop :=
  ∀ i env, a = .run i env → ∀ req attempts head inv seen, ¬Strands m i req attempts head inv seen

/-- A task that sleeps has a reason to, until it is woken. -/
theorem asleep_step (hw : Wired known m) (hheld : Held m) (hwatch : Watchful known m)
    (hfresh : ∀ id ∈ a.drawn, id ∉ known) (hspares : Spares m a)
    (ht : task inv (.admitting (.asleep seen)) ∈ m.threads) :
    Relies known (m.step cfg a) (.task inv (.admitting (.asleep seen))) := by
  have hseen : seen ≤ m.shared.notified := hwatch.seen_le _ ht inv _ rfl seen rfl
  have hknown : inv.id ∈ known := hw.thread_known _ ht inv rfl
  obtain hnot | halarm | hfull | ⟨r, hr, hscope, hage⟩ := hwatch.relies _ ht
  · exact .inl (notQueued_step hknown hfresh hnot)
  · exact .inr (.inl (alarm_step hseen halarm))
  · exact .inr ((full_step hfull seen).imp_right .inl)
  · obtain ⟨head, hhead, hheadScope, hheadAge⟩ := exists_isHead hr
    obtain ⟨r', hr', hcontinues⟩ | halarm | ⟨i, env, req, attempts, ha, hi, hselects, hrevision⟩ :=
      waits_step cfg a hheld hwatch hhead.1
    · refine .inr (.inr (.inr ⟨r', hr', ?_, ?_⟩))
      · rw [scope_of_continues hcontinues, hheadScope, hscope]
      · rw [age_of_continues hcontinues]
        exact hheadAge.trans_lt hage
    · exact .inr (.inl (halarm seen hseen))
    · -- The head is cancelled: then the step has one of the other reasons left.
      by_cases hnot : NotQueued m.shared inv.id
      · exact .inl (notQueued_step hknown hfresh hnot)
      by_cases halarm : Alarm m seen
      · exact .inr (.inl (alarm_step hseen halarm))
      cases hfull : m.shared.slots.isFull (fromInvocation inv) with
      | true => exact .inr ((full_step hfull seen).imp_right .inl)
      | false =>
        have hscope' : fromInvocation head = fromInvocation inv := hheadScope.trans hscope
        unfold NotQueued at hnot
        push Not at hnot
        obtain ⟨self, hself, hselfId, hselfQueued⟩ := hnot
        refine absurd ⟨hi, hselects, hrevision, hhead, by rwa [hscope'], hscope'.symm, ht,
          ⟨self, hself, hselfId, hselfQueued, fun heq => ?_⟩, halarm⟩
          (hspares i env ha req attempts head inv seen)
        -- The head is older.
        have hsame := hw.eq_of_id_eq hself hhead.1.1 heq
        have hcontinues := hw.continues _ ht inv rfl self hself hselfId
        have hage' := age_of_continues hcontinues
        rw [hsame] at hage'
        exact absurd (hage' ▸ hheadAge.trans_lt hage) (lt_irrefl _)

/-- An id that is admitted after an action was so before, or an alarm goes with it. -/
theorem admitted_step (seen : ℕ) (h : id ∈ (m.step cfg a).shared.slots.admittedIds) :
    id ∈ m.shared.slots.admittedIds ∨ Alarm (m.step cfg a) seen := by
  obtain hsame | hwill := slots_step cfg m a
  · exact .inl (by rwa [hsame] at h)
  · exact .inr (.inr (.inr hwill))

/-- What a thread relies on is kept while it does not move. -/
theorem Relies.stays (hw : Wired known m) (hheld : Held m) (hwatch : Watchful known m)
    (ha : a.IsUndisturbed) (hfresh : ∀ id ∈ a.drawn, id ∉ known) (hspares : Spares m a)
    (ht : t ∈ m.threads) : Relies known (m.step cfg a) t := by
  have h := hwatch.relies t ht
  have hdeparting : ∀ inv, t.invocation = some inv → Departing m inv.id →
      Departing (m.step cfg a) inv.id := fun inv hinv hdep =>
    departing_step hw ha (hw.thread_known t ht inv hinv) hfresh hdep
  rcases t with inv | ⟨inv, _ | pc | pc | pc⟩ | ⟨inv, pc⟩ | ⟨req, pc⟩
  · trivial
  · trivial
  · cases pc with
    | readOldest seen admitted =>
      have hseen : seen ≤ m.shared.notified := hwatch.seen_le _ ht inv _ rfl seen rfl
      refine ⟨h.1, fun id hid hnot => ?_⟩
      obtain hid | halarm := admitted_step seen hid
      · exact alarm_step hseen (h.2 id hid hnot)
      · exact halarm
    | asleep seen => exact asleep_step hw hheld hwatch hfresh hspares ht
    | backstop pc => exact hdeparting inv rfl h
    | _ => trivial
  · cases pc with
    | fail failure pc => exact h.imp_left (notQueued_step (hw.thread_known _ ht inv rfl) hfresh)
    | _ => trivial
  · exact hdeparting inv rfl h
  · trivial
  · cases pc with
    | write attempts target => exact h
    | cancelToken r => exact ⟨h.1, notQueued_step h.1 hfresh h.2⟩
    | _ => trivial

/-- The head that a store read finds before a task goes to sleep is older, and waits if no alarm has
come since the ledger was read. -/
theorem reason_to_sleep (hw : Wired known m) (hwatch : Watchful known m) {admitted : List String}
    (ht : task inv (.admitting (.readOldest seen admitted)) ∈ m.threads)
    (hbehind : ∀ oldest, oldestQueuedInScopeExcluding inv.tenantId inv.projectId admitted
      m.shared.records = some oldest → oldest.id ≠ inv.id) :
    NotQueued m.shared inv.id ∨ Alarm m seen ∨ Behind m.shared inv := by
  by_cases hnot : NotQueued m.shared inv.id
  · exact .inl hnot
  unfold NotQueued at hnot
  push Not at hnot
  obtain ⟨self, hself, hid, hqueued⟩ := hnot
  obtain ⟨hadmitted, halarm⟩ : inv.id ∉ admitted ∧ _ := hwatch.relies _ ht
  have hcontinues := hw.continues _ ht inv rfl self hself hid
  have hcandidate : self ∈ m.shared.records.filter fun r => r.state = .queued &&
      r.tenantId = inv.tenantId && r.projectId = inv.projectId && !admitted.contains r.id := by
    refine mem_filter.2 ⟨hself, ?_⟩
    simp [hqueued, hcontinues.tenantId_eq, hcontinues.projectId_eq, hid, hadmitted]
  obtain ⟨head, hhead⟩ := exists_oldest hcandidate
  obtain ⟨hmem, hmin⟩ := oldest_spec hhead
  obtain ⟨hrecord, hspec⟩ := mem_filter.1 hmem
  simp only [Bool.and_eq_true, decide_eq_true_eq, Bool.not_eq_true', contains_eq_mem, decide_eq_false_iff_not] at hspec
  obtain ⟨⟨⟨hheadQueued, htenant⟩, hproject⟩, hheadId⟩ := hspec
  by_cases hin : head.id ∈ m.shared.slots.admittedIds
  · exact .inr (.inl (halarm head.id hin hheadId))
  refine .inr (.inr ⟨head, ⟨hrecord, hheadQueued, hin⟩, ?_, ?_⟩)
  · unfold fromInvocation
    rw [htenant, hproject]
  · rw [← age_of_continues hcontinues]
    refine lt_of_le_of_ne (hmin self hcandidate) fun heq => hbehind head hhead ?_
    -- Of one age is only the record itself.
    exact (congrArg (fun x => (ofLex x).2) heq).trans hid

theorem Wired.getForClaims_eq (hw : Wired known m) (ht : t ∈ m.threads)
    (hinv : t.invocation = some inv) (hclaims : claimsFromInvocation inv = .ok claims)
    (hr : r ∈ m.shared.records) (hid : r.id = inv.id) : getForClaims claims inv.id m.shared.records = .ok r := by
  unfold getForClaims
  cases hfind : m.shared.records.find? (Invocations.selects claims inv.id) with
  | none => exact absurd (hw.selects ht hinv hclaims hr hid) (find?_eq_none.1 hfind r hr)
  | some current =>
    have hcurrent := (selects_iff.1 (by simpa using find?_some hfind)).1
    rw [hw.eq_of_id_eq hr (mem_of_find?_eq_some hfind) (hid.trans hcurrent.symm)]

section Moved

variable {i : ℕ} {env : Env} {inv : Invocation}

/-- A task of the admission loop that moves. -/
theorem relies_admit (hw : Wired known m) (hheld : Held m) (hwatch : Watchful known m)
    (ha : (Action.run i env).IsUndisturbed) (hspares : Spares m (.run i env)) {pc : AdmitPc}
    (ht : m.threads[i]? = some (.task inv (.admitting pc))) :
    Relies known (m.step cfg (.run i env)) (.task inv (pc.step env inv m.shared).1) := by
  have htmem := mem_of_getElem? ht
  have hknown := hw.thread_known _ htmem inv rfl
  have hfresh : ∀ id ∈ (Action.run i env).drawn, id ∉ known := fun id hid => by cases hid
  have hdeparting : Departing m inv.id → Departing (m.step cfg (.run i env)) inv.id :=
    departing_step hw ha hknown hfresh
  have hcancelled : m.shared.isCancelled inv.id = true → Departing (m.step cfg (.run i env)) inv.id := fun h =>
    hdeparting (hwatch.cancelled _ (by simpa [Shared.isCancelled] using h)).2
  have hshared : (m.step cfg (.run i env)).shared = (pc.step env inv m.shared).2 := by
    rw [step, stepAt_of_some ht]
    rfl
  have hnext := pc.next_step env inv m.shared
  generalize (pc.step env inv m.shared).1 = pc', (pc.step env inv m.shared).2 = sh' at hnext hshared ⊢
  cases hnext with
  | gone hgone =>
    refine .inr (.inl fun r hr hid => ?_)
    rw [hshared] at hr
    obtain ⟨claims, hclaims⟩ := hw.claims _ htmem inv rfl
    exact hgone claims hclaims r (hw.getForClaims_eq htmem rfl hclaims hr hid)
  | due h => exact hcancelled h
  | cancelled h => exact hcancelled h
  | readAdmitted =>
    refine ⟨fun hid => (by cases (hheld.booked _ htmem inv.id rfl).slot.1 hid), fun id hid hnot => ?_⟩
    rw [hshared] at hid
    exact absurd hid hnot
  | @behind seen admitted hbehind =>
    have hseen : seen ≤ m.shared.notified := hwatch.seen_le _ htmem inv _ rfl seen rfl
    obtain hnot | halarm | hbehind := reason_to_sleep hw hwatch htmem hbehind
    · exact .inl (by rwa [hshared])
    · exact .inr (.inl (alarm_step hseen halarm))
    · exact .inr (.inr (.inr (by rwa [hshared])))
  | full hfull =>
    refine .inr (.inr (.inl ?_))
    rw [hshared]
    exact (isFull_of_tryAdmit hfull).2.1
  | sleeps => exact asleep_step hw hheld hwatch hfresh hspares htmem
  | backstop => exact hdeparting (hwatch.relies _ htmem)
  | failed hdone =>
    refine .inr (.inl ?_)
    rw [hshared]
    exact Failure.notQueued_step (isEarly_failPreExecution (by decide) _) ha.1 hw htmem rfl hdone
  | _ => trivial

theorem relies_run (hw : Wired known m) (hleft : HasLeft m) (hwatch : Watchful known m)
    (ha : (Action.run i env).IsUndisturbed) {pc : RunPc} (ht : m.threads[i]? = some (.task inv (.run pc))) :
    Relies known (m.step cfg (.run i env)) (.task inv (pc.step env inv m.shared).1) := by
  have htmem := mem_of_getElem? ht
  have hknown := hw.thread_known _ htmem inv rfl
  have hfresh : ∀ id ∈ (Action.run i env).drawn, id ∉ known := fun id hid => nomatch hid
  have hstays : NotQueued m.shared inv.id → NotQueued (m.step cfg (.run i env)).shared inv.id :=
    notQueued_step hknown hfresh
  have hpast : pc.isPast = true → NotQueued (m.step cfg (.run i env)).shared inv.id :=
    fun h => hstays (hleft i inv pc ht h)
  obtain ⟨claims, hclaims⟩ := hw.claims _ htmem inv rfl
  have hshared : (m.step cfg (.run i env)).shared = (pc.step env inv m.shared).2 := by
    rw [step, stepAt_of_some ht]
    rfl
  have hnext := pc.next_step env inv m.shared
  generalize (pc.step env inv m.shared).1 = pc', (pc.step env inv m.shared).2 = sh' at hnext hshared ⊢
  cases hnext with
  | cancelled _ h =>
    have hdeparting := (hwatch.cancelled inv.id (by simpa [Shared.isCancelled] using h)).2
    exact departing_step hw ha hknown hfresh hdeparting
  | panics _ h =>
    rw [ha.2] at h
    cases h
  | reject _ hcode => exact .inr (isEarly_failPreExecution hcode _)
  | @prepare _ pc' _ hearly => cases pc' <;> trivial
  | unclaimed _ h =>
    rw [hclaims] at h
    cases h
  | refused hclaims' =>
    refine .inr (.inl ?_)
    rw [hshared]
    refine Shared.notQueued_of_write ha.1 rfl rfl hw.nodup fun r hr hid => ?_
    exact hw.selects htmem rfl hclaims' hr hid
  | executing _ hpc' => rcases hpc' with rfl | rfl <;> trivial
  | failed hpc => rcases hpc with rfl | rfl <;> exact .inl (hpast rfl)
  | keep => exact .inr (.inl (hpast rfl))
  | writeCancelled => exact .inr (.inl (hpast rfl))
  | succeed => exact .inr (.inl (hpast rfl))
  | @fail failure pc => exact (hwatch.relies _ htmem).imp_left hstays
  | @done failure pc hdone =>
    obtain hnot | hearly : NotQueued m.shared inv.id ∨ failure.IsEarly := hwatch.relies _ htmem
    · exact .inr (.inl (hstays hnot))
    · refine .inr (.inl ?_)
      rw [hshared]
      exact Failure.notQueued_step hearly ha.1 hw htmem rfl hdone
  | _ => trivial

theorem relies_cancel (hw : Wired known m) (hwatch : Watchful known m) {req : CancelRequest}
    {pc : CancelPc} (ht : m.threads[i]? = some (.cancel req pc)) :
    Relies known (m.step cfg (.run i env)) (.cancel req (pc.step env req m.shared).1) := by
  have hshared : (m.step cfg (.run i env)).shared = (pc.step env req m.shared).2 := by
    rw [step, stepAt_of_some ht]
    rfl
  cases hpc : (pc.step env req m.shared).1 with
  | write attempts target => exact CancelPc.target_of_step_write hpc
  | cancelToken r =>
    obtain ⟨attempts, target, outcome, rfl, hok, hstep⟩ := CancelPc.ok_of_step_cancelToken hpc
    have htarget : target = .cancelled ∨ target = .cancelRequested := hwatch.relies _ (mem_of_getElem? ht)
    obtain ⟨current, hcurrent, hid⟩ := Shared.exists_of_transition_ok hok
    refine ⟨hid ▸ hw.record_known current hcurrent, fun r hr hrid hqueued => ?_⟩
    rw [hshared, hstep] at hr
    have hstate := (Shared.state_of_transition_ok hok hw.nodup).2 r hr hrid
    rw [hqueued] at hstate
    rcases htarget with rfl | rfl <;> cases hstate
  | _ => trivial

theorem relies_leave (hw : Wired known m) (hwatch : Watchful known m) (ha : (Action.run i env).IsUndisturbed)
    {pc : LeavePc} (ht : m.threads[i]? = some (.task inv (.leave pc))) :
    Relies known (m.step cfg (.run i env)) (.task inv (pc.step inv m.shared).1) := by
  have htmem := mem_of_getElem? ht
  have hdeparting : Departing (m.step cfg (.run i env)) inv.id :=
    departing_step hw ha (hw.thread_known _ htmem inv rfl) (fun id hid => nomatch hid)
      (hwatch.relies _ htmem)
  cases pc <;> exact hdeparting

end Moved

theorem relies_step (hw : Wired known m) (hheld : Held m) (hleft : HasLeft m)
    (hwatch : Watchful known m) (ha : a.IsUndisturbed) (hfresh : ∀ id ∈ a.drawn, id ∉ known)
    (hspares : Spares m a) : ∀ t ∈ (m.step cfg a).threads, Relies known (m.step cfg a) t := by
  intro u hu
  obtain ⟨i, hi⟩ := mem_iff_getElem?.1 hu
  obtain ⟨env, t, rfl, ht, rfl⟩ | ⟨-, ht⟩ | ⟨-, hnew⟩ := threads_step hi
  · rcases t with inv | ⟨inv, _ | pc | pc | pc⟩ | ⟨inv, pc⟩ | ⟨req, pc⟩
    · trivial
    · trivial
    · exact relies_admit hw hheld hwatch ha hspares ht
    · exact relies_run hw hleft hwatch ha ht
    · exact relies_leave hw hwatch ha ht
    · trivial
    · exact relies_cancel hw hwatch ht
  · exact Relies.stays hw hheld hwatch ha hfresh hspares (mem_of_getElem? ht)
  · cases hnew <;> trivial

/-- What is subscribed is not ahead of the notifications. -/
theorem seen_step (hwatch : Watchful known m) : ∀ u ∈ (m.step cfg a).threads, ∀ inv pc,
    u = .task inv (.admitting pc) → ∀ seen, pc.seen = some seen → seen ≤ (m.step cfg a).shared.notified := by
  rintro u hu inv pc rfl seen hseen
  refine le_trans ?_ (notified_le_step cfg m a)
  obtain ⟨i, hi⟩ := mem_iff_getElem?.1 hu
  obtain ⟨env, t, rfl, ht, hmoved⟩ | ⟨-, ht⟩ | ⟨-, hnew⟩ := threads_step hi
  · have hne : pc ≠ .subscribe := by
      rintro rfl
      cases hseen
    obtain ⟨pc₀, sh', rfl, hnext⟩ := next_of_step_admit hne hmoved.symm
    exact hnext.seen_le (hwatch.seen_le _ (mem_of_getElem? ht) inv pc₀ rfl) hseen
  · exact hwatch.seen_le _ (mem_of_getElem? ht) inv pc rfl seen hseen
  · cases hnew

/-- Whatever is cancelled has left the queue, or leaves it with a notification. -/
theorem cancelled_step (hw : Wired known m) (hwatch : Watchful known m) (ha : a.IsUndisturbed)
    (hfresh : ∀ id ∈ a.drawn, id ∉ known) :
    ∀ id ∈ (m.step cfg a).shared.cancelled, id ∈ known ∧ Departing (m.step cfg a) id := by
  have hold : ∀ id ∈ m.shared.cancelled, id ∈ known ∧ Departing (m.step cfg a) id := by
    intro id hid
    obtain ⟨hknown, hdeparting⟩ := hwatch.cancelled id hid
    exact ⟨hknown, departing_step hw ha hknown hfresh hdeparting⟩
  intro id hid
  cases a with
  | create claims new uuid now persist =>
    simp only [step] at hid
    obtain h | h := create_cases cfg now persist claims new uuid m
    · rw [h] at hid
      exact hold id hid
    · rw [h] at hid
      exact hold id hid
  | cancel req => exact hold id hid
  | shutdown => exact hold id hid
  | signal i =>
    simp only [step, signal] at hid
    split at hid
    next inv pc ht =>
      split_ifs at hid with hshutdown
      · rcases mem_cons.1 hid with rfl | hid
        · exact ⟨hw.thread_known _ (mem_of_getElem? ht) inv rfl, .inl (shutdown_step hshutdown)⟩
        · exact hold id hid
      · exact hold id hid
    next => exact hold id hid
  | run i env =>
    cases hi : m.threads[i]? with
    | none =>
      simp only [step, stepAt_of_none hi] at hid
      exact hold id hid
    | some t =>
      have htmem := mem_of_getElem? hi
      have hthread : (t.step env m.shared).thread ∈ (m.step cfg (.run i env)).threads := by
        simp only [step, stepAt_of_some hi]
        exact thread_mem_advance hi
      have hshared : (m.step cfg (.run i env)).shared = (t.step env m.shared).shared := by
        rw [step, stepAt_of_some hi, shared_advance]
      rw [hshared] at hid
      have heffect := t.effect_step env m.shared
      generalize (t.step env m.shared).shared = sh' at heffect hid
      cases heffect with
      | cancelToken hcause =>
        rcases mem_cons.1 hid with rfl | hid
        · obtain ⟨inv, rfl, rfl | rfl⟩ | ⟨req, r, rfl, rfl⟩ := hcause
          · have hknown := hw.thread_known _ htmem inv rfl
            exact ⟨hknown, departing_step hw ha hknown hfresh (hwatch.relies _ htmem)⟩
          · -- The watcher goes on to its write.
            exact ⟨hw.thread_known _ htmem inv rfl, .inr (.inr ⟨_, hthread, inv, .read, rfl, rfl⟩)⟩
          · obtain ⟨hknown, hnot⟩ : req.id ∈ known ∧ _ := hwatch.relies _ htmem
            exact ⟨hknown, .inr (.inl (notQueued_step hknown hfresh hnot))⟩
        · exact hold id hid
      | _ => exact hold id hid

/-- Whatever is queued has a task, or a handler that is to dispatch it. -/
theorem live_step (hw : Wired known m) (hwatch : Watchful known m) (hfresh : ∀ id ∈ a.drawn, id ∉ known) :
    ∀ r ∈ (m.step cfg a).shared.records, r.state = .queued → ∃ t ∈ (m.step cfg a).threads, t.owner = some r.id := by
  obtain ⟨survivors, added, hrecords, hpass, hadds⟩ := step_passes cfg m a
  intro r hr hqueued
  rw [hrecords] at hr
  rcases mem_append.1 hr with hr | hr
  · obtain ⟨r₀, hr₀, hmoves⟩ := hpass.source hr
    rw [hmoves.continues.id_eq]
    obtain h | ⟨i, env, t, rfl, hi, howner⟩ := exists_thread_step cfg a (hwatch.live r₀ hr₀ (hmoves.queued hqueued))
    · exact h
    · simp only [step, stepAt_of_some hi]
      exact ⟨_, thread_mem_advance hi, by rwa [owner_step]⟩
  · cases hadds with
    | nothing => cases hr
    | @created claims new uuid now persist hcreate =>
      subst hcreate
      obtain rfl := mem_singleton.1 hr
      simp only [step] at hrecords ⊢
      obtain h | h := create_cases cfg now persist claims new uuid m
      · -- Then the record would have been there before.
        rw [h] at hrecords
        refine absurd (hw.record_known (newInvocation cfg now uuid claims new) ?_) (hfresh _ rfl)
        rw [hrecords]
        exact mem_append_right _ hr
      · rw [h]
        exact ⟨_, mem_append_right _ (mem_singleton_self _), rfl⟩

theorem watchful_run {cfg : InvocationStoreConfig} {limits : InvocationRunningLimits} {records : List Invocation}
    (hopened : IsOpened cfg records) {actions : List Action} (h : IdsDistinct records actions)
    (hundisturbed : ∀ a ∈ actions, a.IsUndisturbed)
    (hspares : ∀ before a later, actions = before ++ a :: later → Spares (run cfg (opened limits records) before) a) :
    Watchful (records.map (·.id) ++ actions.filterMap Action.drawn) (run cfg (opened limits records) actions) := by
  induction actions using reverseRecOn with
  | nil =>
    refine ⟨fun _ ht => (nomatch ht), fun _ hid => (nomatch hid), fun r hr hqueued => ?_, fun _ ht => (nomatch ht)⟩
    have hterminal := hopened.isTerminal r hr
    rw [hqueued] at hterminal
    cases hterminal
  | append_singleton actions a ih =>
    have hwatch := ih h.left (fun b hb => hundisturbed b (mem_append_left _ hb))
      fun before b later heq => hspares before b (later ++ [a]) (by rw [heq]; simp)
    have hw := wired_run cfg limits h.left
    have ha := hundisturbed a (mem_append_right _ (mem_singleton_self a))
    have hknown : ∀ id ∈ records.map (·.id) ++ actions.filterMap Action.drawn,
        id ∈ records.map (·.id) ++ (actions ++ [a]).filterMap Action.drawn := by
      intro id hid
      rw [filterMap_append, ← append_assoc]
      exact mem_append_left _ hid
    rw [run_append, run_cons, run_nil]
    refine ⟨seen_step hwatch, fun id hid => ?_, live_step hw hwatch h.fresh, fun t ht => ?_⟩
    · obtain ⟨hid, hdeparting⟩ := cancelled_step hw hwatch ha h.fresh id hid
      exact ⟨hknown id hid, hdeparting⟩
    · exact (relies_step hw (held_run cfg limits h.left) (hasLeft_run cfg limits h.left) hwatch ha
        h.fresh (hspares actions a [] rfl) t ht).mono hknown

/-! ### Stuck scopes -/

/-- All tasks of the scope are done or asleep and no notification is on the way, while an invocation of
the scope is queued and the three caps have a slot for it. -/
structure Stuck (m : Bridge) (scope : RunningScope) : Prop where
  queued : ∃ r ∈ m.shared.records, r.state = .queued ∧ RunningScope.fromInvocation r = scope
  room : m.shared.slots.isFull scope = false
  asleep : ∀ t ∈ m.threads, t.isUp m.shared scope = false
  quiet : m.shared.shutdown = false ∧ ∀ t ∈ m.threads, t.willNotify = false

theorem not_alarm_of_stuck (h : Stuck m scope) : ¬Alarm m m.shared.notified := by
  rintro (hlt | hshutdown | ⟨t, ht, hwill⟩)
  · exact lt_irrefl _ hlt
  · rw [h.quiet.1] at hshutdown
    cases hshutdown
  · rw [h.quiet.2 t ht] at hwill
    cases hwill

/-- A scope whose threads have what they rely on is not stuck. -/
theorem not_stuck (hw : Wired known m) (hheld : Held m) (hwatch : Watchful known m)
    (scope : RunningScope) : ¬Stuck m scope := by
  intro hstuck
  obtain ⟨r, hr, hqueued, rfl⟩ := hstuck.queued
  have hscope : ∀ t ∈ m.threads, ∀ inv, t.invocation = some inv → ∀ r' ∈ m.shared.records,
      r'.id = inv.id → fromInvocation inv = fromInvocation r' :=
    fun t ht inv hinv r' hr' hid => (scope_of_continues (hw.continues t ht inv hinv r' hr' hid)).symm
  -- Whoever holds a slot is up.
  have hwaits : r.id ∉ m.shared.slots.admittedIds := by
    intro hid
    obtain ⟨inv, pc, ht, hinv, hholds⟩ := hheld.exists_holder hid
    have hup := hstuck.asleep _ ht
    rw [isUp_of_holdsSlot hholds (hscope _ ht inv rfl r hr hinv.symm)] at hup
    cases hup
  obtain ⟨head, ⟨⟨hmem, hheadQueued, hheadId⟩, hmin⟩, hheadScope, -⟩ := exists_isHead ⟨hr, hqueued, hwaits⟩
  have hquiet : ∀ {seen}, seen = m.shared.notified → ¬Alarm m seen := by
    rintro seen rfl
    exact not_alarm_of_stuck hstuck
  obtain ⟨t, ht, howner⟩ := hwatch.live head hmem hheadQueued
  obtain ⟨inv, hinv, hid⟩ := invocation_of_owner howner
  have hinvScope := (hscope t ht inv hinv head hmem hid.symm).trans hheadScope
  obtain ⟨pc, rfl, hpc⟩ := eq_of_not_isUp howner hinv hinvScope (hstuck.asleep t ht)
  obtain rfl | ⟨seen, rfl, hseen⟩ := hpc
  · -- The task has left without taking the head out of the queue.
    have hdeparting : Departing m inv.id := hwatch.relies _ ht
    rw [hid] at hdeparting
    exact hquiet rfl (alarm_of_departing hmem hheadQueued hdeparting _)
  · obtain hnot | halarm | hfull | ⟨r', hr', hscope', hage⟩ := hwatch.relies _ ht
    · exact hnot head hmem hid.symm hheadQueued
    · exact hquiet hseen halarm
    · rw [hinvScope, hstuck.room] at hfull
      cases hfull
    · refine absurd (hmin r' hr' ?_) (not_le.2 ?_)
      · rw [hscope', hinvScope, hheadScope]
      · rw [age_of_continues (hw.continues _ ht inv rfl head hmem hid.symm)]
        exact hage

/-- **No scope gets stuck**, in any state of a run whose cancel requests do not strand one. -/
theorem not_stuck_run {cfg : InvocationStoreConfig} {limits : InvocationRunningLimits} {records : List Invocation}
    (hopened : IsOpened cfg records) {actions : List Action} (h : IdsDistinct records actions)
    (hundisturbed : ∀ a ∈ actions, a.IsUndisturbed)
    (hspares : ∀ before a later, actions = before ++ a :: later → Spares (run cfg (opened limits records) before) a) :
    ∀ before later, actions = before ++ later → ∀ scope, ¬Stuck (run cfg (opened limits records) before) scope := by
  rintro before later rfl scope
  have hwatch := watchful_run hopened h.left
    (fun a ha => hundisturbed a (mem_append_left _ ha))
    fun before' a later' heq => hspares before' a (later' ++ later) (by rw [heq]; simp)
  exact not_stuck (wired_run cfg limits h.left) (held_run cfg limits h.left) hwatch scope

/-- Without a cancel request nothing strands a scope. -/
theorem spares_of_no_cancel (h : m.threads.all (fun t => !t.isCancel) = true) : Spares m a := by
  rintro i env rfl req attempts head inv seen hstrands
  have hcancel := all_eq_true.1 h _ (mem_of_getElem? hstrands.thread)
  cases hcancel

theorem not_stuck_run_twoTasks : ¬Stuck (run ⟨days 7, 32, hours 24⟩ (opened ⟨1, 1, 1⟩ []) twoTasks) ⟨"acme", "p1"⟩ := by
  have hall : ∀ k ≤ twoTasks.length,
      (run ⟨days 7, 32, hours 24⟩ (opened ⟨1, 1, 1⟩ []) (twoTasks.take k)).threads.all
        (fun t => !t.isCancel) = true := by
    decide +kernel
  refine not_stuck_run (isOpened_nil _) (by decide +kernel) (fun a ha => ?_)
    (fun before a later heq => spares_of_no_cancel ?_) twoTasks [] (append_nil _).symm _
  · simp only [twoTasks, mem_cons, mem_append, mem_replicate] at ha
    rcases ha with rfl | rfl | ⟨-, rfl⟩ | ⟨-, rfl⟩ <;> simp [Action.IsUndisturbed, calm]
  · have hbefore : twoTasks.take before.length = before := by rw [heq, take_left]
    have hlength : before.length ≤ twoTasks.length := by
      rw [heq, length_append]
      exact Nat.le_add_right _ _
    have h := hall before.length hlength
    rwa [hbefore] at h

/-- Two creates.  The second task sees the first invocation in the queue and falls asleep; the first
invocation is cancelled before its task starts, and that task leaves. -/
def cancelledHead : List Action :=
  .create acme ⟨plainRequest, none, none, none⟩ "a" 0 (.ok ()) ::
    .create acme ⟨plainRequest, none, none, none⟩ "b" 1000 (.ok ()) ::
      (List.replicate 7 (.run 1 calm) ++ .cancel ⟨acme, false, "inv_a", none⟩ ::
        (List.replicate 4 (.run 2 calm) ++ List.replicate 6 (.run 0 calm)))

/-- The other invocation stays in the queue of a scope without a task that runs. -/
theorem stuck_cancelledHead : Stuck (run ⟨days 7, 32, hours 24⟩ (opened ⟨1, 1, 1⟩ []) cancelledHead) ⟨"acme", "p1"⟩ :=
  ⟨by decide +kernel, by decide +kernel, by decide +kernel, by decide +kernel⟩

theorem not_unstuck_cancelledHead : ¬∀ cfg limits records actions, IsOpened cfg records → IdsDistinct records actions →
      (∀ a ∈ actions, a.IsUndisturbed) →
      ∀ scope, ¬Stuck (run cfg (opened limits records) actions) scope := by
  intro h
  refine h ⟨days 7, 32, hours 24⟩ ⟨1, 1, 1⟩ [] cancelledHead (isOpened_nil _) (by decide +kernel)
    (fun a ha => ?_) _ stuck_cancelledHead
  simp only [cancelledHead, mem_cons, mem_append, mem_replicate] at ha
  rcases ha with rfl | rfl | ⟨-, rfl⟩ | rfl | ⟨-, rfl⟩ | ⟨-, rfl⟩ <;>
    simp [Action.IsUndisturbed, calm]

end Bridge

end WildAgentOs.Invocations
