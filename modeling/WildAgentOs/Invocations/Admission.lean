import WildAgentOs.Invocations.BridgeSteps
import WildAgentOs.Invocations.Lifecycle

/-!
# Admission

The ledger of the bridge over any interleaving, and the order in which it admits.

* `Booked`;
* `Held`, `held_run`: the ledger is sound, and each of its ids has a task;
* `SawAdmitted`, `SawOldest`, `capped_run`.
-/

namespace WildAgentOs.Invocations

open Interleaving List FifoRunningSlots Thread System

/-! ### Slots and threads -/

def Thread.holdsSlot : Thread → Bool
  | task _ pc => pc.holdsSlot
  | _ => false

def Thread.isExecuting : Thread → Bool
  | task _ pc => pc.isExecuting
  | _ => false

variable {t : Thread}

theorem Thread.holdsSlot_of_isExecuting (h : t.isExecuting = true) : t.holdsSlot = true := by
  unfold isExecuting at h
  split at h
  next pc =>
    unfold TaskPc.isExecuting at h
    split at h <;> first | rfl | cases h
  next => cases h

/-- The thread that owns an id holds its slot if the id is admitted, and runs the executor if that is in
flight. -/
structure Booked (sh : Shared) (id : String) (t : Thread) : Prop where
  slot : id ∈ sh.slots.admittedIds ↔ t.holdsSlot = true
  flight : id ∈ sh.inFlight ↔ t.isExecuting = true

variable {sh : Shared} {env : Env} {inv : Invocation}

variable {sh' : Shared} {pc' : TaskPc}

theorem AdmitPc.Next.booked {pc : AdmitPc} (hnext : pc.Next env inv sh pc' sh')
    (h : Booked sh inv.id (.task inv (.admitting pc))) : Booked sh' inv.id (.task inv pc') := by
  cases hnext with
  | admitted hok =>
    refine ⟨?_, h.flight⟩
    simp [mem_admittedIds_tryAdmit, hok, holdsSlot, TaskPc.holdsSlot]
  | @backstop pc =>
    rw [Failure.step_eq]
    exact ⟨h.slot, h.flight⟩
  | @failed pc =>
    rw [Failure.step_eq]
    exact ⟨h.slot, h.flight⟩
  | _ => exact ⟨h.slot, h.flight⟩

variable {pc : RunPc}

theorem RunPc.isExecuting_of_isEarly (h : pc.isEarly = true) : (TaskPc.run pc).isExecuting = false := by
  cases pc <;> first | rfl | cases h

theorem RunPc.Next.booked (hnodup : sh.inFlight.Nodup) (hnext : pc.Next env inv sh pc' sh')
    (h : Booked sh inv.id (.task inv (.run pc))) : Booked sh' inv.id (.task inv pc') := by
  -- Away from the executor run, its id is not in flight.
  have hquiet : ∀ pc' : TaskPc, (TaskPc.run pc).isExecuting = false → pc'.isExecuting = false →
      (inv.id ∈ sh.inFlight ↔ (task inv pc').isExecuting = true) := by
    intro pc' hpc hpc'
    refine h.flight.trans ?_
    simp [isExecuting, hpc, hpc']
  have hfinish : ∀ pc' : TaskPc, pc'.isExecuting = false →
      (inv.id ∈ sh.inFlight.erase inv.id ↔ (task inv pc').isExecuting = true) := by
    intro pc' hpc'
    simp [hnodup.not_mem_erase, isExecuting, hpc']
  cases hnext with
  | cancelled hpc => exact ⟨h.slot, hquiet _ (RunPc.isExecuting_of_isEarly hpc) rfl⟩
  | panics hpc => exact ⟨h.slot, hquiet _ (RunPc.isExecuting_of_isEarly hpc) rfl⟩
  | reject hpc => exact ⟨h.slot, hquiet _ (RunPc.isExecuting_of_isEarly hpc) rfl⟩
  | prepare hpc hpc' =>
    exact ⟨h.slot, hquiet _ (RunPc.isExecuting_of_isEarly hpc) (RunPc.isExecuting_of_isEarly hpc')⟩
  | unclaimed hpc => exact ⟨h.slot, hquiet _ hpc rfl⟩
  | spawn => exact ⟨h.slot, by simp [isExecuting, TaskPc.isExecuting]⟩
  | executing hpc hpc' =>
    refine ⟨h.slot, h.flight.trans ?_⟩
    rcases hpc with rfl | rfl <;> rcases hpc' with rfl | rfl <;> exact Iff.rfl
  | failed => exact ⟨h.slot, hfinish _ rfl⟩
  | earned => exact ⟨h.slot, hfinish _ rfl⟩
  | unwound => exact ⟨h.slot, hfinish _ rfl⟩
  | @fail failure pc =>
    rw [Failure.step_eq]
    exact ⟨h.slot, h.flight⟩
  | @done failure pc =>
    rw [Failure.step_eq]
    exact ⟨h.slot, h.flight⟩
  | _ => exact ⟨h.slot, h.flight⟩

theorem LeavePc.booked_step {pc : LeavePc} (h : Booked sh inv.id (.task inv (.leave pc))) :
    Booked (pc.step inv sh).2 inv.id (.task inv (pc.step inv sh).1) := by
  have hreleased : inv.id ∉ (sh.slots.release inv.id).2.admittedIds :=
    fun hid => (mem_admittedIds_release.1 hid).2 rfl
  cases pc with
  | dropSlot =>
    simp only [LeavePc.step]
    split_ifs <;> exact ⟨⟨fun hid => absurd hid hreleased, fun hholds => nomatch hholds⟩, h.flight⟩
  | unwind =>
    simp only [LeavePc.step]
    split_ifs <;> exact ⟨⟨fun hid => absurd hid hreleased, fun hholds => nomatch hholds⟩, h.flight⟩
  | _ => exact ⟨h.slot, h.flight⟩

variable {id : String}

/-- What a thread holds, after its own step. -/
theorem Thread.booked_step (hnodup : sh.inFlight.Nodup) (howner : t.owner = some id) (h : Booked sh id t) :
    Booked (t.step env sh).shared id (t.step env sh).thread := by
  rcases t with inv | ⟨inv, _ | pc | pc | pc⟩ | ⟨inv, pc⟩ | ⟨req, pc⟩
  · exact ⟨h.slot, h.flight⟩
  · exact ⟨h.slot, h.flight⟩
  · cases howner
    exact (pc.next_step env inv sh).booked h
  · cases howner
    exact (pc.next_step env inv sh).booked hnodup h
  · cases howner
    exact LeavePc.booked_step h
  · cases howner
  · cases howner

/-- The ids of other threads stay where they are. -/
theorem Effect.ids_iff (h : Effect env sh t sh') (hother : t.owner ≠ some id) :
    (id ∈ sh'.slots.admittedIds ↔ id ∈ sh.slots.admittedIds) ∧ (id ∈ sh'.inFlight ↔ id ∈ sh.inFlight) := by
  cases h with
  | @admission inv seen ht =>
    subst ht
    have hne : id ≠ inv.id := fun heq => hother (heq ▸ rfl)
    simp [mem_admittedIds_tryAdmit, hne]
  | @release inv pc ht _ =>
    subst ht
    have hne : id ≠ inv.id := fun heq => hother (heq ▸ rfl)
    simp [mem_admittedIds_release, hne]
  | @begin inv ht =>
    subst ht
    have hne : id ≠ inv.id := fun heq => hother (heq ▸ rfl)
    simp [hne]
  | @finish inv pc ht _ =>
    subst ht
    have hne : id ≠ inv.id := fun heq => hother (heq ▸ rfl)
    exact ⟨Iff.rfl, mem_erase_of_ne hne⟩
  | _ => exact ⟨Iff.rfl, Iff.rfl⟩

variable {entry : String × RunningScope}

/-- The ledger gains the entry of the task that is admitted. -/
theorem Effect.mem_admitted (h : Effect env sh t sh') (hentry : entry ∈ sh'.slots.admitted) :
    entry ∈ sh.slots.admitted ∨
      ∃ inv, t.owner = some inv.id ∧ t.invocation = some inv ∧ entry = (inv.id, RunningScope.fromInvocation inv) := by
  cases h with
  | @admission inv seen ht =>
    subst ht
    exact (mem_admitted_tryAdmit hentry).imp_right fun h => ⟨inv, rfl, rfl, h⟩
  | release => exact .inl (mem_admitted_release hentry)
  | _ => exact .inl hentry

theorem Effect.sound (h : Effect env sh t sh') (hs : sh.slots.Sound) : sh'.slots.Sound := by
  cases h with
  | admission => exact hs.tryAdmit _ _
  | release => exact hs.release _
  | _ => exact hs

/-- No executor run is started twice. -/
theorem Effect.flight_nodup (h : Effect env sh t sh') (hnodup : sh.inFlight.Nodup)
    (hbooked : ∀ id, t.owner = some id → Booked sh id t) : sh'.inFlight.Nodup := by
  cases h with
  | @begin inv ht =>
    subst ht
    exact nodup_cons.2 ⟨fun hid => (nomatch (hbooked inv.id rfl).flight.1 hid), hnodup⟩
  | finish => exact hnodup.erase _
  | _ => exact hnodup

theorem Effect.limits_eq (h : Effect env sh t sh') : sh'.slots.limits = sh.slots.limits := by
  cases h with
  | admission => exact limits_tryAdmit _ _ _
  | release => exact limits_release _ _
  | _ => rfl

variable {actions : List Action}

namespace Bridge

/-! ### The ledger over a run -/

structure Held (m : Bridge) : Prop where
  booked : ∀ t ∈ m.threads, ∀ id, t.owner = some id → Booked m.shared id t
  entry_scope : ∀ entry ∈ m.shared.slots.admitted, ∃ t ∈ m.threads, t.owner = some entry.1 ∧
    t.invocation.map RunningScope.fromInvocation = some entry.2
  flight_owned : ∀ id ∈ m.shared.inFlight, ∃ t ∈ m.threads, t.owner = some id
  flight_nodup : m.shared.inFlight.Nodup
  sound : m.shared.slots.Sound

namespace Held

variable {known : List String} {m : Bridge}

theorem slot_owned (hm : Held m) (h : id ∈ m.shared.slots.admittedIds) : ∃ t ∈ m.threads, t.owner = some id := by
  obtain ⟨entry, hentry, rfl⟩ := mem_map.1 h
  obtain ⟨t, ht, howner, -⟩ := hm.entry_scope entry hentry
  exact ⟨t, ht, howner⟩

/-- An id that is admitted has a task that holds the slot. -/
theorem exists_holder (hm : Held m) (h : id ∈ m.shared.slots.admittedIds) :
    ∃ inv pc, task inv pc ∈ m.threads ∧ inv.id = id ∧ pc.holdsSlot = true := by
  obtain ⟨t, ht, howner⟩ := hm.slot_owned h
  have hholds := (hm.booked t ht id howner).slot.1 h
  rcases t with _ | ⟨inv, pc⟩ | _ | _
  · cases hholds
  · exact ⟨inv, pc, ht, Option.some.inj howner, hholds⟩
  · cases hholds
  · cases hholds

theorem exists_task (hm : Held m) (h : entry ∈ m.shared.slots.admitted) :
    ∃ inv pc, task inv pc ∈ m.threads ∧ inv.id = entry.1 ∧ RunningScope.fromInvocation inv = entry.2 := by
  obtain ⟨t, ht, howner, hscope⟩ := hm.entry_scope entry h
  have hholds := (hm.booked t ht entry.1 howner).slot.1 (mem_map_of_mem h)
  rcases t with _ | ⟨inv, pc⟩ | _ | _
  · cases hholds
  · exact ⟨inv, pc, ht, Option.some.inj howner, Option.some.inj hscope⟩
  · cases hholds
  · cases hholds

/-- **Executor runs in flight hold a slot.** -/
theorem admitted_of_inFlight (hm : Held m) (h : id ∈ m.shared.inFlight) : id ∈ m.shared.slots.admittedIds := by
  obtain ⟨t, ht, howner⟩ := hm.flight_owned id h
  have hbooked := hm.booked t ht id howner
  exact hbooked.slot.2 (holdsSlot_of_isExecuting (hbooked.flight.1 h))

/-- Nothing changes but records and threads that own no id. -/
theorem of_same (hm : Held m) {m' : Bridge} (hslots : m'.shared.slots = m.shared.slots)
    (hflight : m'.shared.inFlight = m.shared.inFlight) {added : List Thread}
    (hthreads : m'.threads = m.threads ++ added)
    (hadded : ∀ t ∈ added, ∀ id, t.owner = some id → Booked m.shared id t) : Held m' := by
  refine ⟨fun t ht id howner => ?_, fun entry hentry => ?_, fun id hid => ?_, ?_, ?_⟩
  · have hbooked : Booked m.shared id t := by
      rw [hthreads] at ht
      rcases mem_append.1 ht with ht | ht
      · exact hm.booked t ht id howner
      · exact hadded t ht id howner
    exact ⟨by rw [hslots]; exact hbooked.slot, by rw [hflight]; exact hbooked.flight⟩
  · rw [hslots] at hentry
    obtain ⟨t, ht, howner⟩ := hm.entry_scope entry hentry
    exact ⟨t, hthreads ▸ mem_append_left _ ht, howner⟩
  · rw [hflight] at hid
    obtain ⟨t, ht, howner⟩ := hm.flight_owned id hid
    exact ⟨t, hthreads ▸ mem_append_left _ ht, howner⟩
  · rw [hflight]
    exact hm.flight_nodup
  · rw [hslots]
    exact hm.sound

/-- The ids of the ledger and in flight are known. -/
theorem not_booked (hm : Held m) (hw : Wired known m) (hid : id ∉ known) :
    id ∉ m.shared.slots.admittedIds ∧ id ∉ m.shared.inFlight := by
  have hknown : ∀ {t : Thread}, t ∈ m.threads → t.owner ≠ some id := by
    intro t ht howner
    obtain ⟨inv, hinv, rfl⟩ := invocation_of_owner howner
    exact hid (hw.thread_known t ht inv hinv)
  constructor
  · intro h
    obtain ⟨t, ht, howner⟩ := hm.slot_owned h
    exact hknown ht howner
  · intro h
    obtain ⟨t, ht, howner⟩ := hm.flight_owned id h
    exact hknown ht howner

theorem stepAt (hm : Held m) (hw : Wired known m) (i : ℕ) (env : Env) : Held (m.stepAt (Thread.step env) i) := by
  cases hi : m.threads[i]? with
  | none => rwa [stepAt_of_none hi]
  | some t =>
    have ht : t ∈ m.threads := mem_of_getElem? hi
    have heffect := t.effect_step env m.shared
    rw [stepAt_of_some hi]
    -- An owner is still there, also if it is the thread that has moved.
    have howned : ∀ id, (∃ u ∈ m.threads, u.owner = some id) →
        ∃ u ∈ (m.advance i (t.step env m.shared)).threads, u.owner = some id := by
      intro id h
      obtain h | h := exists_advance (t.step env m.shared) hi h
      · exact h
      · exact ⟨_, thread_mem_advance hi, by rwa [Thread.owner_step]⟩
    refine ⟨fun u hu id howner => ?_, fun entry hentry => ?_, fun id hid => ?_, ?_, ?_⟩
    · obtain rfl | ⟨j, hji, hj⟩ | hu := mem_advance hu
      · rw [Thread.owner_step] at howner
        exact Thread.booked_step hm.flight_nodup howner (hm.booked t ht id howner)
      · have hother : t.owner ≠ some id := fun h => hji (hw.owner_unique hj hi howner h)
        have hbooked := hm.booked u (mem_of_getElem? hj) id howner
        obtain ⟨hslot, hflight⟩ := heffect.ids_iff hother
        exact ⟨hslot.trans hbooked.slot, hflight.trans hbooked.flight⟩
      · obtain ⟨inv, -, -, rfl⟩ := Thread.spawned_step hu
        cases howner
    · -- The entry of a task that is still there, or of the one that was admitted.
      have hsource : ∃ u ∈ m.threads, u.owner = some entry.1 ∧
          u.invocation.map RunningScope.fromInvocation = some entry.2 := by
        obtain hentry | ⟨inv, howner, hinv, rfl⟩ := heffect.mem_admitted hentry
        · exact hm.entry_scope entry hentry
        · exact ⟨t, ht, howner, by rw [hinv]; rfl⟩
      obtain ⟨u, hu, howner, hscope⟩ := hsource
      obtain ⟨u', hu', hsame⟩ | hsame :=
        exists_advance (Q := fun u' => u'.owner = u.owner ∧ u'.invocation = u.invocation)
          (t.step env m.shared) hi ⟨u, hu, rfl, rfl⟩
      · exact ⟨u', hu', hsame.1.trans howner, by rw [hsame.2, hscope]⟩
      · refine ⟨_, thread_mem_advance hi, ?_, ?_⟩
        · rw [Thread.owner_step, hsame.1, howner]
        · rw [Thread.invocation_step, hsame.2, hscope]
    · refine howned id ?_
      by_cases hown : t.owner = some id
      · exact ⟨t, ht, hown⟩
      · exact hm.flight_owned id ((heffect.ids_iff hown).2.1 hid)
    · exact heffect.flight_nodup hm.flight_nodup (hm.booked t ht)
    · exact heffect.sound hm.sound

theorem step (hm : Held m) (hw : Wired known m) (cfg : InvocationStoreConfig) (a : Action)
    (hfresh : ∀ id ∈ a.drawn, id ∉ known) : Held (m.step cfg a) := by
  cases a with
  | create claims new uuid now persist =>
    simp only [Bridge.step]
    obtain h | h := create_cases cfg now persist claims new uuid m
    · rwa [h]
    · rw [h]
      refine hm.of_same rfl rfl rfl fun t ht id howner => ?_
      obtain rfl := mem_singleton.1 ht
      cases howner
      obtain ⟨hslot, hflight⟩ := hm.not_booked hw (hfresh _ rfl)
      exact ⟨⟨fun h => absurd h hslot, fun h => by cases h⟩,
        ⟨fun h => absurd h hflight, fun h => by cases h⟩⟩
  | cancel req =>
    refine hm.of_same rfl rfl rfl fun t ht id howner => ?_
    obtain rfl := mem_singleton.1 ht
    cases howner
  | shutdown => exact hm.of_same rfl rfl (append_nil _).symm fun _ h => absurd h not_mem_nil
  | signal i =>
    simp only [Bridge.step, signal]
    split
    · split_ifs
      · exact hm.of_same rfl rfl (append_nil _).symm fun _ h => absurd h not_mem_nil
      · exact hm
    · exact hm
  | run i env => exact hm.stepAt hw i env

end Held

theorem held_run (cfg : InvocationStoreConfig) (limits : InvocationRunningLimits) {records : List Invocation}
    (h : IdsDistinct records actions) : Held (run cfg (opened limits records) actions) := by
  induction actions using reverseRecOn with
  | nil =>
    exact ⟨fun _ ht => (nomatch ht), fun _ hid => (nomatch hid), fun _ hid => (nomatch hid), .nil,
      sound_new limits⟩
  | append_singleton actions a ih =>
    rw [run_append, run_cons, run_nil]
    exact (ih h.left).step (wired_run cfg limits h.left) cfg a h.fresh

theorem limits_step (cfg : InvocationStoreConfig) (m : Bridge) (a : Action) :
    (m.step cfg a).shared.slots.limits = m.shared.slots.limits := by
  cases a with
  | create claims new uuid now persist =>
    simp only [step]
    obtain h | h := create_cases cfg now persist claims new uuid m <;> rw [h]
  | cancel req => rfl
  | shutdown => rfl
  | signal i =>
    simp only [step, signal]
    split
    · split_ifs <;> rfl
    · rfl
  | run i env =>
    simp only [step]
    cases hi : m.threads[i]? with
    | none => rw [stepAt_of_none hi]
    | some t =>
      rw [stepAt_of_some hi]
      exact (t.effect_step env m.shared).limits_eq

theorem limits_run (cfg : InvocationStoreConfig) (limits : InvocationRunningLimits) (records : List Invocation)
    (actions : List Action) : (run cfg (opened limits records) actions).shared.slots.limits = limits := by
  induction actions using reverseRecOn with
  | nil => rfl
  | append_singleton actions a ih =>
    rw [run_append, run_cons, run_nil, limits_step, ih]

end Bridge

/-! ### The reads before an admission -/

/-- A place of the admission loop is entered from there. -/
theorem Thread.next_of_step_admit {pc' : AdmitPc} (hpc' : pc' ≠ .subscribe)
    (h : (t.step env sh).thread = .task inv (.admitting pc')) :
    ∃ pc sh', t = .task inv (.admitting pc) ∧ pc.Next env inv sh (.admitting pc') sh' := by
  rcases t with inv' | ⟨inv', _ | pc | pc | pc⟩ | _ | _
  · cases h
  · cases h
    exact absurd rfl hpc'
  · have hnext := pc.next_step env inv' sh
    obtain ⟨rfl, hstep⟩ : inv' = inv ∧ (pc.step env inv' sh).1 = .admitting pc' := by
      simpa [step] using h
    rw [hstep] at hnext
    exact ⟨pc, _, rfl, hnext⟩
  · have hnext := pc.next_step env inv' sh
    have hstep : (pc.step env inv' sh).1 = .admitting pc' := by
      have := (task.inj h).2
      exact this
    rw [hstep] at hnext
    cases hnext
  · have hstep : (pc.step inv' sh).1 = .admitting pc' := (task.inj h).2
    cases pc <;> cases hstep
  · cases h
  · cases h

variable {seen : ℕ}

theorem Thread.eq_of_step_readOldest {admitted : List String}
    (h : (t.step env sh).thread = .task inv (.admitting (.readOldest seen admitted))) :
    t = .task inv (.admitting (.readAdmitted seen)) ∧ admitted = sh.slots.admittedIds := by
  obtain ⟨pc, sh', rfl, hnext⟩ := next_of_step_admit (by simp) h
  cases hnext with
  | readAdmitted => exact ⟨rfl, rfl⟩

theorem Thread.eq_of_step_tryAdmit (h : (t.step env sh).thread = .task inv (.admitting (.tryAdmit seen))) :
    ∃ admitted oldest, t = .task inv (.admitting (.readOldest seen admitted)) ∧
      oldestQueuedInScopeExcluding inv.tenantId inv.projectId admitted sh.records = some oldest ∧
        oldest.id = inv.id := by
  obtain ⟨pc, sh', rfl, hnext⟩ := next_of_step_admit (by simp) h
  cases hnext with
  | head holdest hid => exact ⟨_, _, rfl, holdest, hid⟩

namespace Bridge

/-- Thread `i` has taken a step where `P` held, and none since. -/
def LastStep (actions : List Action) (i : ℕ) (P : List Action → Prop) : Prop :=
  ∃ before env since, actions = before ++ .run i env :: since ∧ (∀ env', .run i env' ∉ since) ∧ P before

variable {a : Action} {i : ℕ}

theorem LastStep.append {P : List Action → Prop} (h : LastStep actions i P)
    (ha : ∀ env, a ≠ .run i env) : LastStep (actions ++ [a]) i P := by
  obtain ⟨before, env, since, rfl, hsince, hP⟩ := h
  refine ⟨before, env, since ++ [a], by simp, fun env' hmem => ?_, hP⟩
  rcases mem_append.1 hmem with hmem | hmem
  · exact hsince env' hmem
  · exact ha env' (mem_singleton.1 hmem).symm

/-- The last step of the thread has read the admitted ids. -/
def SawAdmitted (cfg : InvocationStoreConfig) (m₀ : Bridge) (i : ℕ) (inv : Invocation)
    (admitted : List String) (actions : List Action) : Prop :=
  LastStep actions i fun before =>
    (∃ seen, (run cfg m₀ before).threads[i]? = some (.task inv (.admitting (.readAdmitted seen)))) ∧
      admitted = (run cfg m₀ before).shared.slots.admittedIds

/-- The last step of the thread has found its own invocation to be the oldest; the one before it has read
the admitted ids. -/
def SawOldest (cfg : InvocationStoreConfig) (m₀ : Bridge) (i : ℕ) (inv : Invocation)
    (actions : List Action) : Prop :=
  LastStep actions i fun before =>
    ∃ seen admitted oldest,
      (run cfg m₀ before).threads[i]? = some (.task inv (.admitting (.readOldest seen admitted))) ∧
      oldestQueuedInScopeExcluding inv.tenantId inv.projectId admitted
        (run cfg m₀ before).shared.records = some oldest ∧ oldest.id = inv.id ∧
      SawAdmitted cfg m₀ i inv admitted before

/-- Where a task is about to read the store, it has read the ledger; where it is about to be admitted, it
has read both. -/
theorem saw_run (cfg : InvocationStoreConfig) (limits : InvocationRunningLimits)
    (records : List Invocation) (actions : List Action) (i : ℕ) (inv : Invocation) :
    (∀ seen admitted, (run cfg (opened limits records) actions).threads[i]? =
        some (.task inv (.admitting (.readOldest seen admitted))) →
      SawAdmitted cfg (opened limits records) i inv admitted actions) ∧
    ∀ seen, (run cfg (opened limits records) actions).threads[i]? = some (.task inv (.admitting (.tryAdmit seen))) →
      SawOldest cfg (opened limits records) i inv actions := by
  induction actions using reverseRecOn with
  | nil => exact ⟨fun _ _ h => (nomatch h), fun _ h => (nomatch h)⟩
  | append_singleton actions a ih =>
    rw [run_append, run_cons, run_nil]
    constructor
    · intro seen admitted h
      obtain ⟨env, t, rfl, hi, ht⟩ | ⟨ha, hi⟩ | ⟨-, hnew⟩ := threads_step h
      · obtain ⟨rfl, rfl⟩ := eq_of_step_readOldest ht.symm
        exact ⟨actions, env, [], rfl, fun _ h => (nomatch h), ⟨seen, hi⟩, rfl⟩
      · exact (ih.1 seen admitted hi).append ha
      · cases hnew
    · intro seen h
      obtain ⟨env, t, rfl, hi, ht⟩ | ⟨ha, hi⟩ | ⟨-, hnew⟩ := threads_step h
      · obtain ⟨admitted, oldest, rfl, holdest, hid⟩ := eq_of_step_tryAdmit ht.symm
        exact ⟨actions, env, [], rfl, fun _ h => (nomatch h), seen, admitted, oldest, hi, holdest,
          hid, ih.1 seen admitted hi⟩
      · exact (ih.2 seen hi).append ha
      · cases hnew

variable {cfg : InvocationStoreConfig}

theorem admits_cases {m : Bridge} (hbefore : id ∉ m.shared.slots.admittedIds)
    (hafter : id ∈ (m.step cfg a).shared.slots.admittedIds) :
    ∃ i env inv seen, a = .run i env ∧ inv.id = id ∧
      m.threads[i]? = some (.task inv (.admitting (.tryAdmit seen))) := by
  cases a with
  | create claims new uuid now persist =>
    simp only [step] at hafter
    obtain h | h := create_cases cfg now persist claims new uuid m <;> rw [h] at hafter <;>
      exact absurd hafter hbefore
  | cancel req => exact absurd hafter hbefore
  | shutdown => exact absurd hafter hbefore
  | signal i =>
    simp only [step, signal] at hafter
    split at hafter
    · split_ifs at hafter <;> exact absurd hafter hbefore
    · exact absurd hafter hbefore
  | run i env =>
    simp only [step] at hafter
    cases hi : m.threads[i]? with
    | none =>
      rw [stepAt_of_none hi] at hafter
      exact absurd hafter hbefore
    | some t =>
      rw [stepAt_of_some hi, shared_advance] at hafter
      generalize (t.step env m.shared).shared = sh, t.effect_step env m.shared = heffect at *
      cases heffect with
      | @admission inv seen ht =>
        subst ht
        obtain h | ⟨-, hid⟩ := mem_admittedIds_tryAdmit.1 hafter
        · exact absurd h hbefore
        · exact ⟨i, env, inv, seen, rfl, hid.symm, hi⟩
      | release =>
        exact absurd (mem_admittedIds_release.1 hafter).1 hbefore
      | _ => exact absurd hafter hbefore

/-- The task of an id that is about to be admitted: whatever was queued in its scope and older when it
read the store, had been admitted when it read the ledger before. -/
def InOrder (cfg : InvocationStoreConfig) (m₀ : Bridge) (actions : List Action) (id : String) : Prop :=
  ∃ i inv, inv.id = id ∧ (∃ seen, (run cfg m₀ actions).threads[i]? = some (.task inv (.admitting (.tryAdmit seen)))) ∧
    LastStep actions i fun store =>
      (∃ seen admitted, (run cfg m₀ store).threads[i]? = some (.task inv (.admitting (.readOldest seen admitted)))) ∧
      LastStep store i fun ledger =>
        (∃ seen, (run cfg m₀ ledger).threads[i]? = some (.task inv (.admitting (.readAdmitted seen)))) ∧
        ∀ r ∈ (run cfg m₀ store).shared.records, r.state = .queued →
          RunningScope.fromInvocation r = RunningScope.fromInvocation inv → isOlder r inv = true →
            r.id ∈ (run cfg m₀ ledger).shared.slots.admittedIds

theorem inOrder_of_sawOldest {m₀ : Bridge} {inv : Invocation}
    (hi : (run cfg m₀ actions).threads[i]? = some (.task inv (.admitting (.tryAdmit seen))))
    (hwired : ∀ before later, actions = before ++ later → ∃ known, Wired known (run cfg m₀ before))
    (h : SawOldest cfg m₀ i inv actions) : InOrder cfg m₀ actions inv.id := by
  obtain ⟨store, env, since, rfl, hsince, seen', admitted, oldest, hstore, holdest, hid, hsaw⟩ := h
  obtain ⟨ledger, env', since', rfl, hsince', ⟨seen'', hledger⟩, rfl⟩ := hsaw
  refine ⟨i, inv, rfl, ⟨seen, hi⟩, _, env, since, rfl, hsince, ⟨seen', _, hstore⟩,
    ledger, env', since', rfl, hsince', ⟨seen'', hledger⟩, fun r hr hqueued hscope holder => ?_⟩
  -- Otherwise it would have been found instead.
  by_contra hnot
  obtain ⟨known, hw⟩ := hwired _ _ rfl
  obtain ⟨hmem, hmin⟩ := oldest_spec holdest
  obtain ⟨htenant, hproject⟩ := RunningScope.mk.inj hscope
  have hle : age oldest ≤ age r := by
    refine hmin r (mem_filter.2 ⟨hr, ?_⟩)
    simp [hqueued, htenant, hproject, hnot]
  have hcontinues := hw.continues _ (mem_of_getElem? hstore) inv rfl oldest
    (mem_filter.1 hmem).1 hid
  have hage : age oldest = age inv := by
    unfold age
    rw [hcontinues.createdAt_eq, hid]
  rw [hage] at hle
  exact absurd (isOlder_iff.1 holder) (not_lt.2 hle)

/-- The ledger, the executor runs and the order of a run. -/
structure Capped (cfg : InvocationStoreConfig) (limits : InvocationRunningLimits)
    (records : List Invocation) (actions : List Action) : Prop where
  limits_eq : (run cfg (opened limits records) actions).shared.slots.limits = limits
  sound : (run cfg (opened limits records) actions).shared.slots.Sound
  entry_scope : ∀ entry ∈ (run cfg (opened limits records) actions).shared.slots.admitted,
    ∃ inv pc, Thread.task inv pc ∈ (run cfg (opened limits records) actions).threads ∧
      inv.id = entry.1 ∧ RunningScope.fromInvocation inv = entry.2
  inFlight : ∀ id ∈ (run cfg (opened limits records) actions).shared.inFlight,
    id ∈ (run cfg (opened limits records) actions).shared.slots.admittedIds
  unknown : ∀ id ∉ (run cfg (opened limits records) actions).shared.slots.admittedIds,
    (run cfg (opened limits records) actions).shared.slots.release id =
      (false, (run cfg (opened limits records) actions).shared.slots)
  repeated : ∀ id,
    ((run cfg (opened limits records) actions).shared.slots.release id).2.release id =
      (false, ((run cfg (opened limits records) actions).shared.slots.release id).2)
  inOrder : ∀ before a later, actions = before ++ a :: later → ∀ id,
    id ∉ (run cfg (opened limits records) before).shared.slots.admittedIds →
    id ∈ (run cfg (opened limits records) (before ++ [a])).shared.slots.admittedIds →
    InOrder cfg (opened limits records) before id

/-- **Running caps and order of admission**, over any interleaving. -/
theorem capped_run {cfg : InvocationStoreConfig} {limits : InvocationRunningLimits} {records : List Invocation}
    {actions : List Action} (h : IdsDistinct records actions) : Capped cfg limits records actions := by
  have hheld := held_run cfg limits h
  refine ⟨limits_run cfg limits records actions, hheld.sound, fun entry h => hheld.exists_task h,
    fun id hid => hheld.admitted_of_inFlight hid,
    fun id hid => FifoRunningSlots.release_of_not_mem hid,
    fun id => FifoRunningSlots.release_release _ id, ?_⟩
  rintro before a later rfl id hbefore hafter
  rw [run_append, run_cons, run_nil] at hafter
  obtain ⟨i, env, inv, seen, rfl, rfl, hi⟩ := admits_cases hbefore hafter
  refine inOrder_of_sawOldest hi (fun store since hstore => ?_)
    ((saw_run cfg limits records before i inv).2 seen hi)
  subst hstore
  rw [append_assoc] at h
  exact ⟨_, wired_run cfg limits h.left⟩

/-- The ids that are admitted, and those in flight, are the ids of the tasks at such a place. -/
def LedgerExact (m : Bridge) : Prop :=
  ∀ id, (id ∈ m.shared.slots.admittedIds ↔ ∃ inv pc, task inv pc ∈ m.threads ∧ inv.id = id ∧ pc.holdsSlot = true) ∧
    (id ∈ m.shared.inFlight ↔ ∃ inv pc, task inv pc ∈ m.threads ∧ inv.id = id ∧ pc.isExecuting = true)

/-- **No slot is lost or left behind**, over any interleaving. -/
theorem ledgerExact_run {cfg : InvocationStoreConfig} {limits : InvocationRunningLimits} {records : List Invocation}
    {actions : List Action} (h : IdsDistinct records actions) :
    LedgerExact (run cfg (opened limits records) actions) := by
  have hm := held_run cfg limits h
  refine fun id => ⟨⟨hm.exists_holder, ?_⟩, fun hid => ?_, ?_⟩
  · rintro ⟨inv, pc, ht, rfl, hpc⟩
    exact (hm.booked _ ht _ rfl).slot.2 hpc
  · obtain ⟨t, ht, howner⟩ := hm.flight_owned id hid
    have hexecuting := (hm.booked t ht id howner).flight.1 hid
    cases t with
    | task inv pc => exact ⟨inv, pc, ht, Option.some.inj howner, hexecuting⟩
    | _ => cases hexecuting
  · rintro ⟨inv, pc, ht, rfl, hpc⟩
    exact (hm.booked _ ht _ rfl).flight.2 hpc

/-- Nothing happens outside. -/
def calm : Env := ⟨0, .ok (), false, false, false, .ok "", .ok "task", .ok (), none⟩

/-- Two creates; the first task starts its executor, and the second one falls asleep. -/
def twoTasks : List Action :=
  .create acme ⟨plainRequest, none, none, none⟩ "a" 0 (.ok ()) ::
    .create acme ⟨plainRequest, none, none, none⟩ "b" 1000 (.ok ()) ::
      (List.replicate 16 (.run 0 calm) ++ List.replicate 8 (.run 1 calm))

theorem capped_run_twoTasks : (run ⟨days 7, 32, hours 24⟩ (opened ⟨1, 1, 1⟩ []) twoTasks).shared.inFlight = ["inv_a"] ∧
      Capped ⟨days 7, 32, hours 24⟩ ⟨1, 1, 1⟩ [] twoTasks :=
  ⟨by decide +kernel, capped_run (by decide +kernel)⟩

theorem ledgerExact_run_twoTasks : LedgerExact (run ⟨days 7, 32, hours 24⟩ (opened ⟨1, 1, 1⟩ []) twoTasks) :=
  ledgerExact_run (by decide +kernel)

end Bridge

end WildAgentOs.Invocations
