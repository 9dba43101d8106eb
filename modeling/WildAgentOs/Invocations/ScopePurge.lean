import WildAgentOs.Invocations.Idempotency

/-!
# One scope of the invocation store

The scope of some claims, in a run where others work too, against the run of its own operations
alone.  Operations of others sweep expired records of all scopes, and drop expired bindings; that
is all that the scope can notice of them.

* `Renaming`: the UUIDs that another run draws;
* `Expired`, `Shadow`, `Mirrors`, `mirrors_of_other`, `mirrors_of_own`, `Agrees`, `agrees_of_purge`, `agrees_of_runs`.
-/

namespace WildAgentOs.Invocations

open ListPass Server List Option Invocations Server Step Bool

/-! ### Operations of a scope, and ids -/

/-- Claims of the scope: of the same tenant and project. -/
def IsOfScope (scope claims : IsolationClaims) : Bool :=
  claims.tenantId = scope.tenantId && claims.projectId = scope.projectId

/-- The steps that are not made by claims of other scopes. -/
def Step.isOwn (scope : IsolationClaims) (st : Step) : Bool :=
  match st.op with
  | .create claims _ _ => IsOfScope scope claims
  | .transition claims _ _ _ _ => IsOfScope scope claims
  | .get claims _ => IsOfScope scope claims
  | .list claims _ => IsOfScope scope claims
  | .find claims _ _ _ => IsOfScope scope claims
  | .sweep _ => true
  | .restart _ => true

variable {claims : IsolationClaims} {scope : IsolationClaims}

theorem isInScope_eq_of_isOfScope (h : IsOfScope scope claims = true) (r : Invocation) :
    r.isInScope claims = r.isInScope scope := by
  unfold IsOfScope at h
  rw [and_eq_true, decide_eq_true_iff, decide_eq_true_iff] at h
  unfold Invocation.isInScope
  rw [h.1, h.2]

variable {r : Invocation}

theorem not_isInScope_of_not_isOfScope (h : IsOfScope scope claims = false)
    (hr : r.isInScope claims = true) : r.isInScope scope = false := by
  unfold Invocation.isInScope at hr ⊢
  rw [and_eq_true, decide_eq_true_iff, decide_eq_true_iff] at hr
  rw [hr.1, hr.2]
  exact h

/-- Other UUIDs, and the ids made of them. -/
structure Renaming where
  id : String → String
  uuid : String → String
  id_injective : Function.Injective id
  id_uuid : ∀ u, id ("inv_" ++ u) = "inv_" ++ uuid u

def Renaming.refl : Renaming := ⟨fun s => s, fun s => s, fun _ _ h => h, fun _ => rfl⟩

def Invocation.rename (ρ : Renaming) (r : Invocation) : Invocation := { r with id := ρ.id r.id }

def Op.rename (ρ : Renaming) : Op → Op
  | .create claims new uuid => .create claims new (ρ.uuid uuid)
  | .transition claims id expectedRevision next patch =>
    .transition claims (ρ.id id) expectedRevision next patch
  | .get claims id => .get claims (ρ.id id)
  | op => op

def Step.rename (ρ : Renaming) (st : Step) : Step := { st with op := st.op.rename ρ }

@[simp] theorem Step.rename_now (ρ : Renaming) (st : Step) : (st.rename ρ).now = st.now := rfl

@[simp] theorem Step.rename_clock (ρ : Renaming) (st : Step) : (st.rename ρ).clock = st.clock := by
  obtain ⟨op, now, persist⟩ := st
  cases op <;> rfl

theorem Step.rename_refl (st : Step) : st.rename .refl = st := by
  obtain ⟨op, now, persist⟩ := st
  cases op <;> rfl

/-- When a step first reads the clock: a lookup does so before it takes the lock. -/
def Step.reads (st : Step) : Instant :=
  match st.op with
  | .find _ _ _ clock => clock
  | _ => st.now

@[simp] theorem Step.rename_reads (ρ : Renaming) (st : Step) : (st.rename ρ).reads = st.reads := by
  obtain ⟨op, now, persist⟩ := st
  cases op <;> rfl

/-! ### Expired records and their shadows -/

/-- A record whose retention has passed. -/
def Expired (cfg : InvocationStoreConfig) (now : Instant) (r : Invocation) : Prop := isKept cfg.retention now r = false

/-- The record of another run: with another id, and perhaps without a binding that has expired. -/
def Shadow (ρ : Renaming) (now : Instant) (r r' : Invocation) : Prop :=
  r' = r.rename ρ ∨ r' = (dropExpiredBinding now r).rename ρ

variable {now' : Instant} {now : Instant}

theorem isKept_of_later {retention : ℤ} (hle : now ≤ now')
    (h : isKept retention now' r = true) : isKept retention now r = true := by
  unfold isKept at h ⊢
  rw [or_eq_true, decide_eq_true_iff] at h ⊢
  exact h.imp_right fun h => by linarith

variable {cfg : InvocationStoreConfig}

theorem Expired.mono (hle : now ≤ now') (h : Expired cfg now r) : Expired cfg now' r := by
  unfold Expired at h ⊢
  by_contra hkept
  exact absurd ((isKept_of_later hle (by simpa using hkept)).symm.trans h) (by decide)

theorem Expired.isTerminal (h : Expired cfg now r) : r.state.isTerminal = true := by
  unfold Expired isKept at h
  rw [or_eq_false_iff] at h
  simpa using h.1

theorem isLive_of_later {b : IdempotencyBinding} (hle : now ≤ now')
    (h : b.isLive now' = true) : b.isLive now = true := by
  unfold IdempotencyBinding.isLive at h ⊢
  exact decide_eq_true (lt_of_le_of_lt hle (of_decide_eq_true h))

/-- Dropping at two times is dropping at the later one. -/
theorem dropExpiredBinding_comp (hle : now ≤ now') (r : Invocation) :
    dropExpiredBinding now' (dropExpiredBinding now r) = dropExpiredBinding now' r ∧
      dropExpiredBinding now (dropExpiredBinding now' r) = dropExpiredBinding now' r := by
  have hnone : ∀ t, dropExpiredBinding t { r with idempotency := none } = { r with idempotency := none } := fun t => rfl
  obtain ⟨hsame, hlive⟩ | ⟨b, hb, hdead, hdropped⟩ := dropExpiredBinding_cases now' r
  · have hsame' : dropExpiredBinding now r = r := by
      obtain ⟨h, -⟩ | ⟨b, hb, hdead, -⟩ := dropExpiredBinding_cases now r
      · exact h
      · exact absurd ((isLive_of_later hle (hlive b hb)).symm.trans hdead) (by decide)
    rw [hsame', hsame]
    exact ⟨rfl, hsame'⟩
  · rw [hdropped, hnone]
    refine ⟨?_, rfl⟩
    obtain ⟨h, -⟩ | ⟨_, _, _, h⟩ := dropExpiredBinding_cases now r
    · rw [h, hdropped]
    · rw [h, hnone]

variable {ρ : Renaming}

theorem Shadow.mono (hle : now ≤ now') {r r' : Invocation} (h : Shadow ρ now r r') : Shadow ρ now' r r' := by
  obtain h | h := h
  · exact .inl h
  · obtain ⟨hsame, -⟩ | ⟨b, hb, hdead, hdropped⟩ := dropExpiredBinding_cases now r
    · rw [hsame] at h
      exact .inl h
    · right
      obtain ⟨-, hlive⟩ | ⟨_, _, _, hdropped'⟩ := dropExpiredBinding_cases now' r
      · exact absurd ((isLive_of_later hle (hlive b hb)).symm.trans hdead) (by decide)
      · rw [h, hdropped, hdropped']

variable {clock : Instant} {key : String}

section Shadows

variable {ρ : Renaming} {now : Instant} {r r' : Invocation}

/-- A shadow differs in its id and its binding alone. -/
theorem Shadow.eq_with (h : Shadow ρ now r r') : ∃ idempotency, r' = { r with id := ρ.id r.id, idempotency } := by
  obtain rfl | rfl := h
  · exact ⟨r.idempotency, rfl⟩
  · obtain ⟨hsame, -⟩ | ⟨_, _, _, hdropped⟩ := dropExpiredBinding_cases now r
    · rw [hsame]
      exact ⟨r.idempotency, rfl⟩
    · rw [hdropped]
      exact ⟨none, rfl⟩

theorem Shadow.state (h : Shadow ρ now r r') : r'.state = r.state := by
  obtain ⟨_, rfl⟩ := h.eq_with
  rfl

theorem Shadow.revision (h : Shadow ρ now r r') : r'.revision = r.revision := by
  obtain ⟨_, rfl⟩ := h.eq_with
  rfl

theorem Shadow.isInScope (h : Shadow ρ now r r') (claims : IsolationClaims) :
    r'.isInScope claims = r.isInScope claims := by
  obtain ⟨_, rfl⟩ := h.eq_with
  rfl

theorem Shadow.isKept (h : Shadow ρ now r r') (retention : ℤ) (clock : Instant) :
    isKept retention clock r' = isKept retention clock r := by
  obtain ⟨_, rfl⟩ := h.eq_with
  rfl

theorem Shadow.selects (h : Shadow ρ now r r') (claims : IsolationClaims) (id : String) :
    selects claims (ρ.id id) r' = selects claims id r := by
  obtain ⟨_, rfl⟩ := h.eq_with
  unfold selects
  simp only [ρ.id_injective.eq_iff]
  rfl

/-- A binding that is live is also the shadow's. -/
theorem Shadow.bindsKey (h : Shadow ρ now r r') (claims : IsolationClaims) (key : String) :
    r'.bindsKey claims key now = r.bindsKey claims key now := by
  obtain rfl | rfl := h
  · rfl
  · obtain ⟨hsame, -⟩ | ⟨b, hb, hdead, hdropped⟩ := dropExpiredBinding_cases now r
    · rw [hsame]
      rfl
    · rw [hdropped]
      unfold Invocation.bindsKey Invocation.rename
      rw [hb]
      simp [hdead]

/-- The shadow of a record with a live binding has that binding. -/
theorem Shadow.eq_of_bindsKey (h : Shadow ρ now r r')
    (hbinds : r.bindsKey claims key now = true) : r' = r.rename ρ := by
  obtain h | h := h
  · exact h
  · obtain ⟨hsame, -⟩ | ⟨b, hb, hdead, -⟩ := dropExpiredBinding_cases now r
    · rwa [hsame] at h
    · obtain ⟨-, -, -, b', hb', hlive⟩ := bindsKey_iff.1 hbinds
      obtain rfl := some.inj (hb.symm.trans hb')
      exact absurd (hlive.symm.trans hdead) (by decide)

theorem Shadow.applyTransition (h : Shadow ρ now r r') (t : Instant) (actorId : String) (next : InvocationState)
    (patch : TransitionPatch) :
    Shadow ρ now (applyTransition t actorId next patch r) (applyTransition t actorId next patch r') := by
  obtain rfl | rfl := h
  · exact .inl rfl
  · obtain ⟨hsame, -⟩ | ⟨b, hb, hdead, hdropped⟩ := dropExpiredBinding_cases now r
    · rw [hsame]
      exact .inl rfl
    · right
      obtain ⟨-, hlive⟩ | ⟨_, _, _, hdropped'⟩ :=
        dropExpiredBinding_cases now (applyTransition t actorId next patch r)
      · exact absurd ((hlive b hb).symm.trans hdead) (by decide)
      · rw [hdropped, hdropped']
        rfl

theorem Shadow.interrupt (h : Shadow ρ now r r') (t : Instant) : Shadow ρ now (interrupt t r) (interrupt t r') := by
  unfold Invocations.interrupt
  rw [h.state]
  split_ifs with hterminal
  · exact h
  · obtain rfl | rfl := h
    · exact .inl rfl
    · obtain ⟨hsame, -⟩ | ⟨b, hb, hdead, hdropped⟩ := dropExpiredBinding_cases now r
      · rw [hsame]
        exact .inl rfl
      · right
        obtain ⟨-, hlive⟩ | ⟨_, _, _, hdropped'⟩ := dropExpiredBinding_cases now (interruptRecord t r)
        · exact absurd ((hlive b hb).symm.trans hdead) (by decide)
        · rw [hdropped, hdropped']
          rfl

theorem dropExpiredBinding_rename (ρ : Renaming) (t : Instant) (r : Invocation) :
    dropExpiredBinding t (r.rename ρ) = (dropExpiredBinding t r).rename ρ := by
  unfold dropExpiredBinding Invocation.rename
  simp only
  split_ifs <;> rfl

/-- Expired bindings are dropped in both runs. -/
theorem Shadow.dropExpiredBinding (h : Shadow ρ now r r') (hle : clock ≤ now) :
    Shadow ρ now (dropExpiredBinding clock r) (dropExpiredBinding clock r') := by
  obtain rfl | rfl := h
  · exact .inl (dropExpiredBinding_rename ρ clock r)
  · right
    rw [dropExpiredBinding_rename, (dropExpiredBinding_comp hle r).1, (dropExpiredBinding_comp hle r).2]

/-- Expired bindings are dropped in the second run alone. -/
theorem Shadow.dropExpiredBinding_right (h : Shadow ρ now r r')
    (hle : clock ≤ now) : Shadow ρ now r (Invocations.dropExpiredBinding clock r') := by
  obtain rfl | rfl := h
  · rw [dropExpiredBinding_rename]
    have hclock : Shadow ρ clock r ((Invocations.dropExpiredBinding clock r).rename ρ) := .inr rfl
    exact hclock.mono hle
  · right
    rw [dropExpiredBinding_rename, (dropExpiredBinding_comp hle r).2]

end Shadows

/-! ### The records of a scope -/

/-- The records of the scope. -/
def ownRecords (scope : IsolationClaims) (records : List Invocation) : List Invocation :=
  records.filter (·.isInScope scope)

theorem mem_ownRecords {records : List Invocation} :
    r ∈ ownRecords scope records ↔ r ∈ records ∧ r.isInScope scope = true := mem_filter

theorem isInScope_dropExpiredBinding (now : Instant) (r : Invocation) (claims : IsolationClaims) :
    (dropExpiredBinding now r).isInScope claims = r.isInScope claims := by
  unfold dropExpiredBinding
  split_ifs <;> rfl

theorem isKept_dropExpiredBinding (retention : ℤ) (clock now : Instant) (r : Invocation) :
    isKept retention clock (dropExpiredBinding now r) = isKept retention clock r := by
  unfold dropExpiredBinding
  split_ifs <;> rfl

theorem isInScope_interrupt (now : Instant) (r : Invocation) (claims : IsolationClaims) :
    (interrupt now r).isInScope claims = r.isInScope claims := by
  unfold interrupt
  split_ifs <;> rfl

variable {change : Invocation → Invocation}

/-- Retention works on each scope on its own. -/
theorem ownRecords_retention
    (hchange : ∀ r, (change r).isInScope scope = r.isInScope scope) (records : List Invocation) :
    ownRecords scope
        (dropExpiredBindings clock (sweepExpiredRecords cfg.retention clock (records.map change))) =
      (ownRecords scope records).filterMap fun r => retain cfg clock (change r) := by
  rw [retention_eq_filterMap]
  refine filter_filterMap_comm (fun r r' h => ?_) records
  unfold retain at h
  split_ifs at h
  cases h
  rw [isInScope_dropExpiredBinding, hchange]

variable {l l' : List Invocation} {now clock : Instant}

/-- The same retention in both runs, of records that a restart may have interrupted before. -/
theorem retention_both (hle : clock ≤ now) {drop : Invocation → Prop}
    (hshadow : ∀ r r', Shadow ρ now r r' → Shadow ρ now (change r) (change r'))
    (hdrop : ∀ r, Expired cfg now r → ∀ r', retain cfg clock (change r) = some r' → drop r')
    (h : Passes (Expired cfg now) (Shadow ρ now) l l') :
    Passes drop (Shadow ρ now) (l.filterMap fun r => retain cfg clock (change r))
      (l'.filterMap fun r => retain cfg clock (change r)) := by
  refine h.filterMap_both hdrop fun r r' hr => ?_
  unfold retain
  have hchanged := hshadow r r' hr
  rw [hchanged.isKept]
  split_ifs
  · exact .inr ⟨_, _, rfl, rfl, hchanged.dropExpiredBinding hle⟩
  · exact .inl ⟨rfl, rfl⟩

/-- Retention in the second run alone. -/
theorem retention_right (hle : clock ≤ now) (h : Passes (Expired cfg now) (Shadow ρ now) l l') :
    Passes (Expired cfg now) (Shadow ρ now) l (l'.filterMap (retain cfg clock)) := by
  have hretained : Passes (Expired cfg clock) (fun r r' => r' = dropExpiredBinding clock r) l'
      (l'.filterMap (retain cfg clock)) := by
    unfold retain
    refine .of_filterMap _ (fun r _ hr => ?_) fun r _ r' hr => ?_
    · split_ifs at hr with hkept
      exact eq_false_of_not_eq_true hkept
    · split_ifs at hr
      exact (some.inj hr).symm
  refine h.trans hretained (fun _ hr => hr) (fun r r' hr hexpired => ?_) fun r r' r'' hr hr' => ?_
  · unfold Expired at hexpired
    rw [hr.isKept] at hexpired
    exact Expired.mono hle hexpired
  · rw [hr']
    exact hr.dropExpiredBinding_right hle

/-! ### What is known of a server after a run -/

structure Healthy (cfg : InvocationStoreConfig) (now : Instant) (s : Server) : Prop where
  sound : s.Sound
  tracked : ∀ r ∈ s.file, Tracked r
  timed : ∀ r ∈ s.file, Timed cfg now r
  ids : (s.file.map Invocation.id).Nodup
  keys : s.file.Pairwise fun r r' => ¬Rivals r r'

variable {steps : List Step}

theorem healthy_run (hcfg : cfg.Accepted) (hclock : Clocked steps) (huuids : UuidsDistinct steps)
    (hnow : ∀ st ∈ steps, st.now ≤ now) : Healthy cfg now (init.run cfg steps) where
  sound := sound_run cfg steps
  tracked := tracked_run cfg steps
  timed := timed_run hcfg hclock hnow
  ids := nodup_ids huuids
  keys := pairwise_not_rivals cfg steps

variable {s : Server}

theorem Healthy.selects_one (h : Healthy cfg now s) (claims : IsolationClaims) (id : String) :
    s.file.Pairwise fun r r' => selects claims id r = true → selects claims id r' = false := by
  refine (pairwise_map.1 h.ids).imp fun {r r'} hne hr => ?_
  by_contra hr'
  exact hne ((selects_iff.1 hr).1.trans (selects_iff.1 (by simpa using hr')).1.symm)

theorem Healthy.bindsKey_one (h : Healthy cfg now s) (claims : IsolationClaims) (key : String) (clock : Instant) :
    s.file.Pairwise fun r r' => r.bindsKey claims key clock = true → r'.bindsKey claims key clock = false := by
  refine h.keys.imp fun {r r'} hnot hr => ?_
  by_contra hr'
  exact hnot (rivals_of_bindsKey hr (by simpa using hr'))

/-- A record with a live binding is not expired. -/
theorem Healthy.not_expired (h : Healthy cfg now s) (hr : r ∈ s.file) (hbinds : r.bindsKey claims key clock = true) :
    ¬Expired cfg clock r := by
  intro hexpired
  obtain ⟨-, -, -, b, hb, hlive⟩ := bindsKey_iff.1 hbinds
  exact absurd (((h.timed r hr).isKept (h.tracked r hr) hb hlive).symm.trans hexpired) (by decide)

/-! ### Two runs -/

/-- The run of the scope alone, and another run: both have a store, or neither has; and the second
has the records of the first, less some that are expired. -/
structure Mirrors (cfg : InvocationStoreConfig) (scope : IsolationClaims) (ρ : Renaming)
    (now : Instant) (l a : Server) : Prop where
  opened : a.records.isSome = l.records.isSome
  passes : Passes (Expired cfg now) (Shadow ρ now) (ownRecords scope l.file) (ownRecords scope a.file)

theorem Mirrors.mono
    {l a : Server} (h : Mirrors cfg scope ρ now l a) (hle : now ≤ now') : Mirrors cfg scope ρ now' l a :=
  ⟨h.opened, h.passes.mono (fun _ hr => hr.mono hle) fun _ _ hr => hr.mono hle⟩

variable {st : Step}

section TwoRuns

variable {cfg : InvocationStoreConfig} {scope : IsolationClaims} {ρ : Renaming} {now clock : Instant}
  {l a : Server}

/-- Both find the record that binds a key. -/
theorem Mirrors.findBound (h : Mirrors cfg scope ρ clock l a) (hl : Healthy cfg now l)
    (hclaims : IsOfScope scope claims = true) (key : String) :
    findBound a.file claims key clock = (findBound l.file claims key clock).map (·.rename ρ) := by
  have hown : ∀ r : Invocation, r.bindsKey claims key clock = true → r.isInScope scope = true := by
    intro r hr
    rw [← isInScope_eq_of_isOfScope hclaims]
    unfold Invocation.bindsKey at hr
    simp only [and_eq_true] at hr
    exact hr.1.1.1
  unfold Invocations.findBound
  rw [← find?_filter_of_imp hown l.file, ← find?_filter_of_imp hown a.file]
  obtain ⟨hnone, hnone'⟩ | ⟨r, hr, hexpired, -⟩ | ⟨r, r', hr, hr', hshadow, -⟩ :=
    h.passes.find?_both ((hl.bindsKey_one claims key clock).sublist filter_sublist)
      fun r r' hshadow => hshadow.bindsKey claims key
  · unfold ownRecords at hnone hnone'
    rw [hnone, hnone']
    rfl
  · have hmem := (mem_ownRecords.1 (mem_of_find?_eq_some hr)).1
    have hbinds : r.bindsKey claims key clock = true := by simpa using find?_some hr
    exact absurd hexpired (hl.not_expired hmem hbinds)
  · have hbinds : r.bindsKey claims key clock = true := by simpa using find?_some hr
    have heq := hshadow.eq_of_bindsKey hbinds
    unfold ownRecords at hr hr'
    rw [hr, hr', heq]
    rfl

theorem Mirrors.boundTo (h : Mirrors cfg scope ρ clock l a) (hl : Healthy cfg now l)
    (hclaims : IsOfScope scope claims = true) (new : NewInvocation) :
    boundTo a.file claims new clock = (boundTo l.file claims new clock).map fun (r, same) => (r.rename ρ, same) := by
  unfold Invocations.boundTo
  cases new.idempotency with
  | none => rfl
  | some registration =>
    rw [bind_some, bind_some, h.findBound hl hclaims, Option.map_map, Option.map_map]
    rfl

theorem Mirrors.activeInScope (h : Mirrors cfg scope ρ clock l a) (hclaims : IsOfScope scope claims = true) :
    activeInScope a.file claims = activeInScope l.file claims := by
  have hown : ∀ records : List Invocation, Invocations.activeInScope records claims =
      (ownRecords scope records).countP fun r => !r.state.isTerminal := by
    intro records
    unfold Invocations.activeInScope ownRecords
    rw [← countP_eq_length_filter, countP_filter]
    congr 1
    funext r
    rw [isInScope_eq_of_isOfScope hclaims]
  rw [hown, hown]
  refine h.passes.countP_eq (fun r hr => ?_) fun r r' hr => ?_
  · rw [hr.isTerminal]
    rfl
  · rw [hr.state]

theorem newInvocation_rename (ρ : Renaming) (cfg : InvocationStoreConfig) (now : Instant) (uuid : String)
    (claims : IsolationClaims) (new : NewInvocation) :
    newInvocation cfg now (ρ.uuid uuid) claims new = (newInvocation cfg now uuid claims new).rename ρ := by
  unfold newInvocation Invocation.rename Invocation.pushAudit
  rw [← ρ.id_uuid]

def CreateOutcome.rename (ρ : Renaming) : CreateOutcome → CreateOutcome
  | .created r => .created (r.rename ρ)
  | .replayed r => .replayed (r.rename ρ)

variable {claims : IsolationClaims}

/-- A create of the scope is answered alike, and adds the same record. -/
theorem Mirrors.create (h : Mirrors cfg scope ρ now l a) (hl : Healthy cfg now l)
    (hscope : ∀ r ∈ l.file, r.isInScope scope = true)
    (hclaims : IsOfScope scope claims = true) (new : NewInvocation) (uuid : String)
    (hfull : (createIdempotentForClaims cfg now (ρ.uuid uuid) (.ok ()) claims new a.file).1 ≠ .error .storeFull) :
    (createIdempotentForClaims cfg now (ρ.uuid uuid) (.ok ()) claims new a.file).1 =
      (createIdempotentForClaims cfg now uuid (.ok ()) claims new l.file).1.map
        (CreateOutcome.rename ρ) ∧
    Passes (Expired cfg now) (Shadow ρ now)
      (ownRecords scope ((createIdempotentForClaims cfg now uuid (.ok ()) claims new l.file).2.getD l.file))
      (ownRecords scope
        ((createIdempotentForClaims cfg now (ρ.uuid uuid) (.ok ()) claims new a.file).2.getD a.file)) := by
  have hretained : Passes (fun _ => False) (Shadow ρ now)
      (ownRecords scope (dropExpiredBindings now (sweepExpiredRecords cfg.retention now l.file)))
      (ownRecords scope (dropExpiredBindings now (sweepExpiredRecords cfg.retention now a.file))) := by
    have hid : ∀ records : List Invocation, records = records.map fun r => r := by simp
    rw [hid l.file, hid a.file, ownRecords_retention fun _ => rfl, ownRecords_retention fun _ => rfl]
    refine retention_both (le_refl now) (fun _ _ hr => hr) (fun r hr r' hr' => ?_) h.passes
    -- What has expired by now is swept by this create in both runs.
    unfold retain at hr'
    rw [hr] at hr'
    cases hr'
  have hlength : (dropExpiredBindings now (sweepExpiredRecords cfg.retention now l.file)).length ≤
      (dropExpiredBindings now (sweepExpiredRecords cfg.retention now a.file)).length := by
    have hall : ownRecords scope
        (dropExpiredBindings now (sweepExpiredRecords cfg.retention now l.file)) =
        dropExpiredBindings now (sweepExpiredRecords cfg.retention now l.file) := by
      refine filter_eq_self.2 fun r hr => ?_
      obtain ⟨r₀, hr₀, rfl⟩ := List.mem_map.1 hr
      rw [isInScope_dropExpiredBinding]
      exact hscope r₀ (mem_filter.1 hr₀).1
    rw [← hall, ← hretained.length_eq fun _ h => h]
    exact length_filter_le _ _
  unfold createIdempotentForClaims at hfull ⊢
  rw [h.boundTo hl hclaims, h.activeInScope hclaims] at hfull ⊢
  rcases hbound : Invocations.boundTo l.file claims new now with - | ⟨r, same⟩
  · rw [hbound, map_none] at hfull
    rw [map_none]
    simp only at hfull ⊢
    by_cases hactive : cfg.maxActivePerScope ≤ Invocations.activeInScope l.file claims
    · rw [if_pos hactive, if_pos hactive]
      exact ⟨rfl, h.passes⟩
    · rw [if_neg hactive] at hfull
      rw [if_neg hactive, if_neg hactive]
      by_cases hfullA : MAX_STORED_INVOCATIONS ≤
          (dropExpiredBindings now (sweepExpiredRecords cfg.retention now a.file)).length
      · rw [if_pos hfullA] at hfull
        exact absurd rfl hfull
      · rw [if_neg hfullA, if_neg fun hfullL => hfullA (hfullL.trans hlength)]
        rw [newInvocation_rename]
        refine ⟨rfl, ?_⟩
        change Passes _ _ (ownRecords scope (_ ++ [_])) (ownRecords scope (_ ++ [_]))
        unfold ownRecords at hretained ⊢
        rw [filter_append, filter_append]
        refine (hretained.mono (fun _ h => h.elim) fun _ _ h => h).append ?_
        exact (Passes.keep (.inl rfl) .nil).filter_both fun r r' hr => hr.isInScope scope
  · cases same
    · exact ⟨rfl, h.passes⟩
    · exact ⟨rfl, h.passes⟩

/-- Two answers to a step that the scope makes in both runs, where the first one has its records:
the same, but that the second can miss a record that has expired. -/
inductive Agrees (cfg : InvocationStoreConfig) (ρ : Renaming) (records : List Invocation)
    (st : Step) : Outcome → Outcome → Prop
  | unavailable : Agrees cfg ρ records st .unavailable .unavailable
  | create {answer : Except InvocationStoreError CreateOutcome} :
      Agrees cfg ρ records st (.create answer) (.create (answer.map (CreateOutcome.rename ρ)))
  | miss : Agrees cfg ρ records st (.find .miss) (.find .miss)
  | replay {r : Invocation} : Agrees cfg ρ records st (.find (.replay r)) (.find (.replay (r.rename ρ)))
  | conflict : Agrees cfg ρ records st (.find .conflict) (.find .conflict)
  | got {r r' : Invocation} : Shadow ρ st.now r r' → Agrees cfg ρ records st (.get (.ok r)) (.get (.ok r'))
  | notFound : Agrees cfg ρ records st (.get (.error .notFound)) (.get (.error .notFound))
  | gotExpired {r : Invocation} : Expired cfg st.now r →
      Agrees cfg ρ records st (.get (.ok r)) (.get (.error .notFound))
  | listed {listing listing' found found' : List Invocation} : listing.Perm found →
      listing'.Perm found' → Passes (Expired cfg st.now) (Shadow ρ st.now) found found' →
      listing.Pairwise (fun r r' => r'.createdAt.micros ≤ r.createdAt.micros) →
      listing'.Pairwise (fun r r' => r'.createdAt.micros ≤ r.createdAt.micros) →
      Agrees cfg ρ records st (.list listing) (.list listing')
  | refused {e : InvocationStoreError} : Agrees cfg ρ records st (.transition (.error e)) (.transition (.error e))
  | changed {r r' : Invocation} {changed : Bool} : Shadow ρ st.now r r' →
      Agrees cfg ρ records st (.transition (.ok ⟨r, changed⟩)) (.transition (.ok ⟨r', changed⟩))
  | changedExpired {claims : IsolationClaims} {id : String} {expectedRevision : Option ℕ}
      {next : InvocationState} {patch : TransitionPatch} {r : Invocation}
      {answer : Except InvocationStoreError TransitionOutcome} :
      st.op = .transition claims id expectedRevision next patch → r ∈ records →
      selects claims id r = true → Expired cfg st.now r →
      Agrees cfg ρ records st (.transition answer) (.transition (.error .notFound))

variable {id : String}

theorem isInScope_of_selects (hclaims : IsOfScope scope claims = true) (h : selects claims id r = true) :
    r.isInScope scope = true := by
  rw [← isInScope_eq_of_isOfScope hclaims]
  exact (selects_iff.1 h).2

/-- Both find the record of an id, or in one run it has expired and is gone. -/
theorem Mirrors.select (h : Mirrors cfg scope ρ now l a) (hl : Healthy cfg now l)
    (hclaims : IsOfScope scope claims = true) (id : String) :
    (l.file.find? (selects claims id) = none ∧ a.file.find? (selects claims (ρ.id id)) = none) ∨
    (∃ r, l.file.find? (selects claims id) = some r ∧ Expired cfg now r ∧
      a.file.find? (selects claims (ρ.id id)) = none) ∨
    ∃ r r', l.file.find? (selects claims id) = some r ∧
      a.file.find? (selects claims (ρ.id id)) = some r' ∧ Shadow ρ now r r' ∧
      ∀ u u', u.isInScope scope = true → Shadow ρ now u u' →
        Passes (Expired cfg now) (Shadow ρ now)
          (ownRecords scope (replaceFirst (selects claims id) u l.file))
          (ownRecords scope (replaceFirst (selects claims (ρ.id id)) u' a.file)) := by
  have hown : ∀ (id : String) (r : Invocation), selects claims id r = true →
      r.isInScope scope = true := fun id r hr => isInScope_of_selects hclaims hr
  rw [← find?_filter_of_imp (hown id) l.file, ← find?_filter_of_imp (hown (ρ.id id)) a.file]
  obtain hnone | hexpired | ⟨r, r', hr, hr', hshadow, hreplace⟩ :=
    h.passes.find?_both ((hl.selects_one claims id).sublist filter_sublist)
      fun r r' hshadow => hshadow.selects claims id
  · exact .inl hnone
  · exact .inr (.inl hexpired)
  · refine .inr (.inr ⟨r, r', hr, hr', hshadow, fun u u' hu huu' => ?_⟩)
    unfold ownRecords
    rw [filter_replaceFirst_of_pos (hown id) hu,
      filter_replaceFirst_of_pos (hown (ρ.id id)) (by rw [huu'.isInScope, hu])]
    exact hreplace u u' huu'

theorem Mirrors.transition (h : Mirrors cfg scope ρ now l a) (hl : Healthy cfg now l)
    (hclaims : IsOfScope scope claims = true) {expectedRevision : Option ℕ} {next : InvocationState}
    {patch : TransitionPatch}
    (hop : st.op = .transition claims id expectedRevision next patch) (hnow : st.now = now) :
    Agrees cfg ρ l.file st
      (.transition (transitionOutcomeForClaims now (.ok ()) claims id expectedRevision next patch l.file).1)
      (.transition (transitionOutcomeForClaims now (.ok ()) claims (ρ.id id) expectedRevision next patch a.file).1) ∧
    Passes (Expired cfg now) (Shadow ρ now)
      (ownRecords scope ((transitionOutcomeForClaims now (.ok ()) claims id expectedRevision next
        patch l.file).2.getD l.file))
      (ownRecords scope ((transitionOutcomeForClaims now (.ok ()) claims (ρ.id id) expectedRevision
        next patch a.file).2.getD a.file)) := by
  unfold transitionOutcomeForClaims
  cases (patch.usage.map validateUsage).getD (.ok ()) with
  | error message => exact ⟨.refused, h.passes⟩
  | ok =>
    simp only
    obtain ⟨hnone, hnone'⟩ | ⟨r, hr, hexpired, hnone'⟩ | ⟨r, r', hr, hr', hshadow, hreplace⟩ := h.select hl hclaims id
    · rw [hnone, hnone']
      exact ⟨.refused, h.passes⟩
    · rw [hr, hnone']
      refine ⟨.changedExpired hop (mem_of_find?_eq_some hr) (find?_some hr) (hnow ▸ hexpired), ?_⟩
      -- Nothing is written to a terminal record.
      simp only [hexpired.isTerminal, Bool.true_or, if_true]
      split_ifs <;> exact h.passes
    · rw [hr, hr']
      simp only [hshadow.state, hshadow.revision]
      split_ifs
      · exact ⟨.changed (hnow ▸ hshadow), h.passes⟩
      · exact ⟨.refused, h.passes⟩
      · exact ⟨.refused, h.passes⟩
      · have hupdated := hshadow.applyTransition now claims.actorId next patch
        refine ⟨.changed (hnow ▸ hupdated), ?_⟩
        have hscope : r.isInScope scope = true := isInScope_of_selects hclaims (find?_some hr)
        exact hreplace _ _ hscope hupdated

theorem pairwise_listForClaims (claims : IsolationClaims) (state : Option InvocationState) (records : List Invocation) :
    (listForClaims claims state records).Pairwise fun r r' => r'.createdAt.micros ≤ r.createdAt.micros := by
  have hsorted : (listForClaims claims state records).Pairwise
      fun r r' => newestFirst r r' = true :=
    @pairwise_mergeSort Invocation newestFirst (fun _ _ _ => newestFirst_trans)
      newestFirst_total _
  refine hsorted.imp fun {r r'} h => ?_
  unfold newestFirst at h
  simp only [or_eq_true, and_eq_true, decide_eq_true_iff] at h
  obtain h | ⟨h, -⟩ := h
  · exact h.le
  · rw [h]

theorem Mirrors.list (h : Mirrors cfg scope ρ now l a) (hclaims : IsOfScope scope claims = true)
    (hnow : st.now = now) (state : Option InvocationState) :
    Agrees cfg ρ l.file st (.list (listForClaims claims state l.file)) (.list (listForClaims claims state a.file)) := by
  have hown : ∀ records : List Invocation,
      (records.filter fun r => r.isInScope claims && state.all (r.state = ·)) =
        (ownRecords scope records).filter fun r => state.all (r.state = ·) := by
    intro records
    unfold ownRecords
    rw [List.filter_filter]
    congr 1
    funext r
    rw [isInScope_eq_of_isOfScope hclaims, Bool.and_comm]
  refine .listed (mergeSort_perm _ _) (mergeSort_perm _ _) ?_
    (pairwise_listForClaims _ _ _) (pairwise_listForClaims _ _ _)
  rw [hown, hown, hnow]
  exact h.passes.filter_both fun r r' hr => by rw [hr.state]

theorem Mirrors.get (h : Mirrors cfg scope ρ now l a) (hl : Healthy cfg now l)
    (hclaims : IsOfScope scope claims = true) (hnow : st.now = now) (id : String) :
    Agrees cfg ρ l.file st (.get (getForClaims claims id l.file)) (.get (getForClaims claims (ρ.id id) a.file)) := by
  unfold getForClaims
  obtain ⟨hnone, hnone'⟩ | ⟨r, hr, hexpired, hnone'⟩ | ⟨r, r', hr, hr', hshadow, -⟩ := h.select hl hclaims id
  · rw [hnone, hnone']
    exact .notFound
  · rw [hr, hnone']
    exact .gotExpired (hnow ▸ hexpired)
  · rw [hr, hr']
    exact .got (hnow ▸ hshadow)

theorem Mirrors.find (h : Mirrors cfg scope ρ clock l a) (hl : Healthy cfg now l)
    (hclaims : IsOfScope scope claims = true) (st : Step) (key fingerprint : String) :
    Agrees cfg ρ l.file st (.find (findIdempotentAt claims key fingerprint clock l.file))
      (.find (findIdempotentAt claims key fingerprint clock a.file)) := by
  unfold findIdempotentAt
  rw [h.findBound hl hclaims]
  cases Invocations.findBound l.file claims key clock with
  | none => exact .miss
  | some r =>
    rw [map_some]
    simp only
    have hsame : sameFingerprint (r.rename ρ) fingerprint = sameFingerprint r fingerprint := rfl
    rw [hsame]
    split_ifs
    · exact .replay
    · exact .conflict

end TwoRuns

/-! ### Steps -/

namespace Server

theorem publish_file (s : Server) (snapshot : Option (List Invocation)) :
    (s.publish snapshot).file = snapshot.getD s.file := by
  cases snapshot <;> rfl

theorem publish_isSome (h : s.records.isSome = true)
    (snapshot : Option (List Invocation)) : (s.publish snapshot).records.isSome = true := by
  cases snapshot with
  | none => exact h
  | some snapshot => rfl

variable {α : Type}

/-- An operation works on the file, if the store is open. -/
theorem Sound.serve_eq (h : s.Sound) (outcome : α → Outcome)
    (op : List Invocation → α × Option (List Invocation)) :
    s.serve outcome op = if s.records.isSome then (outcome (op s.file).1, s.publish (op s.file).2)
      else (.unavailable, s) := by
  unfold serve
  obtain hclosed | hopen := h.synced
  · rw [hclosed]
    rfl
  · rw [hopen]
    rfl

/-- Only a restart opens or closes the store. -/
theorem Sound.isSome_serve (h : s.Sound) (outcome : α → Outcome)
    (op : List Invocation → α × Option (List Invocation)) :
    (s.serve outcome op).2.records.isSome = s.records.isSome := by
  rw [h.serve_eq]
  cases hopen : s.records.isSome with
  | false => exact hopen
  | true => exact publish_isSome hopen _

/-- A restart that can write opens the store on what it has recovered. -/
theorem Sound.restart_eq (h : s.Sound) (cfg : InvocationStoreConfig) (now started : Instant) :
    (s.restart cfg now started (.ok ())).2 =
      ⟨recovered cfg now started s.file, some (recovered cfg now started s.file)⟩ := by
  unfold restart
  obtain ⟨e, he⟩ | ⟨report, hsame, hrecovered⟩ | ⟨report, hwrites⟩ :=
    openWithConfig_cases cfg now started (.ok ()) h.usages
  · unfold openWithConfig persisting at he
    simp only at he
    split_ifs at he <;> cases he
  · rw [hsame, hrecovered]
    rfl
  · rw [hwrites]
    rfl

theorem sweepExpiredAt_getD (cfg : InvocationStoreConfig) (clock : Instant) (records : List Invocation) :
    (sweepExpiredAt cfg clock (.ok ()) records).2.getD records = sweepExpiredRecords cfg.retention clock records := by
  unfold sweepExpiredAt persisting
  simp only
  split_ifs with hswept
  · have hle := length_filter_le (isKept cfg.retention clock) records
    unfold sweepExpiredRecords at hswept ⊢
    rw [getD_none]
    exact (filter_sublist.eq_of_length (by omega)).symm
  · rfl

end Server

section Steps

variable {cfg : InvocationStoreConfig} {scope : IsolationClaims} {ρ : Renaming} {now : Instant}
  {l a : Server}

/-- **A step of others** leaves the scope's records, less some that are expired. -/
theorem mirrors_of_other (h : Mirrors cfg scope ρ now l a) (ha : a.Sound) (hother : st.isOwn scope = false)
    (hnow : st.now ≤ now) : Mirrors cfg scope ρ now l (a.step cfg st).2 := by
  have hclaims : ∀ {claims : IsolationClaims} {r : Invocation}, IsOfScope scope claims = false →
      r.isInScope claims = true → r.isInScope scope = false :=
    fun hclaims hr => not_isInScope_of_not_isOfScope hclaims hr
  constructor
  · rw [← h.opened]
    unfold step
    cases hop : st.op with
    | restart => simp [isOwn, hop] at hother
    | _ => exact ha.isSome_serve _ _
  · obtain hsame | hwrites := (step_writes ha).2
    · rw [hsame]
      exact h.passes
    · unfold isOwn at hother
      generalize (a.step cfg st).2.file = snapshot at hwrites
      cases hwrites with
      | @create claims new uuid hop _ _ =>
        rw [hop] at hother
        have hadded : (newInvocation cfg st.now uuid claims new).isInScope scope = false :=
          hclaims hother (by simp [newInvocation, Invocation.pushAudit, Invocation.isInScope])
        have hid : a.file = a.file.map fun r => r := by simp
        unfold ownRecords
        rw [filter_append, filter_cons_of_neg (by simp [hadded]), filter_nil,
          append_nil]
        change Passes _ _ _ (ownRecords scope _)
        rw [hid, ownRecords_retention fun _ => rfl]
        -- What this create sweeps has expired; so have the bindings that it drops.
        exact retention_right hnow h.passes
      | @transition claims id expectedRevision next patch current hop _ hfind _ _ _ =>
        rw [hop] at hother
        have hselected : ∀ r, selects claims id r = true → r.isInScope scope = false :=
          fun r hr => hclaims hother (selects_iff.1 hr).2
        have hcurrent : current.isInScope scope = false := hselected _ (find?_some hfind)
        have hupdated : (applyTransition st.now claims.actorId next patch current).isInScope scope = false := hcurrent
        unfold ownRecords
        rw [filter_replaceFirst_of_neg hselected hupdated]
        exact h.passes
      | sweep hop =>
        rw [hop] at hother
        cases hother
      | restart hop =>
        rw [hop] at hother
        cases hother

/-- **A step of the scope**, or of all scopes, is made in both runs. -/
theorem mirrors_of_own (h : Mirrors cfg scope ρ st.now l a) (hl : Healthy cfg st.now l)
    (ha : a.Sound) (hscope : ∀ r ∈ l.file, r.isInScope scope = true) (hown : st.isOwn scope = true)
    (hpersist : st.persist = .ok ())
    (hfull : (a.step cfg (st.rename ρ)).1 ≠ .create (.error .storeFull)) (hnow : st.now ≤ now)
    (hclock : st.clock ≤ now) :
    Mirrors cfg scope ρ now (l.step cfg st).2 (a.step cfg (st.rename ρ)).2 := by
  have hlater := h.mono hnow
  obtain ⟨op, time, persist⟩ := st
  obtain rfl : persist = .ok () := hpersist
  -- An operation of a store that is open in both runs.
  have hserve : ∀ {α : Type} (outcome outcome' : α → Outcome)
      (op op' : List Invocation → α × Option (List Invocation)),
      (a.records.isSome = true → Passes (Expired cfg now) (Shadow ρ now) (ownRecords scope ((op l.file).2.getD l.file))
        (ownRecords scope ((op' a.file).2.getD a.file))) →
      Mirrors cfg scope ρ now (l.serve outcome op).2 (a.serve outcome' op').2 := by
    intro α outcome outcome' op op' hpasses
    refine ⟨by rw [hl.sound.isSome_serve, ha.isSome_serve, h.opened], ?_⟩
    rw [hl.sound.serve_eq, ha.serve_eq, h.opened]
    cases hopen : l.records.isSome with
    | false => exact hlater.passes
    | true =>
      simp only [if_true, publish_file]
      exact hpasses (by rw [h.opened, hopen])
  cases op with
  | create claims new uuid =>
    refine hserve _ _ _ _ fun hopen => ?_
    have hfull' : (createIdempotentForClaims cfg time (ρ.uuid uuid) (.ok ()) claims new
        a.file).1 ≠ .error .storeFull := by
      intro hcreate
      refine hfull ?_
      change (a.serve .create _).1 = _
      rw [ha.serve_eq, hopen, if_pos rfl]
      exact congrArg Outcome.create hcreate
    exact (h.create hl hscope hown new uuid hfull').2.mono (fun _ hr => hr.mono hnow)
      fun _ _ hr => hr.mono hnow
  | transition claims id expectedRevision next patch =>
    refine hserve _ _ _ _ fun _ => ?_
    have hop : (⟨.transition claims id expectedRevision next patch, time, .ok ()⟩ : Step).op =
        .transition claims id expectedRevision next patch := rfl
    exact (h.transition hl hown hop rfl).2.mono (fun _ hr => hr.mono hnow) fun _ _ hr => hr.mono hnow
  | sweep clock =>
    refine hserve _ _ _ _ fun _ => ?_
    change Passes _ _ (ownRecords scope ((sweepExpiredAt cfg clock (.ok ()) l.file).2.getD l.file))
      (ownRecords scope ((sweepExpiredAt cfg clock (.ok ()) a.file).2.getD a.file))
    rw [sweepExpiredAt_getD, sweepExpiredAt_getD]
    have hcomm : ∀ records, ownRecords scope (sweepExpiredRecords cfg.retention clock records) =
        (ownRecords scope records).filter (isKept cfg.retention clock) := fun records =>
      filter_comm _ _ records
    rw [hcomm, hcomm]
    exact hlater.passes.filter_both fun r r' hr => hr.isKept _ _
  | get => exact hserve _ _ _ _ fun _ => hlater.passes
  | list => exact hserve _ _ _ _ fun _ => hlater.passes
  | find => exact hserve _ _ _ _ fun _ => hlater.passes
  | restart started =>
    change Mirrors cfg scope ρ now (l.restart cfg time started (.ok ())).2
      (a.restart cfg time started (.ok ())).2
    rw [hl.sound.restart_eq, ha.restart_eq]
    refine ⟨rfl, ?_⟩
    have hread : ∀ {s : Server}, s.Sound → s.file.map Invocation.readBack = s.file := by
      intro s hs
      rw [map_congr_left fun r hr => readBack_of_hasValidUsage (hs.usages r hr), List.map_id']
    unfold recovered
    rw [hread hl.sound, hread ha, ownRecords_retention fun r => isInScope_interrupt _ r _,
      ownRecords_retention fun r => isInScope_interrupt _ r _]
    refine retention_both hclock (fun r r' hr => hr.interrupt time) (fun r hr r' hr' => ?_)
      hlater.passes
    unfold retain interrupt at hr'
    rw [if_pos hr.isTerminal] at hr'
    split_ifs at hr'
    cases hr'
    unfold Expired
    rwa [isKept_dropExpiredBinding]

end Steps

/-! ### Runs -/

/-- A create has found the store full. -/
def Outcome.isStoreFull : Outcome → Bool
  | .create (.error .storeFull) => true
  | _ => false

/-- Some step of the run hits `StoreFull`. -/
def Server.hitsStoreFull (cfg : InvocationStoreConfig) : Server → List Step → Bool
  | _, [] => false
  | s, st :: steps =>
    (s.step cfg st).1.isStoreFull || Server.hitsStoreFull cfg (s.step cfg st).2 steps

theorem Server.hitsStoreFull_append (cfg : InvocationStoreConfig) (s : Server) (steps : List Step) (st : Step) :
    s.hitsStoreFull cfg (steps ++ [st]) =
      (s.hitsStoreFull cfg steps || ((s.run cfg steps).step cfg st).1.isStoreFull) := by
  induction steps generalizing s with
  | nil => simp [hitsStoreFull]
  | cons st' steps ih => simp only [cons_append, hitsStoreFull, ih, Bool.or_assoc, run_cons]

/-- A run with a clock that does not go back, distinct UUIDs, and no failure. -/
structure WellRun (cfg : InvocationStoreConfig) (steps : List Step) : Prop where
  clocked : Clocked steps
  lookups : steps.Pairwise fun st st' => st.now ≤ st'.reads ∧ st.clock ≤ st'.reads
  uuids : UuidsDistinct steps
  persists : ∀ st ∈ steps, st.persist = .ok ()
  neverFull : init.hitsStoreFull cfg steps = false

theorem WellRun.left (h : WellRun cfg (steps ++ [st])) : WellRun cfg steps where
  clocked := h.clocked.left
  lookups := (pairwise_append.1 h.lookups).1
  uuids := h.uuids.left
  persists := fun st' hst' => h.persists st' (mem_append_left _ hst')
  neverFull := by
    have := h.neverFull
    rw [hitsStoreFull_append, or_eq_false_iff] at this
    exact this.1

theorem WellRun.last (h : WellRun cfg (steps ++ [st])) :
    ((init.run cfg steps).step cfg st).1 ≠ .create (.error .storeFull) := by
  intro hfull
  have := h.neverFull
  rw [hitsStoreFull_append, hfull, or_eq_false_iff] at this
  cases this.2

@[simp] theorem Step.rename_isOwn (ρ : Renaming) (scope : IsolationClaims) (st : Step) :
    (st.rename ρ).isOwn scope = st.isOwn scope := by
  obtain ⟨op, now, persist⟩ := st
  cases op <;> rfl

theorem Step.rename_uuid (ρ : Renaming) (st : Step) : (st.rename ρ).uuid = st.uuid.map ρ.uuid := by
  obtain ⟨op, now, persist⟩ := st
  cases op <;> rfl

/-- The scope's steps of a run, as they would be with other UUIDs. -/
def OwnSteps (scope : IsolationClaims) (ρ : Renaming) (own steps : List Step) : Prop :=
  steps.filter (·.isOwn scope) = own.map (·.rename ρ)

namespace OwnSteps

variable {scope : IsolationClaims} {ρ : Renaming} {own steps : List Step}

section

variable (h : OwnSteps scope ρ own steps)
include h

theorem mem (hst : st ∈ own) : st.rename ρ ∈ steps ∧ st.isOwn scope = true := by
  have hmem : st.rename ρ ∈ steps.filter (·.isOwn scope) := by
    rw [h]
    exact List.mem_map_of_mem hst
  rw [mem_filter, rename_isOwn] at hmem
  exact hmem

theorem clocked (hclock : Clocked steps) : Clocked own := by
  have hsub := hclock.sublist (filter_sublist (p := fun st => st.isOwn scope))
  rw [h, pairwise_map] at hsub
  simp only [rename_now, rename_clock] at hsub
  exact hsub

theorem uuids (huuids : UuidsDistinct steps) : UuidsDistinct own := by
  have hsub : ((own.map (·.rename ρ)).filterMap uuid).Nodup := by
    rw [← h]
    exact huuids.sublist (filter_sublist.filterMap _)
  rw [filterMap_map] at hsub
  have hmap : (own.filterMap (uuid ∘ fun st => st.rename ρ)) = (own.filterMap uuid).map ρ.uuid := by
    rw [map_filterMap]
    exact filterMap_congr fun st _ => st.rename_uuid ρ
  rw [hmap] at hsub
  exact hsub.of_map _

end

/-- The last step is of others, or of the scope. -/
theorem snoc (h : OwnSteps scope ρ own (steps ++ [st])) : (st.isOwn scope = false ∧ OwnSteps scope ρ own steps) ∨
      ∃ own' st', own = own' ++ [st'] ∧ st'.rename ρ = st ∧ st'.isOwn scope = true ∧ OwnSteps scope ρ own' steps := by
  unfold OwnSteps at h
  rw [filter_append] at h
  cases hown : st.isOwn scope with
  | false =>
    rw [filter_cons_of_neg (by simp [hown]), filter_nil, append_nil] at h
    exact .inl ⟨rfl, h⟩
  | true =>
    rw [filter_cons_of_pos hown, filter_nil] at h
    obtain ⟨own', last, rfl, hown', hlast⟩ := map_eq_append_iff.1 h.symm
    obtain ⟨st', rfl, hst'⟩ := map_eq_singleton_iff.1 hlast
    refine .inr ⟨own', st', rfl, hst', ?_, hown'.symm⟩
    rw [← rename_isOwn ρ, hst', hown]

end OwnSteps

/-- The run of the scope alone has its records alone. -/
theorem isInScope_of_own (cfg : InvocationStoreConfig) {own : List Step}
    (hown : ∀ st ∈ own, st.isOwn scope = true) : ∀ r ∈ (init.run cfg own).file, r.isInScope scope = true := by
  induction own using reverseRecOn with
  | nil => exact fun r h => nomatch h
  | append_singleton own st ih =>
    intro r hr
    obtain ⟨survivors, added, hfile, hpass, hadds⟩ := step_passes cfg st (sound_run cfg own)
    rw [run_append, run_cons, run_nil, hfile, mem_append] at hr
    obtain hr | hr := hr
    · obtain ⟨r₀, hr₀, hchanges⟩ := hpass.source hr
      have hscope := ih (fun st hst => hown st (mem_append_left _ hst)) r₀ hr₀
      unfold Invocation.isInScope at hscope ⊢
      rwa [hchanges.keepsKey.tenantId, hchanges.keepsKey.projectId]
    · cases hadds with
      | nothing => cases hr
      | created hop =>
        obtain rfl := mem_singleton.1 hr
        have := hown st (mem_append_right _ (mem_singleton.2 rfl))
        unfold isOwn at this
        rw [hop] at this
        exact this

variable {own steps : List Step}

/-- **A run mirrors the run of the scope alone.** -/
theorem mirrors_of_ownSteps (hcfg : cfg.Accepted) (hrun : WellRun cfg steps) (h : OwnSteps scope ρ own steps)
    (hnow : ∀ st ∈ steps, st.now ≤ now ∧ st.clock ≤ now) :
    Mirrors cfg scope ρ now (init.run cfg own) (init.run cfg steps) := by
  induction steps using reverseRecOn generalizing own now with
  | nil =>
    obtain rfl : own = [] := map_eq_nil_iff.1 h.symm
    exact ⟨rfl, .nil⟩
  | append_singleton steps st ih =>
    have hlast := hnow st (mem_append_right _ (mem_singleton.2 rfl))
    rw [run_append, run_cons, run_nil]
    obtain ⟨hother, hown⟩ | ⟨own, st, rfl, rfl, hst, hown⟩ := h.snoc
    · refine mirrors_of_other (ih hrun.left hown fun st' hst' => ?_) (sound_run cfg steps) hother
        hlast.1
      exact hnow st' (mem_append_left _ hst')
    · have hbefore := hrun.clocked.le_now
      simp only [rename_now, rename_clock] at hbefore hlast
      rw [run_append, run_cons, run_nil]
      refine mirrors_of_own (ih hrun.left hown hbefore) ?_ (sound_run cfg steps)
        (isInScope_of_own cfg fun st hst => (hown.mem hst).2) hst ?_ hrun.last hlast.1 hlast.2
      · refine healthy_run hcfg (hown.clocked hrun.clocked.left) (hown.uuids hrun.uuids.left) ?_
        exact fun st' hst' => (hbefore _ (hown.mem hst').1).1
      · exact hrun.persists (st.rename ρ) (mem_append_right _ (mem_singleton.2 rfl))

/-- The steps whose answers the scope gets: all but sweeps and restarts. -/
def Step.isRequest (st : Step) : Bool :=
  match st.op with
  | .sweep _ => false
  | .restart _ => false
  | _ => true

/-- **An answer to the scope** is that of the run of the scope alone. -/
theorem agrees_of_ownSteps (hcfg : cfg.Accepted)
    (hrun : WellRun cfg (steps ++ [st.rename ρ])) (h : OwnSteps scope ρ own steps)
    (hown : st.isOwn scope = true) (hrequest : st.isRequest = true) :
    Agrees cfg ρ (init.run cfg own).file st ((init.run cfg own).step cfg st).1
      ((init.run cfg steps).step cfg (st.rename ρ)).1 := by
  have hbefore := hrun.clocked.le_now
  rw [rename_now] at hbefore
  have hpersist : st.persist = .ok () := hrun.persists (st.rename ρ) (mem_append_right _ (mem_singleton.2 rfl))
  have hreads : ∀ st' ∈ steps, st'.now ≤ st.reads ∧ st'.clock ≤ st.reads := by
    intro st' hst'
    rw [← rename_reads ρ]
    exact (pairwise_append.1 hrun.lookups).2.2 st' hst' _ (mem_singleton.2 rfl)
  have hnow := mirrors_of_ownSteps hcfg hrun.left h hbefore
  have hread := mirrors_of_ownSteps hcfg hrun.left h hreads
  have hl : Healthy cfg st.now (init.run cfg own) :=
    healthy_run hcfg (h.clocked hrun.clocked.left) (h.uuids hrun.uuids.left)
      fun st' hst' => (hbefore _ (h.mem hst').1).1
  have ha := sound_run cfg steps
  have hscope := isInScope_of_own cfg fun st hst => (h.mem hst).2
  have hfull := hrun.last
  generalize init.run cfg own = l at hnow hread hl hscope ⊢
  generalize init.run cfg steps = a at hnow hread ha hfull ⊢
  obtain ⟨op, now, persist⟩ := st
  obtain rfl : persist = .ok () := hpersist
  -- Either there is no store in both runs, or the operation works on both files.
  have hserve : ∀ {α : Type} (outcome outcome' : α → Outcome)
      (op' op'' : List Invocation → α × Option (List Invocation)),
      (a.records.isSome = true → Agrees cfg ρ l.file ⟨op, now, .ok ()⟩ (outcome (op' l.file).1)
        (outcome' (op'' a.file).1)) →
      Agrees cfg ρ l.file ⟨op, now, .ok ()⟩ (l.serve outcome op').1 (a.serve outcome' op'').1 := by
    intro α outcome outcome' op' op'' hagrees
    rw [hl.sound.serve_eq, ha.serve_eq, hnow.opened]
    cases hopen : l.records.isSome with
    | false => exact .unavailable
    | true => exact hagrees (by rw [hnow.opened, hopen])
  cases op with
  | create claims new uuid =>
    refine hserve _ _ _ _ fun hopen => ?_
    have hfull' : (createIdempotentForClaims cfg now (ρ.uuid uuid) (.ok ()) claims new
        a.file).1 ≠ .error .storeFull := by
      intro hcreate
      refine hfull ?_
      change (a.serve .create _).1 = _
      rw [ha.serve_eq, hopen, if_pos rfl]
      exact congrArg Outcome.create hcreate
    have hcreate := (hnow.create hl hscope hown new uuid hfull').1
    change Agrees cfg ρ l.file _ _ (.create
      (createIdempotentForClaims cfg now (ρ.uuid uuid) (.ok ()) claims new a.file).1)
    rw [hcreate]
    exact .create
  | transition claims id expectedRevision next patch =>
    exact hserve _ _ _ _ fun _ => (hnow.transition hl hown rfl rfl).1
  | get claims id => exact hserve _ _ _ _ fun _ => hnow.get hl hown rfl id
  | list claims state => exact hserve _ _ _ _ fun _ => hnow.list hown rfl state
  | find claims key fingerprint clock =>
    exact hserve _ _ _ _ fun _ => hread.find hl hown _ key fingerprint
  | sweep => cases hrequest
  | restart => cases hrequest

/-- **Scope noninterference.**  Of two runs with the same steps of a scope and any steps of others,
and with other UUIDs, each answers every request of the scope as the scope alone would be answered:
but for records past their retention and bindings that have expired, which others may have swept. -/
theorem agrees_of_runs {lookup : String → Option String} {cfg : InvocationStoreConfig}
    (hcfg : InvocationStoreConfig.tryFromVars lookup = .ok cfg) {scope : IsolationClaims}
    {ρ : Renaming} {steps steps' : List Step} {st : Step} (hrun : WellRun cfg (steps ++ [st]))
    (hrun' : WellRun cfg (steps' ++ [st.rename ρ]))
    (hsame : steps'.filter (·.isOwn scope) = (steps.filter (·.isOwn scope)).map (·.rename ρ))
    (hown : st.isOwn scope = true) (hrequest : st.isRequest = true) :
    let alone := init.run cfg (steps.filter (·.isOwn scope))
    Agrees cfg .refl alone.file st (alone.step cfg st).1 ((init.run cfg steps).step cfg st).1 ∧
    Agrees cfg ρ alone.file st (alone.step cfg st).1
      ((init.run cfg steps').step cfg (st.rename ρ)).1 := by
  have haccepted := InvocationStoreConfig.accepted_of_tryFromVars hcfg
  refine ⟨?_, agrees_of_ownSteps haccepted hrun' hsame hown hrequest⟩
  rw [← Step.rename_refl st] at hrun
  have hown' : OwnSteps scope .refl (steps.filter (·.isOwn scope)) steps := by
    unfold OwnSteps
    rw [map_congr_left fun st _ => st.rename_refl, List.map_id']
  have hagrees := agrees_of_ownSteps haccepted hrun hown' hown hrequest
  rwa [Step.rename_refl] at hagrees

def globex : IsolationClaims := ⟨"globex", "p1", "bob", by decide +kernel, project_safe_p1, by decide +kernel⟩

/-- A cancelled invocation; others may create one eight days later. -/
def eightDays (others : List Step) : List Step :=
  [⟨.restart 0, 0, .ok ()⟩, ⟨.create acme ⟨plainRequest, none, none, none⟩ "a", 0, .ok ()⟩,
    ⟨.transition acme "inv_a" none .cancelled {}, 1000, .ok ()⟩] ++ others

def createOfOthers : Step := ⟨.create globex ⟨plainRequest, none, none, none⟩ "z", days 8, .ok ()⟩

def lateGet : Step := ⟨.get acme "inv_a", days 8, .ok ()⟩

theorem wellRun_eightDays (others : List Step) (h : others = [] ∨ others = [createOfOthers]) :
    WellRun ⟨days 7, 32, hours 24⟩ (eightDays others ++ [lateGet]) := by
  obtain rfl | rfl := h <;>
    exact ⟨by unfold Clocked; decide +kernel, by decide +kernel, by decide +kernel,
      by simp [eightDays, createOfOthers, lateGet], by decide +kernel⟩

theorem agrees_of_runs_eightDays : Agrees ⟨days 7, 32, hours 24⟩ .refl
      (init.run ⟨days 7, 32, hours 24⟩ ((eightDays []).filter (·.isOwn acme))).file lateGet
      ((init.run ⟨days 7, 32, hours 24⟩ ((eightDays []).filter (·.isOwn acme))).step ⟨days 7, 32, hours 24⟩ lateGet).1
      ((init.run ⟨days 7, 32, hours 24⟩ (eightDays [createOfOthers])).step ⟨days 7, 32, hours 24⟩ lateGet).1 :=
  (@agrees_of_runs (fun _ => none) _ rfl acme .refl (eightDays []) (eightDays [createOfOthers])
    lateGet (wellRun_eightDays _ (.inl rfl)) (wellRun_eightDays _ (.inr rfl)) rfl rfl rfl).2

/-- The create of another scope sweeps the record of this one. -/
theorem differs_eightDays : WellRun ⟨days 7, 32, hours 24⟩ (eightDays [] ++ [lateGet]) ∧
    WellRun ⟨days 7, 32, hours 24⟩ (eightDays [createOfOthers] ++ [lateGet]) ∧
    (eightDays [createOfOthers]).filter (·.isOwn acme) = (eightDays []).filter (·.isOwn acme) ∧
    (∃ r, ((init.run ⟨days 7, 32, hours 24⟩ (eightDays [])).step ⟨days 7, 32, hours 24⟩ lateGet).1 = .get (.ok r)) ∧
    ((init.run ⟨days 7, 32, hours 24⟩ (eightDays [createOfOthers])).step
      ⟨days 7, 32, hours 24⟩ lateGet).1 = .get (.error .notFound) :=
  ⟨wellRun_eightDays _ (.inl rfl), wellRun_eightDays _ (.inr rfl), rfl, ⟨_, rfl⟩, rfl⟩

end WildAgentOs.Invocations
