import WildAgentOs.Invocations.Lifecycle

/-!
# Idempotent creates

A binding lives until `expires_at`, the time of the create and the TTL cut off to microseconds.
Until then its record is not swept: the TTL is not longer than the retention, and both are whole
hours.

* `Clocked`, `Rivals`, `Holds`;
* `hideBinding`: the bindings of others are not observed;
* `createdOnce_of_run`, `not_createdOnce_untilTtl`.
-/

namespace WildAgentOs.Invocations

open ListPass List Option

/-! ### Times -/

/-- The clock does not go back: what a step reads is not after what a later one reads. -/
def Clocked (steps : List Step) : Prop := steps.Pairwise fun st st' => st.now ≤ st'.now ∧ st.clock ≤ st'.now

theorem toRfc3339_mono {t t' : Instant} (h : t ≤ t') : (toRfc3339 t).micros ≤ (toRfc3339 t').micros :=
  Int.ediv_le_ediv (by norm_num) h

/-- Whole hours are added to a timestamp exactly. -/
theorem toRfc3339_add_hours (t : Instant) (n : ℕ) :
    (toRfc3339 (t + hours n)).instant = (toRfc3339 t).instant + hours n := by
  have hcut : ∀ a b : ℤ, (a + b * 3600000000000) / 1000 * 1000 = a / 1000 * 1000 + b * 3600000000000 := by
    intro a b
    omega
  exact hcut t n

/-- When a binding expires. -/
def expiry (cfg : InvocationStoreConfig) (t : Instant) : Instant := (toRfc3339 (t + cfg.idempotencyTtl)).instant

variable {cfg : InvocationStoreConfig}

/-- A binding expires before its record can be swept. -/
theorem InvocationStoreConfig.Accepted.expiry_le (h : cfg.Accepted) (t : Instant) :
    expiry cfg t ≤ (toRfc3339 t).instant + cfg.retention := by
  obtain ⟨n, hn⟩ := h.ttl_hours
  unfold expiry
  rw [hn, toRfc3339_add_hours, ← hn]
  linarith [h.ttl_le]

/-! ### What changes leave of a binding -/

/-- The owner, the key and the time of a create stay; the binding can go. -/
structure KeepsKey (r r' : Invocation) : Prop where
  tenantId : r'.tenantId = r.tenantId
  projectId : r'.projectId = r.projectId
  actorId : r'.actorId = r.actorId
  key : r'.idempotencyKey = r.idempotencyKey
  binding : r'.idempotency = r.idempotency ∨ r'.idempotency = none

theorem KeepsKey.refl (r : Invocation) : KeepsKey r r := ⟨rfl, rfl, rfl, rfl, .inl rfl⟩

variable {r r' : Invocation}

theorem KeepsKey.trans {r'' : Invocation} (h : KeepsKey r r') (h' : KeepsKey r' r'') : KeepsKey r r'' := by
  refine ⟨h'.tenantId.trans h.tenantId, h'.projectId.trans h.projectId,
    h'.actorId.trans h.actorId, h'.key.trans h.key, ?_⟩
  obtain hsame | hnone := h'.binding
  · rw [hsame]
    exact h.binding
  · exact .inr hnone

variable {st : Step}

theorem Change.keepsKey (h : Change st r r') : KeepsKey r r' := by
  cases h with
  | transition => exact ⟨rfl, rfl, rfl, rfl, .inl rfl⟩
  | interrupt => exact ⟨rfl, rfl, rfl, rfl, .inl rfl⟩
  | unbind => exact ⟨rfl, rfl, rfl, rfl, .inr rfl⟩

theorem Changes.keepsKey (h : Changes st r r') : KeepsKey r r' := by
  induction h with
  | refl => exact .refl r
  | tail _ hchange ih => exact ih.trans hchange.keepsKey

/-! ### One binding for a key -/

/-- Two records with a binding of one key, live or not. -/
structure Rivals (r r' : Invocation) : Prop where
  tenantId : r.tenantId = r'.tenantId
  projectId : r.projectId = r'.projectId
  actorId : r.actorId = r'.actorId
  key : r.idempotencyKey = r'.idempotencyKey
  bound : r.idempotency.isSome = true
  bound' : r'.idempotency.isSome = true

theorem KeepsKey.isSome (h : KeepsKey r r') (hbound : r'.idempotency.isSome = true) : r.idempotency.isSome = true := by
  obtain hsame | hnone := h.binding
  · rwa [← hsame]
  · rw [hnone] at hbound
    cases hbound

theorem Rivals.of_keepsKey {r₁ r₁' r₂ r₂' : Invocation} (h : Rivals r₁' r₂')
    (h₁ : KeepsKey r₁ r₁') (h₂ : KeepsKey r₂ r₂') : Rivals r₁ r₂ where
  tenantId := by rw [← h₁.tenantId, h.tenantId, h₂.tenantId]
  projectId := by rw [← h₁.projectId, h.projectId, h₂.projectId]
  actorId := by rw [← h₁.actorId, h.actorId, h₂.actorId]
  key := by rw [← h₁.key, h.key, h₂.key]
  bound := h₁.isSome h.bound
  bound' := h₂.isSome h.bound'

variable {now : Instant} {claims : IsolationClaims} {key : String}

theorem bindsKey_iff : r.bindsKey claims key now = true ↔
      (r.tenantId = claims.tenantId ∧ r.projectId = claims.projectId) ∧
        r.actorId = claims.actorId ∧ r.idempotencyKey = some key ∧
        ∃ b, r.idempotency = some b ∧ b.isLive now = true := by
  unfold Invocation.bindsKey Invocation.isInScope
  cases r.idempotency <;> simp [and_assoc]

variable {records : List Invocation} {new : NewInvocation} {uuid : String}

/-- A record that is added has no rival. -/
theorem not_rivals_newInvocation (hfree : boundTo records claims new now = none)
    (hr : r ∈ records) (hkeeps : KeepsKey r r') (hlive : ∀ b, r'.idempotency = some b → b.isLive now = true) :
    ¬Rivals r' (newInvocation cfg now uuid claims new) := by
  intro hrivals
  obtain ⟨registration, hregistration⟩ : ∃ registration, new.idempotency = some registration := by
    have hbound := hrivals.bound'
    change (new.idempotency.map _).isSome = true at hbound
    rw [isSome_map] at hbound
    exact isSome_iff_exists.1 hbound
  obtain ⟨b, hb⟩ := isSome_iff_exists.1 hrivals.bound
  have hkey : r'.idempotencyKey = some registration.key := by
    rw [hrivals.key]
    change new.idempotency.map _ = _
    rw [hregistration, map_some]
  -- The record it comes from has bound the key at the time of the create.
  have hbinds : r.bindsKey claims registration.key now = true := by
    refine bindsKey_iff.2 ⟨⟨?_, ?_⟩, ?_, ?_, b, ?_, hlive b hb⟩
    · rw [← hkeeps.tenantId, hrivals.tenantId]; rfl
    · rw [← hkeeps.projectId, hrivals.projectId]; rfl
    · rw [← hkeeps.actorId, hrivals.actorId]; rfl
    · rw [← hkeeps.key, hkey]
    · obtain hsame | hnone := hkeeps.binding
      · rw [← hsame, hb]
      · rw [hnone] at hb
        cases hb
  unfold boundTo findBound at hfree
  rw [hregistration, bind_some, map_eq_none_iff] at hfree
  exact find?_eq_none.1 hfree r hr hbinds

variable {now' : Instant}

namespace Server

/-- **A key has one binding.** -/
theorem pairwise_not_rivals (cfg : InvocationStoreConfig) (steps : List Step) :
    (init.run cfg steps).file.Pairwise fun r r' => ¬Rivals r r' := by
  induction steps using reverseRecOn with
  | nil => exact .nil
  | append_singleton steps st ih =>
    obtain ⟨survivors, added, hfile, hpass, hadds⟩ := step_passes cfg st (sound_run cfg steps)
    rw [run_append, run_cons, run_nil, hfile]
    have hsurvivors : survivors.Pairwise fun r r' => ¬Rivals r r' := by
      refine hpass.pairwise ih ?_
      intro a _ b _ a' b' ha hb hnot hrivals
      exact hnot (hrivals.of_keepsKey ha.keepsKey hb.keepsKey)
    cases hadds with
    | nothing => rwa [append_nil]
    | created hop hfree hlive =>
      refine pairwise_append.2 ⟨hsurvivors, pairwise_singleton _ _, ?_⟩
      intro r' hr' _ hnew
      obtain rfl := mem_singleton.1 hnew
      obtain ⟨r, hr, hchanges⟩ := hpass.source hr'
      exact not_rivals_newInvocation hfree hr hchanges.keepsKey (hlive r' hr')

theorem rivals_of_bindsKey (h : r.bindsKey claims key now = true)
    (h' : r'.bindsKey claims key now' = true) : Rivals r r' := by
  obtain ⟨⟨htenant, hproject⟩, hactor, hkey, b, hb, -⟩ := bindsKey_iff.1 h
  obtain ⟨⟨htenant', hproject'⟩, hactor', hkey', b', hb', -⟩ := bindsKey_iff.1 h'
  exact ⟨htenant.trans htenant'.symm, hproject.trans hproject'.symm, hactor.trans hactor'.symm,
    hkey.trans hkey'.symm, by rw [hb]; rfl, by rw [hb']; rfl⟩

theorem length_le_one_of_pairwise_not {α : Type*} {R : α → α → Prop} {l : List α}
    (h : l.Pairwise fun a b => ¬R a b) (hR : ∀ a ∈ l, ∀ b ∈ l, R a b) : l.length ≤ 1 := by
  match l with
  | [] => exact Nat.zero_le 1
  | [_] => exact le_refl 1
  | a :: b :: l =>
    have hb : b ∈ b :: l := mem_cons_self
    exact absurd (hR a mem_cons_self b (mem_cons_of_mem _ hb))
      ((pairwise_cons.1 h).1 b hb)

theorem length_filter_bindsKey_le_one (h : records.Pairwise fun r r' => ¬Rivals r r') (claims : IsolationClaims)
    (key : String) (now : Instant) : (records.filter (·.bindsKey claims key now)).length ≤ 1 := by
  refine length_le_one_of_pairwise_not (h.sublist filter_sublist) fun r hr r' hr' => ?_
  exact rivals_of_bindsKey (mem_filter.1 hr).2 (mem_filter.1 hr').2

end Server

/-! ### A record with a live binding is kept -/

/-- A record is completed after its create, and its binding expires before it can be swept. -/
structure Timed (cfg : InvocationStoreConfig) (now : Instant) (r : Invocation) : Prop where
  created : r.createdAt.micros ≤ (toRfc3339 now).micros
  completed : ∀ c, r.completedAt = some c → r.createdAt.micros ≤ c.micros
  binding : ∀ b, r.idempotency = some b → b.expiresAt.instant ≤ r.createdAt.instant + cfg.retention

theorem Timed.mono (h : Timed cfg now r) (hle : now ≤ now') : Timed cfg now' r :=
  ⟨h.created.trans (toRfc3339_mono hle), h.completed, h.binding⟩

theorem timed_newInvocation (hcfg : cfg.Accepted) (now : Instant) (uuid : String)
    (claims : IsolationClaims) (new : NewInvocation) :
    Timed cfg now (newInvocation cfg now uuid claims new) where
  created := le_refl _
  completed := fun c hc => nomatch hc
  binding := by
    intro b hb
    change new.idempotency.map _ = some b at hb
    obtain ⟨registration, -, rfl⟩ := map_eq_some_iff.1 hb
    exact hcfg.expiry_le now

theorem Change.timed (hchange : Change st r r') (h : Timed cfg st.now r) : Timed cfg st.now r' := by
  cases hchange with
  | @transition actorId next patch =>
    refine ⟨h.created, fun c hc => ?_, h.binding⟩
    rw [applyTransition_completedAt] at hc
    split_ifs at hc with hterminal
    · cases hc
      exact h.created
    · exact h.completed c hc
  | interrupt =>
    refine ⟨h.created, fun c hc => ?_, h.binding⟩
    rw [interruptRecord_completedAt] at hc
    cases hc
    exact h.created
  | unbind => exact ⟨h.created, h.completed, fun b hb => nomatch hb⟩

theorem Changes.timed (hchanges : Changes st r r') (h : Timed cfg st.now r) : Timed cfg st.now r' := by
  induction hchanges with
  | refl => exact h
  | tail _ hchange ih => exact hchange.timed ih

variable {b : IdempotencyBinding}

/-- **Retention keeps a record while its binding is live.** -/
theorem Timed.isKept {clock : Instant} (h : Timed cfg now r) (htracked : Tracked r)
    (hb : r.idempotency = some b) (hlive : b.isLive clock = true) : isKept cfg.retention clock r = true := by
  unfold Invocations.isKept
  cases hterminal : r.state.isTerminal with
  | false => rfl
  | true =>
    have hcompleted := htracked.completed
    rw [hterminal] at hcompleted
    obtain ⟨c, hc⟩ := isSome_iff_exists.1 hcompleted
    rw [hc, getD_some, Bool.not_true, Bool.false_or, decide_eq_true_iff]
    have hle := h.completed c hc
    have hlt := lt_of_lt_of_le (of_decide_eq_true hlive) (h.binding b hb)
    unfold Rfc3339.instant at hlt ⊢
    linarith

variable {steps : List Step} {later : List Step}

theorem Clocked.left (h : Clocked (steps ++ later)) : Clocked steps := (pairwise_append.1 h).1

theorem Clocked.le_now (h : Clocked (steps ++ [st])) :
    ∀ st' ∈ steps, st'.now ≤ st.now ∧ st'.clock ≤ st.now := fun st' hst' =>
  (pairwise_append.1 h).2.2 st' hst' st (mem_singleton.2 rfl)

theorem Server.timed_run (hcfg : cfg.Accepted) (hclock : Clocked steps) (hnow : ∀ st ∈ steps, st.now ≤ now) :
    ∀ r ∈ (init.run cfg steps).file, Timed cfg now r := by
  induction steps using reverseRecOn generalizing now with
  | nil => exact fun r h => nomatch h
  | append_singleton steps st ih =>
    intro r hr
    refine Timed.mono ?_ (hnow st (mem_append_right _ (mem_singleton.2 rfl)))
    obtain ⟨survivors, added, hfile, hpass, hadds⟩ := step_passes cfg st (sound_run cfg steps)
    rw [run_append, run_cons, run_nil, hfile, mem_append] at hr
    obtain hr | hr := hr
    · obtain ⟨r₀, hr₀, hchanges⟩ := hpass.source hr
      exact hchanges.timed (ih hclock.left (fun st' h => (hclock.le_now st' h).1) r₀ hr₀)
    · cases hadds with
      | nothing => cases hr
      | created =>
        obtain rfl := mem_singleton.1 hr
        exact timed_newInvocation hcfg st.now _ _ _

/-! ### A binding is held until it expires -/

/-- A record that still has the binding it was created with. -/
structure Holds (r r' : Invocation) : Prop where
  evolves : Evolves r r'
  keepsKey : KeepsKey r r'
  binding : r'.idempotency = r.idempotency

theorem Holds.refl (r : Invocation) : Holds r r := ⟨.refl r, .refl r, rfl⟩

/-- A step before the binding expires leaves it. -/
theorem Holds.changes {r₁ r₂ : Invocation} (h : Holds r r₁) (hchanges : Changes st r₁ r₂)
    (hlive : ∀ b, r.idempotency = some b → b.isLive st.clock = true) : Holds r r₂ := by
  induction hchanges with
  | refl => exact h
  | tail _ hchange ih =>
    refine ⟨ih.evolves.trans hchange.evolves, ih.keepsKey.trans hchange.keepsKey, ?_⟩
    cases hchange with
    | transition => exact ih.binding
    | interrupt => exact ih.binding
    | @unbind b hb hdead =>
      rw [ih.binding] at hb
      exact absurd ((hlive b hb).symm.trans hdead) (by decide)

namespace Server

variable {r₁ : Invocation}

theorem holds_step (hcfg : cfg.Accepted) (hclock : Clocked (steps ++ [st])) (hmem : r₁ ∈ (init.run cfg steps).file)
    (h : Holds r r₁) (hb : r.idempotency = some b)
    (hlive : b.isLive st.clock = true) : ∃ r₂ ∈ (init.run cfg (steps ++ [st])).file, Holds r r₂ := by
  have hlive' : ∀ b', r.idempotency = some b' → b'.isLive st.clock = true := by
    intro b' hb'
    rwa [some.inj (hb'.symm.trans hb)]
  have htimed := timed_run hcfg hclock.left (fun st' h => (hclock.le_now st' h).1) r₁ hmem
  obtain ⟨survivors, added, hfile, hpass, -⟩ := step_passes cfg st (sound_run cfg steps)
  rw [run_append, run_cons, run_nil, hfile]
  obtain ⟨r₂, hchanges, hswept⟩ | ⟨r₂, hr₂, hchanges⟩ := hpass.fate hmem
  · have hkept := (hchanges.timed htimed).isKept (hchanges.tracked (tracked_run cfg steps r₁ hmem))
      ((h.changes hchanges hlive').binding.trans hb) hlive
    exact absurd (hkept.symm.trans hswept) (by decide)
  · exact ⟨r₂, mem_append_left _ hr₂, h.changes hchanges hlive'⟩

/-- Over the steps from a create to a moment before the binding expires. -/
theorem holds_run (hcfg : cfg.Accepted) (hclock : Clocked (steps ++ later)) (hmem : r₁ ∈ (init.run cfg steps).file)
    (h : Holds r r₁) (hb : r.idempotency = some b)
    (hlive : ∀ st ∈ later, b.isLive st.clock = true) : ∃ r₂ ∈ (init.run cfg (steps ++ later)).file, Holds r r₂ := by
  induction later using reverseRecOn with
  | nil =>
    rw [append_nil]
    exact ⟨r₁, hmem, h⟩
  | append_singleton later st ih =>
    rw [← append_assoc] at hclock ⊢
    obtain ⟨r₂, hr₂, hholds⟩ := ih hclock.left fun st hst => hlive st (mem_append_left _ hst)
    exact holds_step hcfg hclock hr₂ hholds hb
      (hlive st (mem_append_right _ (mem_singleton.2 rfl)))

/-! ### Creates with a bound key -/

variable {registration : IdempotencyRegistration}

theorem boundTo_of_binds (h : records.Pairwise fun r r' => ¬Rivals r r') (hnew : new.idempotency = some registration)
    (hr : r ∈ records) (hbinds : r.bindsKey claims registration.key now = true) :
    boundTo records claims new now = some (r, sameFingerprint r registration.fingerprint) := by
  unfold boundTo findBound
  rw [hnew, bind_some]
  cases hfind : records.find? fun r => r.bindsKey claims registration.key now with
  | none => exact absurd hbinds (find?_eq_none.1 hfind r hr)
  | some r' =>
    have hbinds' : r'.bindsKey claims registration.key now = true := by
      simpa using find?_some hfind
    have hsymm : Std.Symm fun r r' => ¬Rivals r r' :=
      ⟨fun a b hab hba => hab ⟨hba.tenantId.symm, hba.projectId.symm, hba.actorId.symm,
        hba.key.symm, hba.bound', hba.bound⟩⟩
    obtain rfl : r' = r := by
      by_contra hne
      exact h.forall (mem_of_find?_eq_some hfind) hr hne (rivals_of_bindsKey hbinds' hbinds)
    rfl

/-- A later create with the same key replays the record or is a conflict, and writes nothing. -/
inductive Answers (cfg : InvocationStoreConfig) (s : Server) (st : Step) (r : Invocation) : Bool → Prop
  | unavailable {same : Bool} : s.records = none → s.step cfg st = (.unavailable, s) → Answers cfg s st r same
  | replayed {r' : Invocation} : Evolves r r' →
      s.step cfg st = (.create (.ok (.replayed r')), s) → Answers cfg s st r true
  | conflict : s.step cfg st = (.create (.error .idempotencyKeyConflict), s) → Answers cfg s st r false

/-- Until some time after a create, every create with its key by the same tenant, project and
actor is answered by its record. -/
def CreatedOnce (cfg : InvocationStoreConfig) (steps : List Step) (lifetime : Instant → Instant) : Prop :=
  ∀ i j st st' claims new new' uuid uuid' registration registration' r,
    i < j → steps[i]? = some st → st.op = .create claims new uuid →
    new.idempotency = some registration →
    ((init.run cfg (steps.take i)).step cfg st).1 = .create (.ok (.created r)) →
    steps[j]? = some st' → st'.op = .create claims new' uuid' →
    new'.idempotency = some registration' → registration'.key = registration.key →
    st'.now < lifetime st.now →
    Answers cfg (init.run cfg (steps.take j)) st' r
      (decide (registration.fingerprint = registration'.fingerprint))

variable {s : Server}

/-- A create that has created has added its record to the file. -/
theorem mem_of_created (hs : s.Sound)
    (hop : st.op = .create claims new uuid) (h : (s.step cfg st).1 = .create (.ok (.created r))) :
    r = newInvocation cfg st.now uuid claims new ∧ r ∈ (s.step cfg st).2.file := by
  unfold step at h ⊢
  rw [hop] at h ⊢
  simp only at h ⊢
  unfold serve at h ⊢
  obtain hclosed | hopen := hs.synced
  · rw [hclosed] at h
    cases h
  · rw [hopen] at h ⊢
    simp only [Outcome.create.injEq] at h ⊢
    obtain ⟨answer, hanswer, hnone⟩ | ⟨-, -, hsome⟩ :=
      createIdempotentForClaims_cases cfg st.now uuid st.persist claims new s.file
    · rw [hnone] at h
      exact absurd h (hanswer r)
    · rw [hsome] at h ⊢
      simp only [Except.ok.injEq, CreateOutcome.created.injEq] at h
      exact ⟨h.symm, mem_append_right _ (mem_singleton.2 h.symm)⟩

theorem answers_of_bindsKey (hs : s.Sound) (hrivals : s.file.Pairwise fun r r' => ¬Rivals r r')
    (hop : st.op = .create claims new uuid) (hnew : new.idempotency = some registration) (hr' : r' ∈ s.file)
    (hevolves : Evolves r r') (hbinds : r'.bindsKey claims registration.key st.now = true) :
    Answers cfg s st r (sameFingerprint r' registration.fingerprint) := by
  obtain hclosed | hopen := hs.synced
  · refine .unavailable hclosed ?_
    unfold step
    rw [hop]
    simp only [serve, hclosed]
  · have hbound := boundTo_of_binds hrivals hnew hr' hbinds
    cases hsame : sameFingerprint r' registration.fingerprint with
    | true =>
      rw [hsame] at hbound
      refine .replayed hevolves ?_
      unfold step
      rw [hop]
      simp only [serve, hopen, createIdempotentForClaims, hbound, publish]
    | false =>
      rw [hsame] at hbound
      refine .conflict ?_
      unfold step
      rw [hop]
      simp only [serve, hopen, createIdempotentForClaims, hbound, publish]

theorem createdOnce_of_run (hcfg : cfg.Accepted) (hclock : Clocked steps) : CreatedOnce cfg steps (expiry cfg) := by
  intro i j st st' claims new new' uuid uuid' registration registration' r hij hst hop hnew hcreated
    hst' hop' hnew' hkey hnow
  obtain ⟨hi, rfl⟩ := List.getElem?_eq_some_iff.1 hst
  obtain ⟨hj, rfl⟩ := List.getElem?_eq_some_iff.1 hst'
  -- After the create its record holds the binding.
  obtain ⟨hr, hmem⟩ := mem_of_created (sound_run cfg (steps.take i)) hop hcreated
  have hbinding : r.idempotency = some ⟨registration.fingerprint, toRfc3339 (steps[i].now + cfg.idempotencyTtl)⟩ := by
    rw [hr]
    change new.idempotency.map _ = _
    rw [hnew, map_some]
  have hmem' : r ∈ (init.run cfg (steps.take (i + 1))).file := by
    rwa [take_add_one, hst, toList_some, run_append, run_cons, run_nil]
  -- It still does when the later create comes.
  obtain ⟨k, rfl⟩ := Nat.exists_eq_add_of_le (Nat.succ_le_of_lt hij)
  have hlive : ∀ st ∈ (steps.drop (i + 1)).take k, IdempotencyBinding.isLive
      ⟨registration.fingerprint, toRfc3339 (steps[i].now + cfg.idempotencyTtl)⟩ st.clock = true := by
    intro st hst
    obtain ⟨m, hm, rfl⟩ := getElem_of_mem hst
    have hmk : m < k := lt_of_lt_of_le hm (length_take_le _ _)
    rw [getElem_take, getElem_drop]
    refine decide_eq_true (lt_of_le_of_lt ?_ hnow)
    exact (pairwise_iff_getElem.1 hclock (i + 1 + m) (i + 1 + k) (by omega) hj (by omega)).2
  have hclock' : Clocked (steps.take (i + 1) ++ (steps.drop (i + 1)).take k) := by
    rw [← take_add]
    exact hclock.sublist (take_sublist _ _)
  obtain ⟨r', hr', hholds⟩ := holds_run hcfg hclock' hmem' (.refl r) hbinding hlive
  rw [← take_add] at hr'
  have hbinding' := hholds.binding.trans hbinding
  have hbinds : r'.bindsKey claims registration'.key steps[i + 1 + k].now = true := by
    have howner := hholds.keepsKey
    refine bindsKey_iff.2 ⟨⟨howner.tenantId.trans (hr ▸ rfl), howner.projectId.trans (hr ▸ rfl)⟩,
      howner.actorId.trans (hr ▸ rfl), ?_, _, hbinding', decide_eq_true hnow⟩
    rw [howner.key, hr, hkey]
    change new.idempotency.map _ = _
    rw [hnew, map_some]
  have hsame : sameFingerprint r' registration'.fingerprint =
      decide (registration.fingerprint = registration'.fingerprint) := by
    unfold sameFingerprint
    rw [hbinding', any_some]
  rw [← hsame]
  exact answers_of_bindsKey (sound_run cfg _) (pairwise_not_rivals cfg _) hop' hnew' hr'
    hholds.evolves hbinds

/-! ### The bindings of others -/

/-- A record as it would be without a key, if it is of another tenant, project or actor. -/
def hideBinding (claims : IsolationClaims) (r : Invocation) : Invocation :=
  if r.isInScope claims && r.actorId = claims.actorId then r
  else { r with idempotencyKey := none, idempotency := none }

theorem bindsKey_hideBinding (claims : IsolationClaims) (key : String) (now : Instant)
    (r : Invocation) : (hideBinding claims r).bindsKey claims key now = r.bindsKey claims key now := by
  unfold hideBinding
  split_ifs with howner
  · rfl
  · unfold Invocation.bindsKey
    rw [Bool.not_eq_true] at howner
    simp [howner]

theorem hideBinding_of_bindsKey (h : r.bindsKey claims key now = true) : hideBinding claims r = r := by
  unfold Invocation.bindsKey at h
  rw [Bool.and_eq_true, Bool.and_eq_true] at h
  unfold hideBinding
  rw [if_pos h.1.1]

theorem findBound_map_hideBinding (records : List Invocation) (claims : IsolationClaims)
    (key : String) (now : Instant) :
    findBound (records.map (hideBinding claims)) claims key now = findBound records claims key now := by
  unfold findBound
  rw [find?_map]
  have hcomp : (fun r : Invocation => r.bindsKey claims key now) ∘ hideBinding claims =
      fun r => r.bindsKey claims key now := by
    funext r
    exact bindsKey_hideBinding claims key now r
  rw [hcomp]
  cases hfind : records.find? fun r => r.bindsKey claims key now with
  | none => rfl
  | some r =>
    have hbinds : r.bindsKey claims key now = true := by simpa using find?_some hfind
    rw [map_some, hideBinding_of_bindsKey hbinds]

/-- A lookup does not observe the bindings of others. -/
theorem findIdempotentAt_hideBinding (claims : IsolationClaims) (key fingerprint : String)
    (now : Instant) (records : List Invocation) :
    findIdempotentAt claims key fingerprint now (records.map (hideBinding claims)) =
      findIdempotentAt claims key fingerprint now records := by
  unfold findIdempotentAt
  rw [findBound_map_hideBinding]

theorem hideBinding_state (claims : IsolationClaims) (r : Invocation) : (hideBinding claims r).state = r.state ∧
      (hideBinding claims r).isInScope claims = r.isInScope claims ∧
      ∀ retention now, isKept retention now (hideBinding claims r) = isKept retention now r := by
  unfold hideBinding
  split_ifs <;> exact ⟨rfl, rfl, fun _ _ => rfl⟩

/-- Nor does a create. -/
theorem createIdempotentForClaims_hideBinding (cfg : InvocationStoreConfig) (now : Instant)
    (uuid : String) (persist : Except String Unit) (claims : IsolationClaims) (new : NewInvocation)
    (records : List Invocation) :
    (createIdempotentForClaims cfg now uuid persist claims new (records.map (hideBinding claims))).1 =
    (createIdempotentForClaims cfg now uuid persist claims new records).1 := by
  have hbound : boundTo (records.map (hideBinding claims)) claims new now = boundTo records claims new now := by
    unfold boundTo
    simp only [findBound_map_hideBinding]
  have hactive : activeInScope (records.map (hideBinding claims)) claims = activeInScope records claims := by
    unfold activeInScope
    rw [← countP_eq_length_filter, ← countP_eq_length_filter, countP_map]
    congr 1
    funext r
    obtain ⟨hstate, hscope, -⟩ := hideBinding_state claims r
    rw [Function.comp_apply, hstate, hscope]
  have hlength : (dropExpiredBindings now
      (sweepExpiredRecords cfg.retention now (records.map (hideBinding claims)))).length =
      (dropExpiredBindings now (sweepExpiredRecords cfg.retention now records)).length := by
    unfold dropExpiredBindings sweepExpiredRecords
    rw [length_map, length_map, ← countP_eq_length_filter, ← countP_eq_length_filter, countP_map]
    congr 1
    funext r
    exact (hideBinding_state claims r).2.2 cfg.retention now
  unfold createIdempotentForClaims
  rw [hbound, hactive]
  simp only [hlength]
  split
  next => rfl
  next => rfl
  next =>
    split_ifs
    · rfl
    · rfl
    · cases persist <;> rfl

/-- The records in the file, or those of the open store. -/
def Holding (s : Server) (records : List Invocation) : Prop := records = s.file ∨ s.records = some records

theorem Sound.eq_file (h : s.Sound) (hrecords : s.Holding records) : records = s.file := by
  obtain hfile | hopened := hrecords
  · exact hfile
  · exact h.records_eq hopened

/-- **Exactly-once create.**  Until the TTL, cut off to microseconds, has passed, a create with the
same key by the same tenant, project and actor is answered by the record; a key is never bound
twice; and no lookup or create observes the bindings of another tenant, project or actor. -/
theorem createdOnce_run {lookup : String → Option String} {cfg : InvocationStoreConfig}
    (hcfg : InvocationStoreConfig.tryFromVars lookup = .ok cfg) {steps : List Step}
    (hclock : Clocked steps) :
    CreatedOnce cfg steps (fun t => (toRfc3339 (t + cfg.idempotencyTtl)).instant) ∧
    ∀ i records, (init.run cfg (steps.take i)).Holding records →
      (∀ claims key now, (records.filter (·.bindsKey claims key now)).length ≤ 1) ∧
      (∀ claims key fingerprint now, findIdempotentAt claims key fingerprint now (records.map (hideBinding claims)) =
        findIdempotentAt claims key fingerprint now records) ∧
      ∀ claims now uuid persist new,
        (createIdempotentForClaims cfg now uuid persist claims new (records.map (hideBinding claims))).1 =
        (createIdempotentForClaims cfg now uuid persist claims new records).1 := by
  refine ⟨createdOnce_of_run (InvocationStoreConfig.accepted_of_tryFromVars hcfg) hclock, ?_⟩
  intro i records hrecords
  refine ⟨fun claims key now => ?_, fun claims key fingerprint now => ?_, fun claims now uuid persist new => ?_⟩
  · rw [(sound_run cfg _).eq_file hrecords]
    exact length_filter_bindsKey_le_one (pairwise_not_rivals cfg _) claims key now
  · exact findIdempotentAt_hideBinding claims key fingerprint now records
  · exact createIdempotentForClaims_hideBinding cfg now uuid persist claims new records

end Server

/-- A create with a key, and another one 24 hours and 1500 nanoseconds after the epoch. -/
def createTwice (first : Instant) : List Step :=
  [⟨.restart 0, 0, .ok ()⟩, ⟨.create acme ⟨plainRequest, none, none, some ⟨"k", "f"⟩⟩ "a", first, .ok ()⟩,
    ⟨.create acme ⟨plainRequest, none, none, some ⟨"k", "f"⟩⟩ "b", hours 24 + 1500, .ok ()⟩]

theorem Server.createdOnce_run_createTwice : (init.run ⟨days 7, 32, hours 24⟩ (createTwice 2000)).file.length = 1 ∧
    CreatedOnce ⟨days 7, 32, hours 24⟩ (createTwice 2000)
      (fun t => (toRfc3339 (t + hours 24)).instant) :=
  ⟨by decide +kernel,
    (@createdOnce_run (fun _ => none) _ rfl _ (by unfold Clocked; decide +kernel)).1⟩

/-- Less than a microsecond before the TTL has passed, the binding is no longer live. -/
theorem Server.not_createdOnce_createTwice :
    InvocationStoreConfig.tryFromVars (fun _ => none) = .ok ⟨days 7, 32, hours 24⟩ ∧
    Clocked (createTwice 1999) ∧
    (init.run ⟨days 7, 32, hours 24⟩ (createTwice 1999)).file.length = 2 ∧
    ¬CreatedOnce ⟨days 7, 32, hours 24⟩ (createTwice 1999) (fun t => t + hours 24) := by
  refine ⟨rfl, by unfold Clocked; decide +kernel, by decide +kernel, fun h => ?_⟩
  have hanswers := h 1 2 _ _ acme _ _ "a" "b" ⟨"k", "f"⟩ ⟨"k", "f"⟩
    (newInvocation ⟨days 7, 32, hours 24⟩ 1999 "a" acme ⟨plainRequest, none, none, some ⟨"k", "f"⟩⟩)
    (by decide) rfl rfl rfl rfl rfl rfl rfl rfl (by decide +kernel)
  cases hanswers with
  | unavailable hclosed _ => cases hclosed
  | replayed _ hstep => cases congrArg Prod.fst hstep

end WildAgentOs.Invocations
