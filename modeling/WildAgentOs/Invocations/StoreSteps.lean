import WildAgentOs.Invocations.Store

/-!
# What a step of the invocation store does

One inversion for each operation that writes, and what a step makes of the records: an operation is
a pass over them, after which a create adds one.

* `Change`, `Changes`;
* `Server.Sound`: the store is open on its file, or closed;
* `Server.Writes`, `step_writes`, `Server.Writes.passes`, `step_passes`.
-/

namespace WildAgentOs.Invocations

open ListPass List Option

/-! ### Stored usage -/

/-- The usage of a record is one that `validate_usage` lets through. -/
def Invocation.HasValidUsage (r : Invocation) : Prop :=
  ∀ result usage, r.result = some result → result.usage = some usage → validateUsage usage = .ok ()

variable {r : Invocation}

theorem readBack_of_hasValidUsage (h : r.HasValidUsage) : r.readBack = r := by
  unfold Invocation.readBack
  cases hresult : r.result with
  | none =>
    rw [map_none, ← hresult]
  | some result =>
    have husage : result.usage.map InvocationUsage.readBack = result.usage := by
      cases hu : result.usage with
      | none => rfl
      | some usage => rw [map_some, readBack_of_valid (h result usage hresult hu)]
    rw [map_some, husage, ← hresult]

/-- A patch that passes the first check of a transition. -/
def TransitionPatch.IsValid (patch : TransitionPatch) : Prop := (patch.usage.map validateUsage).getD (.ok ()) = .ok ()

theorem TransitionPatch.IsValid.validateUsage_eq_ok {patch : TransitionPatch} (h : patch.IsValid)
    {result : InvocationResult} {usage : InvocationUsage} (hresult : patch.result = some result)
    (husage : result.usage = some usage) : validateUsage usage = .ok () := by
  have hpatch : patch.usage = some usage := by
    unfold TransitionPatch.usage
    rw [hresult, bind_some, husage]
  simpa only [IsValid, hpatch, map_some, getD_some] using h

/-! ### Changes of one record -/

section Fields

variable (now : Instant) (actorId : String) (next : InvocationState) (patch : TransitionPatch)
  (r : Invocation)

@[simp] theorem applyTransition_state : (applyTransition now actorId next patch r).state = next := rfl

@[simp] theorem applyTransition_revision :
    (applyTransition now actorId next patch r).revision = saturatingSucc r.revision := rfl

@[simp] theorem applyTransition_result :
    (applyTransition now actorId next patch r).result = patch.result.or r.result := rfl

@[simp] theorem applyTransition_error : (applyTransition now actorId next patch r).error =
      (patch.error.map fun e => InvocationErrorInfo.new e.code e.message).or r.error := rfl

@[simp] theorem applyTransition_completedAt : (applyTransition now actorId next patch r).completedAt =
      if next.isTerminal then some (toRfc3339 now) else r.completedAt := rfl

@[simp] theorem interruptRecord_state : (interruptRecord now r).state = .failed := rfl

@[simp] theorem interruptRecord_completedAt : (interruptRecord now r).completedAt = some (toRfc3339 now) := rfl

end Fields

/-- The clock a step sweeps and unbinds with. -/
def Step.clock (st : Step) : Instant :=
  match st.op with
  | .sweep clock => clock
  | .restart started => started
  | _ => st.now

inductive Change (st : Step) : Invocation → Invocation → Prop
  | transition {r : Invocation} (actorId : String) {next : InvocationState}
      {patch : TransitionPatch} : patch.IsValid → r.state.isTerminal = false →
      r.state.permitsWith next patch.error = true →
      Change st r (applyTransition st.now actorId next patch r)
  | interrupt {r : Invocation} : r.state.isTerminal = false → Change st r (interruptRecord st.now r)
  | unbind {r : Invocation} {b : IdempotencyBinding} : r.idempotency = some b →
      b.isLive st.clock = false → Change st r { r with idempotency := none }

/-- A step can do several things to a record, as a restart does. -/
def Changes (st : Step) : Invocation → Invocation → Prop := Relation.ReflTransGen (Change st)

theorem Changes.refl (st : Step) (r : Invocation) : Changes st r r := Relation.ReflTransGen.refl

variable {st : Step} {r r' : Invocation}

theorem Change.hasValidUsage (h : Change st r r') (hr : r.HasValidUsage) : r'.HasValidUsage := by
  cases h with
  | @transition actorId next patch hpatch _ _ =>
    intro result usage hresult husage
    change patch.result.or r.result = some result at hresult
    cases hp : patch.result with
    | none =>
      rw [hp, none_or] at hresult
      exact hr result usage hresult husage
    | some written =>
      rw [hp, some_or] at hresult
      cases hresult
      exact hpatch.validateUsage_eq_ok hp husage
  | interrupt => exact hr
  | unbind => exact hr

theorem changes_interrupt (st : Step) (r : Invocation) : Changes st r (interrupt st.now r) := by
  unfold interrupt
  split_ifs with hterminal
  · exact Changes.refl st r
  · exact .single (.interrupt (by simpa using hterminal))

/-- A binding is dropped if it is not live. -/
theorem dropExpiredBinding_cases (now : Instant) (r : Invocation) :
    (dropExpiredBinding now r = r ∧ ∀ b, r.idempotency = some b → b.isLive now = true) ∨
      ∃ b, r.idempotency = some b ∧ b.isLive now = false ∧
        dropExpiredBinding now r = { r with idempotency := none } := by
  unfold dropExpiredBinding
  cases hb : r.idempotency with
  | none => exact .inl ⟨rfl, fun b h => nomatch h⟩
  | some b =>
    cases hlive : b.isLive now with
    | true => exact .inl ⟨by simp [hlive], fun b' h => some.inj h ▸ hlive⟩
    | false => exact .inr ⟨b, rfl, hlive, by simp [hlive]⟩

variable {records : List Invocation}

theorem isLive_of_mem_dropExpiredBindings {now : Instant}
    (hr : r ∈ dropExpiredBindings now records) : ∀ b, r.idempotency = some b → b.isLive now = true := by
  obtain ⟨r₀, -, rfl⟩ := List.mem_map.1 hr
  obtain ⟨hsame, hlive⟩ | ⟨b, -, -, hdropped⟩ := dropExpiredBinding_cases now r₀
  · rwa [hsame]
  · rw [hdropped]
    exact fun b h => nomatch h

theorem changes_dropExpiredBinding (st : Step) (r : Invocation) : Changes st r (dropExpiredBinding st.clock r) := by
  obtain ⟨hsame, -⟩ | ⟨b, hb, hdead, hdropped⟩ := dropExpiredBinding_cases st.clock r
  · rw [hsame]
    exact Changes.refl st r
  · rw [hdropped]
    exact .single (.unbind hb hdead)

/-! ### Operations -/

/-- What a transition does: it answers alone, or it writes the new record. -/
theorem transitionOutcomeForClaims_cases (now : Instant) (persist : Except String Unit)
    (claims : IsolationClaims) (id : String) (expectedRevision : Option ℕ)
    (next : InvocationState) (patch : TransitionPatch) (records : List Invocation) :
    (∃ e, transitionOutcomeForClaims now persist claims id expectedRevision next patch records = (.error e, none)) ∨
    (∃ current, records.find? (selects claims id) = some current ∧ current.state = next ∧
      transitionOutcomeForClaims now persist claims id expectedRevision next patch records =
        (.ok ⟨current, false⟩, none)) ∨
    ∃ current, patch.IsValid ∧ records.find? (selects claims id) = some current ∧
      current.state ≠ next ∧ (∀ n, expectedRevision = some n → n = current.revision) ∧
      current.state.isTerminal = false ∧ current.state.permitsWith next patch.error = true ∧
      transitionOutcomeForClaims now persist claims id expectedRevision next patch records =
        (.ok ⟨applyTransition now claims.actorId next patch current, true⟩,
          some (replaceFirst (selects claims id) (applyTransition now claims.actorId next patch current) records)) := by
  unfold transitionOutcomeForClaims
  cases hvalid : (patch.usage.map validateUsage).getD (.ok ()) with
  | error message => exact .inl ⟨_, rfl⟩
  | ok =>
    cases hfind : records.find? (selects claims id) with
    | none => exact .inl ⟨_, rfl⟩
    | some current =>
      simp only
      by_cases hsame : current.state = next
      · exact .inr (.inl ⟨current, rfl, hsame, by rw [if_pos hsame]⟩)
      rw [if_neg hsame]
      by_cases hrevision : expectedRevision.any (· ≠ current.revision) = true
      · exact .inl ⟨_, by rw [if_pos hrevision]⟩
      rw [if_neg hrevision]
      by_cases hedge : (current.state.isTerminal || !current.state.permitsWith next patch.error) = true
      · exact .inl ⟨_, by rw [if_pos hedge]⟩
      rw [if_neg hedge]
      rw [Bool.not_eq_true, Bool.or_eq_false_iff, Bool.not_eq_false'] at hedge
      cases persist with
      | error e => exact .inl ⟨_, rfl⟩
      | ok =>
        refine .inr (.inr ⟨current, hvalid, rfl, hsame, ?_, hedge.1, hedge.2, rfl⟩)
        rintro n rfl
        simpa using hrevision

/-- What a create that writes has found. -/
theorem createIdempotentForClaims_cases (cfg : InvocationStoreConfig) (now : Instant)
    (uuid : String) (persist : Except String Unit) (claims : IsolationClaims)
    (new : NewInvocation) (records : List Invocation) :
    (∃ answer, (∀ r, answer ≠ .ok (.created r)) ∧
      createIdempotentForClaims cfg now uuid persist claims new records = (answer, none)) ∨
    (boundTo records claims new now = none ∧ activeInScope records claims < cfg.maxActivePerScope ∧
      createIdempotentForClaims cfg now uuid persist claims new records =
        (.ok (.created (newInvocation cfg now uuid claims new)),
          some (dropExpiredBindings now (sweepExpiredRecords cfg.retention now records) ++
            [newInvocation cfg now uuid claims new]))) := by
  unfold createIdempotentForClaims
  split
  next => exact .inl ⟨_, by simp, rfl⟩
  next => exact .inl ⟨_, by simp, rfl⟩
  next hfree =>
    by_cases hactive : cfg.maxActivePerScope ≤ activeInScope records claims
    · exact .inl ⟨.error .tooManyActive, by simp, by rw [if_pos hactive]⟩
    rw [if_neg hactive]
    simp only
    split_ifs with hfull
    · exact .inl ⟨.error .storeFull, by simp, rfl⟩
    · cases persist with
      | error e => exact .inl ⟨.error (.persistence e), by simp, rfl⟩
      | ok => exact .inr ⟨hfree, not_le.1 hactive, rfl⟩

theorem sweepExpiredAt_cases (cfg : InvocationStoreConfig) (now : Instant)
    (persist : Except String Unit) (records : List Invocation) :
    (∃ answer, sweepExpiredAt cfg now persist records = (answer, none)) ∨
      ∃ swept, sweepExpiredAt cfg now persist records =
        (.ok swept, some (sweepExpiredRecords cfg.retention now records)) := by
  unfold sweepExpiredAt
  simp only
  split_ifs with hswept
  · exact .inl ⟨_, rfl⟩
  · cases persist with
    | error e => exact .inl ⟨_, rfl⟩
    | ok => exact .inr ⟨_, rfl⟩

/-- The records that a restart makes of those in the file. -/
def recovered (cfg : InvocationStoreConfig) (now started : Instant) (file : List Invocation) : List Invocation :=
  dropExpiredBindings started
    (sweepExpiredRecords cfg.retention started ((file.map Invocation.readBack).map (interrupt now)))

/-- A restart fails, or finds nothing to do, or writes what it has recovered. -/
theorem openWithConfig_cases (cfg : InvocationStoreConfig) (now started : Instant)
    (persist : Except String Unit) {file : List Invocation} (hfile : ∀ r ∈ file, r.HasValidUsage) :
    (∃ e, openWithConfig cfg now started persist file = (.error e, none)) ∨
    (∃ report, openWithConfig cfg now started persist file = (.ok (file, report), none) ∧
      recovered cfg now started file = file) ∨
    ∃ report, openWithConfig cfg now started persist file =
      (.ok (recovered cfg now started file, report), some (recovered cfg now started file)) := by
  have hread : file.map Invocation.readBack = file := by
    rw [map_congr_left fun r hr => readBack_of_hasValidUsage (hfile r hr), List.map_id']
  unfold openWithConfig recovered
  rw [hread]
  simp only
  split_ifs with hwrites
  · cases persist with
    | error e => exact .inl ⟨_, rfl⟩
    | ok => exact .inr (.inr ⟨_, rfl⟩)
  · -- Nothing is open, nothing is swept, and no binding has expired.
    obtain ⟨hopen, hswept, hexpired⟩ : _ ∧ _ ∧ _ := by
      simpa only [not_or, not_lt, Nat.le_zero] using hwrites
    have hinterrupt : file.map (interrupt now) = file := by
      refine (map_congr_left fun r hr => ?_).trans (List.map_id' file)
      have := countP_eq_zero.1 hopen r hr
      unfold interrupt
      rw [if_pos (by simpa using this)]
    rw [hinterrupt] at hswept hexpired ⊢
    have hsweep : sweepExpiredRecords cfg.retention started file = file := by
      have hle := length_filter_le (isKept cfg.retention started) file
      refine filter_sublist.eq_of_length ?_
      unfold sweepExpiredRecords at hswept
      omega
    rw [hsweep] at hexpired ⊢
    have hdrop : dropExpiredBindings started file = file := by
      refine (map_congr_left fun r hr => ?_).trans (List.map_id' file)
      have := countP_eq_zero.1 hexpired r hr
      unfold dropExpiredBinding
      rw [if_neg this]
    rw [hdrop]
    exact .inr (.inl ⟨_, rfl, rfl⟩)

/-! ### The order of a listing -/

theorem newestFirst_trans {r₁ r₂ r₃ : Invocation} (h : newestFirst r₁ r₂ = true)
    (h' : newestFirst r₂ r₃ = true) : newestFirst r₁ r₃ = true := by
  unfold newestFirst at h h' ⊢
  simp only [Bool.or_eq_true, Bool.and_eq_true, decide_eq_true_iff] at h h' ⊢
  obtain h | ⟨h, hid⟩ := h
  · left
    obtain h' | ⟨h', -⟩ := h'
    · exact h'.trans h
    · rwa [← h']
  · rw [h]
    exact h'.imp_right fun ⟨h', hid'⟩ => ⟨h', String.le_trans hid' hid⟩

theorem newestFirst_total (r r' : Invocation) : (newestFirst r r' || newestFirst r' r) = true := by
  unfold newestFirst
  simp only [Bool.or_eq_true, Bool.and_eq_true, decide_eq_true_iff]
  rcases lt_trichotomy r.createdAt.micros r'.createdAt.micros with h | h | h
  · exact .inr (.inl h)
  · have heq : r.createdAt = r'.createdAt := by
      cases hr : r.createdAt
      cases hr' : r'.createdAt
      simpa [hr, hr'] using h
    exact (String.le_total r'.id r.id).imp (fun h => .inr ⟨heq, h⟩) fun h => .inr ⟨heq.symm, h⟩
  · exact .inl (.inl h)

/-! ### Steps of the server -/

theorem Changes.hasValidUsage (h : Changes st r r') (hr : r.HasValidUsage) : r'.HasValidUsage := by
  induction h with
  | refl => exact hr
  | tail _ hchange ih => exact hchange.hasValidUsage ih

namespace Server

/-- The store is open on its file, or closed, and the file holds no usage that does not pass. -/
structure Sound (s : Server) : Prop where
  synced : s.records = none ∨ s.records = some s.file
  usages : ∀ r ∈ s.file, r.HasValidUsage

variable {s : Server}

/-- What an open store holds is its file. -/
theorem Sound.records_eq (h : s.Sound) (hopen : s.records = some records) : records = s.file := by
  obtain hclosed | hsynced := h.synced
  · rw [hclosed] at hopen
    cases hopen
  · exact (some.inj (hsynced.symm.trans hopen)).symm

/-- The snapshots that a step can persist. -/
inductive Writes (cfg : InvocationStoreConfig) (st : Step) (records : List Invocation) : List Invocation → Prop
  | create {claims : IsolationClaims} {new : NewInvocation} {uuid : String} :
      st.op = .create claims new uuid → boundTo records claims new st.now = none →
      activeInScope records claims < cfg.maxActivePerScope →
      Writes cfg st records
        (dropExpiredBindings st.now (sweepExpiredRecords cfg.retention st.now records) ++
          [newInvocation cfg st.now uuid claims new])
  | transition {claims : IsolationClaims} {id : String} {expectedRevision : Option ℕ}
      {next : InvocationState} {patch : TransitionPatch} {current : Invocation} :
      st.op = .transition claims id expectedRevision next patch → patch.IsValid →
      records.find? (selects claims id) = some current →
      (∀ n, expectedRevision = some n → n = current.revision) →
      current.state.isTerminal = false → current.state.permitsWith next patch.error = true →
      Writes cfg st records
        (replaceFirst (selects claims id) (applyTransition st.now claims.actorId next patch current) records)
  | sweep {clock : Instant} : st.op = .sweep clock →
      Writes cfg st records (sweepExpiredRecords cfg.retention clock records)
  | restart {started : Instant} : st.op = .restart started →
      Writes cfg st records (recovered cfg st.now started records)

variable {cfg : InvocationStoreConfig}

/-- A step leaves the file, or writes what it can; the store is then open on it, or closed. -/
theorem step_writes (hs : s.Sound) :
    ((s.step cfg st).2.records = none ∨ (s.step cfg st).2.records = some (s.step cfg st).2.file) ∧
    ((s.step cfg st).2.file = s.file ∨ Writes cfg st s.file (s.step cfg st).2.file) := by
  have hkeeps : (s.records = none ∨ s.records = some s.file) ∧
      (s.file = s.file ∨ Writes cfg st s.file s.file) := ⟨hs.synced, .inl rfl⟩
  have hserve : ∀ {α : Type} (outcome : α → Outcome)
      (op : List Invocation → α × Option (List Invocation)),
      (∀ snapshot, s.records = some s.file → (op s.file).2 = some snapshot → Writes cfg st s.file snapshot) →
      ((s.serve outcome op).2.records = none ∨ (s.serve outcome op).2.records = some (s.serve outcome op).2.file) ∧
      ((s.serve outcome op).2.file = s.file ∨ Writes cfg st s.file (s.serve outcome op).2.file) := by
    intro α outcome op hop
    unfold serve
    obtain hclosed | hopen := hs.synced
    · rw [hclosed]
      exact ⟨.inl hclosed, .inl rfl⟩
    · rw [hopen]
      simp only
      cases hsnapshot : (op s.file).2 with
      | none => exact ⟨.inr hopen, .inl rfl⟩
      | some snapshot => exact ⟨.inr rfl, .inr (hop snapshot hopen hsnapshot)⟩
  unfold step
  cases hop : st.op with
  | create claims new uuid =>
    refine hserve _ _ fun snapshot _ h => ?_
    obtain ⟨answer, -, hnone⟩ | ⟨hfree, hactive, hsome⟩ :=
      createIdempotentForClaims_cases cfg st.now uuid st.persist claims new s.file
    · rw [hnone] at h
      cases h
    · rw [hsome] at h
      cases h
      exact .create hop hfree hactive
  | transition claims id expectedRevision next patch =>
    refine hserve _ _ fun snapshot _ h => ?_
    obtain ⟨e, he⟩ | ⟨current, -, -, hsame⟩ |
      ⟨current, hvalid, hfind, -, hrevision, hopen, hedge, hsome⟩ :=
      transitionOutcomeForClaims_cases st.now st.persist claims id expectedRevision next patch
        s.file
    · rw [he] at h
      cases h
    · rw [hsame] at h
      cases h
    · rw [hsome] at h
      cases h
      exact .transition hop hvalid hfind hrevision hopen hedge
  | sweep clock =>
    refine hserve _ _ fun snapshot _ h => ?_
    obtain ⟨answer, hnone⟩ | ⟨swept, hsome⟩ := sweepExpiredAt_cases cfg clock st.persist s.file
    · rw [hnone] at h
      cases h
    · rw [hsome] at h
      cases h
      exact .sweep hop
  | get claims id => exact hserve _ _ fun _ _ h => nomatch h
  | list claims state => exact hserve _ _ fun _ _ h => nomatch h
  | find claims key fingerprint clock => exact hserve _ _ fun _ _ h => nomatch h
  | restart started =>
    simp only
    unfold restart
    obtain ⟨e, he⟩ | ⟨report, hsame, -⟩ | ⟨report, hwrites⟩ :=
      openWithConfig_cases cfg st.now started st.persist hs.usages
    · rw [he]
      exact ⟨.inl rfl, .inl rfl⟩
    · rw [hsame]
      exact ⟨.inr rfl, .inl rfl⟩
    · rw [hwrites]
      exact ⟨.inr rfl, .inr (.restart hop)⟩

/-! ### Steps as passes -/

/-- A step drops a record that it does not keep, as it has then changed it. -/
def Dropped (cfg : InvocationStoreConfig) (st : Step) (r : Invocation) : Prop :=
  ∃ r', Changes st r r' ∧ isKept cfg.retention st.clock r' = false

/-- The record that a create adds: its key was free, and no binding that has expired is left. -/
inductive Adds (cfg : InvocationStoreConfig) (st : Step) (records survivors : List Invocation) : List Invocation → Prop
  | nothing : Adds cfg st records survivors []
  | created {claims : IsolationClaims} {new : NewInvocation} {uuid : String} :
      st.op = .create claims new uuid → boundTo records claims new st.now = none →
      (∀ r ∈ survivors, ∀ b, r.idempotency = some b → b.isLive st.now = true) →
      Adds cfg st records survivors [newInvocation cfg st.now uuid claims new]

theorem passes_replaceFirst {drop : Invocation → Prop} {change : Invocation → Invocation → Prop} {p : Invocation → Bool}
    {updated current : Invocation} (hrefl : ∀ r, change r r) (hfind : records.find? p = some current)
    (hchange : change current updated) : Passes drop change records (replaceFirst p updated records) := by
  induction records with
  | nil => cases hfind
  | cons r records ih =>
    unfold replaceFirst
    cases hr : p r with
    | true =>
      rw [find?_cons_of_pos hr] at hfind
      cases hfind
      exact .keep hchange (.refl hrefl records)
    | false =>
      rw [find?_cons_of_neg (by simp [hr])] at hfind
      exact .keep (hrefl r) (ih hfind)

/-- What retention makes of a record. -/
def retain (cfg : InvocationStoreConfig) (clock : Instant) (r : Invocation) : Option Invocation :=
  if isKept cfg.retention clock r then some (dropExpiredBinding clock r) else none

theorem retention_eq_filterMap (cfg : InvocationStoreConfig) (clock : Instant)
    (change : Invocation → Invocation) (records : List Invocation) :
    dropExpiredBindings clock (sweepExpiredRecords cfg.retention clock (records.map change)) =
      records.filterMap fun r => retain cfg clock (change r) := by
  unfold dropExpiredBindings sweepExpiredRecords
  rw [← filterMap_eq_filter, ← filterMap_eq_map, ← filterMap_eq_map, filterMap_filterMap, filterMap_filterMap]
  refine filterMap_congr fun r _ => ?_
  unfold retain
  by_cases hkept : isKept cfg.retention clock (change r) = true <;> simp [Option.guard, hkept]

/-- Records that are changed, swept, and then lose their expired bindings. -/
theorem passes_retention (cfg : InvocationStoreConfig) {change : Invocation → Invocation}
    (hchange : ∀ r, Changes st r (change r)) (records : List Invocation) :
    Passes (Dropped cfg st) (Changes st) records
      (dropExpiredBindings st.clock (sweepExpiredRecords cfg.retention st.clock (records.map change))) := by
  rw [retention_eq_filterMap]
  unfold retain
  refine .of_filterMap _ (fun r _ h => ?_) fun r _ r' h => ?_
  · split_ifs at h with hkept
    exact ⟨_, hchange r, by simpa using hkept⟩
  · split_ifs at h with hkept
    cases h
    exact (hchange r).trans (changes_dropExpiredBinding st _)

theorem clock_eq_of_op {op : Op} (h : st.op = op) : st.clock = Step.clock { st with op } := by
  rw [← h]

/-- **What a step writes** are the records after a pass, and the one it has created. -/
theorem Writes.passes {records snapshot : List Invocation}
    (hrecords : ∀ r ∈ records, r.HasValidUsage) (h : Writes cfg st records snapshot) :
    ∃ survivors added, snapshot = survivors ++ added ∧
      Passes (Dropped cfg st) (Changes st) records survivors ∧ Adds cfg st records survivors added := by
  cases h with
  | create hop hfree _ =>
    have hclock : st.clock = st.now := clock_eq_of_op hop
    have hpass := passes_retention cfg (Changes.refl st) records
    rw [List.map_id', hclock] at hpass
    exact ⟨_, _, rfl, hpass, .created hop hfree fun r hr => isLive_of_mem_dropExpiredBindings hr⟩
  | transition hop hvalid hfind _ hopen hedge =>
    refine ⟨_, [], (append_nil _).symm, ?_, .nothing⟩
    exact passes_replaceFirst (Changes.refl st) hfind (.single (.transition _ hvalid hopen hedge))
  | @sweep clock hop =>
    have hclock : st.clock = clock := clock_eq_of_op hop
    refine ⟨_, [], (append_nil _).symm, ?_, .nothing⟩
    unfold sweepExpiredRecords
    rw [← filterMap_eq_filter, ← hclock]
    refine .of_filterMap _ (fun r _ hr => ⟨r, Changes.refl st r, ?_⟩) fun r _ r' hr => ?_
    · simpa [Option.guard] using hr
    · obtain ⟨rfl, -⟩ := guard_eq_some_iff.1 hr
      exact Changes.refl st r
  | @restart started hop =>
    have hclock : st.clock = started := clock_eq_of_op hop
    refine ⟨_, [], (append_nil _).symm, ?_, .nothing⟩
    unfold recovered
    rw [map_congr_left fun r hr => readBack_of_hasValidUsage (hrecords r hr), List.map_id', ← hclock]
    exact passes_retention cfg (changes_interrupt st) records

/-- **A step is a pass over the file**, and adds what it has created. -/
theorem step_passes (cfg : InvocationStoreConfig) (st : Step) (hs : s.Sound) :
    ∃ survivors added, (s.step cfg st).2.file = survivors ++ added ∧
      Passes (Dropped cfg st) (Changes st) s.file survivors ∧ Adds cfg st s.file survivors added := by
  obtain hsame | hwrites := (step_writes hs).2
  · exact ⟨s.file, [], by rw [hsame, append_nil], .refl (Changes.refl st) s.file, .nothing⟩
  · exact hwrites.passes hs.usages

theorem sound_init : init.Sound := ⟨.inl rfl, fun _ h => nomatch h⟩

theorem Sound.step (st : Step) (hs : s.Sound) : (s.step cfg st).2.Sound := by
  refine ⟨(step_writes hs).1, fun r hr => ?_⟩
  obtain ⟨survivors, added, hfile, hpass, hadds⟩ := step_passes cfg st hs
  rw [hfile, mem_append] at hr
  obtain hr | hr := hr
  · obtain ⟨r₀, hr₀, hchanges⟩ := hpass.source hr
    exact hchanges.hasValidUsage (hs.usages r₀ hr₀)
  · cases hadds with
    | nothing => cases hr
    | created =>
      obtain rfl := mem_singleton.1 hr
      exact fun result usage h => nomatch h

theorem sound_run (cfg : InvocationStoreConfig) (steps : List Step) : (init.run cfg steps).Sound := by
  induction steps using reverseRecOn with
  | nil => exact sound_init
  | append_singleton steps st ih =>
    rw [run_append]
    exact ih.step st

/-- **The open store is its file**, after any steps, failed writes and restarts among them. -/
theorem synced_run (cfg : InvocationStoreConfig) (steps : List Step) :
    (init.run cfg steps).records = none ∨ (init.run cfg steps).records = some (init.run cfg steps).file :=
  (sound_run cfg steps).synced

end Server

end WildAgentOs.Invocations
