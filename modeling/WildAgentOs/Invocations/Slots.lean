import WildAgentOs.Invocations.Store

/-!
# Running slots

The admission ledger of `invocations_enforcement.rs`.  A count that is absent from its table reads as
zero, so a table is a function.

* `InvocationRunningLimits.fromVars`;
* `FifoRunningSlots`: `tryAcquire`, `tryAdmit`, `release`;
* `FifoRunningSlots.Sound`: the counts are those of the admitted ids, and within the limits.
-/

namespace WildAgentOs.Invocations

open List Function

def DEFAULT_MAX_RUNNING_GLOBAL : ℕ := 64
def DEFAULT_MAX_RUNNING_PER_TENANT : ℕ := 16
def DEFAULT_MAX_RUNNING_PER_SCOPE : ℕ := 8
def MAX_RUNNING_GLOBAL_ENV : String := "AGENTOS_INVOCATION_MAX_RUNNING_GLOBAL"
def MAX_RUNNING_PER_TENANT_ENV : String := "AGENTOS_INVOCATION_MAX_RUNNING_PER_TENANT"
def MAX_RUNNING_PER_SCOPE_ENV : String := "AGENTOS_INVOCATION_MAX_RUNNING_PER_SCOPE"

structure InvocationRunningLimits where
  global : ℕ
  perTenant : ℕ
  perScope : ℕ
  deriving DecidableEq

def InvocationRunningLimits.fromVars (lookup : String → Option String) : InvocationRunningLimits where
  global := (InvocationStoreConfig.positive lookup MAX_RUNNING_GLOBAL_ENV).getD
    DEFAULT_MAX_RUNNING_GLOBAL
  perTenant := (InvocationStoreConfig.positive lookup MAX_RUNNING_PER_TENANT_ENV).getD
    DEFAULT_MAX_RUNNING_PER_TENANT
  perScope := (InvocationStoreConfig.positive lookup MAX_RUNNING_PER_SCOPE_ENV).getD
    DEFAULT_MAX_RUNNING_PER_SCOPE

structure RunningScope where
  tenantId : String
  projectId : String
  deriving DecidableEq

def RunningScope.fromInvocation (r : Invocation) : RunningScope := ⟨r.tenantId, r.projectId⟩

/-- `admitted` has the scope that an id was admitted under. -/
structure FifoRunningSlots where
  limits : InvocationRunningLimits
  global : ℕ
  perTenant : String → ℕ
  perScope : RunningScope → ℕ
  admitted : List (String × RunningScope)

namespace FifoRunningSlots

def new (limits : InvocationRunningLimits) : FifoRunningSlots := ⟨limits, 0, fun _ => 0, fun _ => 0, []⟩

def admittedIds (s : FifoRunningSlots) : List String := s.admitted.map Prod.fst

/-- One of the three caps is reached. -/
def isFull (s : FifoRunningSlots) (scope : RunningScope) : Bool :=
  s.limits.global ≤ s.global || s.limits.perTenant ≤ s.perTenant scope.tenantId ||
    s.limits.perScope ≤ s.perScope scope

def tryAcquire (s : FifoRunningSlots) (scope : RunningScope) : Bool × FifoRunningSlots :=
  if s.isFull scope then (false, s)
  else
    (true, { s with
      global := s.global + 1
      perTenant := update s.perTenant scope.tenantId (s.perTenant scope.tenantId + 1)
      perScope := update s.perScope scope (s.perScope scope + 1) })

def tryAdmit (s : FifoRunningSlots) (scope : RunningScope) (id : String) : Bool × FifoRunningSlots :=
  if s.admittedIds.contains id then (true, s)
  else
    match s.tryAcquire scope with
    | (false, s') => (false, s')
    | (true, s') => (true, { s' with admitted := s'.admitted ++ [(id, scope)] })

/-- `release`: the scope is the one recorded at admission. -/
def release (s : FifoRunningSlots) (id : String) : Bool × FifoRunningSlots :=
  match s.admitted.lookup id with
  | none => (false, s)
  | some scope =>
    (true, { s with
      global := s.global - 1
      perTenant := update s.perTenant scope.tenantId (s.perTenant scope.tenantId - 1)
      perScope := update s.perScope scope (s.perScope scope - 1)
      admitted := s.admitted.filter (·.1 ≠ id) })

/-! ### The ledger -/

/-- **The counts are those of the admitted ids**: over all, of a tenant and of a scope. -/
structure Sound (s : FifoRunningSlots) : Prop where
  nodup : s.admittedIds.Nodup
  global : s.global = s.admitted.length
  perTenant : ∀ tenantId, s.perTenant tenantId = s.admitted.countP (·.2.tenantId = tenantId)
  perScope : ∀ scope, s.perScope scope = s.admitted.countP (·.2 = scope)
  global_le : s.global ≤ s.limits.global
  perTenant_le : ∀ tenantId, s.perTenant tenantId ≤ s.limits.perTenant
  perScope_le : ∀ scope, s.perScope scope ≤ s.limits.perScope

theorem sound_new (limits : InvocationRunningLimits) : (new limits).Sound :=
  ⟨.nil, rfl, fun _ => rfl, fun _ => rfl, Nat.zero_le _, fun _ => Nat.zero_le _, fun _ => Nat.zero_le _⟩

variable {s : FifoRunningSlots} {id : String}

theorem mem_admittedIds_iff : id ∈ s.admittedIds ↔ ∃ scope, s.admitted.lookup id = some scope := by
  unfold admittedIds
  induction s.admitted with
  | nil => simp
  | cons entry l ih =>
    obtain ⟨key, scope⟩ := entry
    rw [map_cons, mem_cons, lookup_cons]
    by_cases hkey : id = key
    · simp [hkey]
    · have hne : (id == key) = false := by simpa using hkey
      simp [hkey, hne, ih]

/-- What an admission does: nothing, if the id is admitted; nothing, if a cap is reached; or it takes
a slot. -/
theorem tryAdmit_cases (s : FifoRunningSlots) (scope : RunningScope) (id : String) :
    (id ∈ s.admittedIds ∧ s.tryAdmit scope id = (true, s)) ∨
    (id ∉ s.admittedIds ∧ s.isFull scope = true ∧ s.tryAdmit scope id = (false, s)) ∨
    (id ∉ s.admittedIds ∧ s.isFull scope = false ∧ s.tryAdmit scope id =
      (true, { s with
        global := s.global + 1
        perTenant := update s.perTenant scope.tenantId (s.perTenant scope.tenantId + 1)
        perScope := update s.perScope scope (s.perScope scope + 1)
        admitted := s.admitted ++ [(id, scope)] })) := by
  unfold tryAdmit tryAcquire
  by_cases hid : id ∈ s.admittedIds
  · exact .inl ⟨hid, by simp [hid]⟩
  · cases hfull : s.isFull scope with
    | true => exact .inr (.inl ⟨hid, rfl, by simp [hid]⟩)
    | false => exact .inr (.inr ⟨hid, rfl, by simp [hid]⟩)

variable {scope : RunningScope} {entry : String × RunningScope}

/-- What is in the ledger was there, or has been admitted under its scope. -/
theorem mem_admitted_tryAdmit (h : entry ∈ (s.tryAdmit scope id).2.admitted) :
    entry ∈ s.admitted ∨ entry = (id, scope) := by
  obtain ⟨-, h'⟩ | ⟨-, -, h'⟩ | ⟨-, -, h'⟩ := s.tryAdmit_cases scope id
  · exact .inl (by rwa [h'] at h)
  · exact .inl (by rwa [h'] at h)
  · rw [h'] at h
    simpa using h

variable {id' : String}

theorem mem_admittedIds_tryAdmit :
    id' ∈ (s.tryAdmit scope id).2.admittedIds ↔ id' ∈ s.admittedIds ∨ ((s.tryAdmit scope id).1 = true ∧ id' = id) := by
  obtain ⟨hid, h⟩ | ⟨-, -, h⟩ | ⟨-, -, h⟩ := s.tryAdmit_cases scope id
  · rw [h]
    constructor
    · exact .inl
    · rintro (h | ⟨-, rfl⟩)
      · exact h
      · exact hid
  · simp [h]
  · simp [h, admittedIds]

theorem isFull_of_tryAdmit (h : (s.tryAdmit scope id).1 = false) :
    id ∉ s.admittedIds ∧ s.isFull scope = true ∧ (s.tryAdmit scope id).2 = s := by
  obtain ⟨-, h'⟩ | ⟨hid, hfull, h'⟩ | ⟨-, -, h'⟩ := s.tryAdmit_cases scope id
  · simp [h'] at h
  · exact ⟨hid, hfull, by rw [h']⟩
  · simp [h'] at h

theorem limits_tryAdmit (s : FifoRunningSlots) (scope : RunningScope) (id : String) :
    (s.tryAdmit scope id).2.limits = s.limits := by
  obtain ⟨-, h⟩ | ⟨-, -, h⟩ | ⟨-, -, h⟩ := s.tryAdmit_cases scope id <;> rw [h]

/-- **An unknown release changes nothing**, and says so. -/
theorem release_of_not_mem (h : id ∉ s.admittedIds) : s.release id = (false, s) := by
  unfold release
  cases hlookup : s.admitted.lookup id with
  | none => rfl
  | some scope => exact absurd (mem_admittedIds_iff.2 ⟨scope, hlookup⟩) h

theorem mem_admitted_release (h : entry ∈ (s.release id).2.admitted) : entry ∈ s.admitted := by
  unfold release at h
  split at h
  · exact h
  · exact (mem_filter.1 h).1

theorem mem_admittedIds_release : id' ∈ (s.release id).2.admittedIds ↔ id' ∈ s.admittedIds ∧ id' ≠ id := by
  by_cases hid : id ∈ s.admittedIds
  · obtain ⟨scope, hlookup⟩ := mem_admittedIds_iff.1 hid
    unfold release
    rw [hlookup]
    simp [admittedIds]
  · rw [release_of_not_mem hid]
    constructor
    · intro h
      exact ⟨h, fun heq => hid (heq ▸ h)⟩
    · exact And.left

/-- **A repeated release changes nothing.** -/
theorem release_release (s : FifoRunningSlots) (id : String) :
    (s.release id).2.release id = (false, (s.release id).2) :=
  release_of_not_mem fun h => (mem_admittedIds_release.1 h).2 rfl

theorem limits_release (s : FifoRunningSlots) (id : String) : (s.release id).2.limits = s.limits := by
  unfold release
  split <;> rfl

theorem Sound.tryAdmit (hs : s.Sound) (scope : RunningScope) (id : String) : (s.tryAdmit scope id).2.Sound := by
  obtain ⟨-, h⟩ | ⟨-, -, h⟩ | ⟨hid, hroom, h⟩ := s.tryAdmit_cases scope id
  · rwa [h]
  · rwa [h]
  · unfold isFull at hroom
    simp only [Bool.or_eq_false_iff, decide_eq_false_iff_not, not_le] at hroom
    obtain ⟨⟨hglobal, htenant⟩, hscope⟩ := hroom
    rw [h]
    refine ⟨?_, ?_, fun t => ?_, fun sc => ?_, hglobal, fun t => ?_, fun sc => ?_⟩
    · simp only [admittedIds, map_append, map_cons, map_nil]
      refine nodup_append.2 ⟨hs.nodup, nodup_singleton id, ?_⟩
      rintro key hkey _ hsingle rfl
      exact hid (mem_singleton.1 hsingle ▸ hkey)
    · simp [hs.global]
    · by_cases ht : t = scope.tenantId
      · simp [ht, hs.perTenant]
      · simp [ht, Ne.symm ht, hs.perTenant]
    · by_cases hsc : sc = scope
      · simp [hsc, hs.perScope]
      · simp [hsc, Ne.symm hsc, hs.perScope]
    · by_cases ht : t = scope.tenantId
      · subst ht
        simpa using htenant
      · simpa [ht] using hs.perTenant_le t
    · by_cases hsc : sc = scope
      · subst hsc
        simpa using hscope
      · simpa [hsc] using hs.perScope_le sc

/-- What is counted of the entries loses the one that is released. -/
theorem countP_filter_ne {l : List (String × RunningScope)} (hnodup : (l.map Prod.fst).Nodup)
    (hlookup : l.lookup id = some scope) (p : String × RunningScope → Bool) :
    (l.filter (·.1 ≠ id)).countP p = l.countP p - if p (id, scope) then 1 else 0 := by
  induction l with
  | nil => cases hlookup
  | cons entry l ih =>
    obtain ⟨key, scope'⟩ := entry
    obtain ⟨hkey, hnodup⟩ := nodup_cons.1 hnodup
    rw [lookup_cons] at hlookup
    by_cases hid : id = key
    · subst hid
      obtain rfl : scope' = scope := by simpa using hlookup
      have hrest : l.filter (·.1 ≠ id) = l := by
        refine filter_eq_self.2 fun e he => ?_
        simpa using fun heq => hkey (mem_map.2 ⟨e, he, heq⟩)
      rw [filter_cons_of_neg (by simp), hrest, countP_cons, Nat.add_sub_cancel]
    · have hne : (id == key) = false := by simpa using hid
      rw [hne] at hlookup
      have hpos : 0 < l.countP p ∨ p (id, scope) = false := by
        cases hp : p (id, scope) with
        | false => exact .inr rfl
        | true =>
          obtain ⟨before, after, rfl, -⟩ := lookup_eq_some_iff.1 hlookup
          exact .inl (countP_pos_iff.2 ⟨(id, scope), by simp, hp⟩)
      rw [filter_cons_of_pos (by simpa using Ne.symm hid), countP_cons, countP_cons,
        ih hnodup hlookup]
      rcases hpos with hpos | hp
      · split_ifs <;> omega
      · simp [hp]

theorem Sound.release {s : FifoRunningSlots} (hs : s.Sound) (id : String) : (s.release id).2.Sound := by
  by_cases hid : id ∈ s.admittedIds
  · obtain ⟨scope, hlookup⟩ := mem_admittedIds_iff.1 hid
    have hcount := countP_filter_ne hs.nodup hlookup
    unfold FifoRunningSlots.release
    rw [hlookup]
    refine ⟨?_, ?_, fun t => ?_, fun sc => ?_, (Nat.sub_le _ _).trans hs.global_le, fun t => ?_, fun sc => ?_⟩
    · exact hs.nodup.sublist (filter_sublist.map Prod.fst)
    · have := hcount fun _ => true
      simpa [countP_true, hs.global] using this.symm
    · rw [hcount]
      by_cases ht : t = scope.tenantId
      · simp [ht, hs.perTenant]
      · simp [ht, Ne.symm ht, hs.perTenant]
    · rw [hcount]
      by_cases hsc : sc = scope
      · simp [hsc, hs.perScope]
      · simp [hsc, Ne.symm hsc, hs.perScope]
    · refine le_trans ?_ (hs.perTenant_le t)
      by_cases ht : t = scope.tenantId
      · subst ht
        simp
      · simp [ht]
    · refine le_trans ?_ (hs.perScope_le sc)
      by_cases hsc : sc = scope
      · subst hsc
        simp
      · simp [hsc]
  · rwa [release_of_not_mem hid]

end FifoRunningSlots

end WildAgentOs.Invocations
