import Mathlib.Data.List.AList
import Mathlib.Data.List.Perm.Basic
import WildAgentOs.Json.Value
import WildAgentOs.Lib.BitSets

/-!
# The event bus

`core/event_bus.rs`: a type name is registered when it is first emitted or asked for, and gets a bit
of a word of 64.  The registry is behind a mutex: a panic inside poisons it, and every later lock
panics.

* `TypeMask`, `Subscription`, `EventBus`;
* `EventBus.step`, `EventBus.after`: calls on one bus;
* `Assigned`;
* `panics_iff`: a call panics exactly if more than 64 names have been asked for;
* `routesExactly_after`: what holds below that bound.
-/

namespace WildAgentOs.Core

open Json BitSets List

/-! ### The registry -/

structure TypeMask where
  masks : AList fun _ : String => BitVec 64
  nextBit : ℕ

namespace TypeMask

def new : TypeMask := ⟨∅, 0⟩

/-- `get_or_create_mask`: `none` is the panic at the overflow. -/
def getOrCreateMask (tm : TypeMask) (typeName : String) : Option (BitVec 64 × TypeMask) :=
  match tm.masks.lookup typeName with
  | some mask => some (mask, tm)
  | none =>
    if tm.nextBit ≥ 64 then none
    else
      let mask := 1#64 <<< tm.nextBit
      some (mask, ⟨tm.masks.insert typeName mask, tm.nextBit + 1⟩)

def combineMasks (tm : TypeMask) (types : List String) : BitVec 64 :=
  (types.filterMap tm.masks.lookup).foldl (· ||| ·) 0

end TypeMask

/-! ### Events and subscriptions -/

inductive EventPriority
  | low
  | normal
  | high
  | critical
  deriving DecidableEq

structure Event where
  eventId : String
  taskIri : String
  eventType : String
  sourceAgentIri : String
  payload : String
  payloadJsonLd : String
  timestamp : ℤ
  sequence : UInt64
  typeMask : BitVec 64
  priority : EventPriority
  deriving DecidableEq

structure Subscription where
  subscriberId : String
  typeMask : BitVec 64
  scopeIri : Option String
  eventTypes : List String
  tenantId : Option String
  projectId : Option String
  deriving DecidableEq

namespace Subscription

def new (subscriberId : String) : Subscription where
  subscriberId
  typeMask := 0
  scopeIri := none
  eventTypes := []
  tenantId := none
  projectId := none

def withTypeMask (s : Subscription) (mask : BitVec 64) : Subscription := { s with typeMask := mask }

/-- A payload that names another value under a key. -/
def namesOther (payload : Value) (key : String) (own : Option String) : Bool :=
  own.any fun own => ((payload.get key).bind Value.asStr).any (· ≠ own)

/-- `matches`; `fromStr` is the JSON reader. -/
def matchesEvent (fromStr : String → Option Value) (s : Subscription) (event : Event) : Bool :=
  if s.typeMask ≠ 0 && event.typeMask &&& s.typeMask = 0 then false
  else if s.scopeIri.any (event.taskIri ≠ ·) then false
  else if s.eventTypes ≠ [] && !s.eventTypes.contains event.eventType then false
  else if s.tenantId.isSome || s.projectId.isSome then
    match fromStr event.payload with
    | some payload =>
      !namesOther payload "tenant_id" s.tenantId && !namesOther payload "project_id" s.projectId
    | none => true
  else true

end Subscription

/-! ### The bus -/

/-- `sent`: what has gone into the channel. -/
structure EventBus where
  eventCount : UInt64
  typeMask : TypeMask
  poisoned : Bool
  sent : List Event

/-- A call on the bus; what an emit draws and reads outside comes with it. -/
inductive Call
  | emit (taskIri eventType sourceAgentIri payload : String) (priority : EventPriority)
      (eventId : String) (timestamp : ℤ)
  | registerType (typeName : String)
  | getCombinedMask (types : List String)
  | matchEvent (subscription : Subscription) (event : Event)
  deriving DecidableEq

inductive Answer
  | eventId (id : String)
  | mask (mask : BitVec 64)
  | matched (b : Bool)
  | panicked
  deriving DecidableEq

namespace EventBus

def new : EventBus := ⟨0, .new, false, []⟩

/-- The registry under its lock. -/
def getOrCreateMask (bus : EventBus) (typeName : String) : Option (BitVec 64) × EventBus :=
  if bus.poisoned then (none, bus)
  else
    match bus.typeMask.getOrCreateMask typeName with
    | some (mask, typeMask) => (some mask, { bus with typeMask })
    -- The guard is dropped by the panic.
    | none => (none, { bus with poisoned := true })

def emitWithPriority (taskIri eventType sourceAgentIri payload : String) (priority : EventPriority)
    (eventId : String) (timestamp : ℤ) (bus : EventBus) : Answer × EventBus :=
  let sequence := bus.eventCount
  let (mask, bus) := { bus with eventCount := bus.eventCount + 1 }.getOrCreateMask eventType
  match mask with
  | none => (.panicked, bus)
  | some typeMask =>
    let event : Event :=
      { eventId, taskIri, eventType, sourceAgentIri, payload, payloadJsonLd := payload, timestamp,
        sequence, typeMask, priority }
    (.eventId eventId, { bus with sent := bus.sent ++ [event] })

def registerType (typeName : String) (bus : EventBus) : Answer × EventBus :=
  let (mask, bus) := bus.getOrCreateMask typeName
  (mask.elim .panicked .mask, bus)

def getCombinedMask (types : List String) (bus : EventBus) : Answer × EventBus :=
  if bus.poisoned then (.panicked, bus) else (.mask (bus.typeMask.combineMasks types), bus)

def step (fromStr : String → Option Value) (bus : EventBus) : Call → Answer × EventBus
  | .emit taskIri eventType sourceAgentIri payload priority eventId timestamp =>
    bus.emitWithPriority taskIri eventType sourceAgentIri payload priority eventId timestamp
  | .registerType typeName => bus.registerType typeName
  | .getCombinedMask types => bus.getCombinedMask types
  | .matchEvent subscription event => (.matched (subscription.matchesEvent fromStr event), bus)

/-- A new bus after calls. -/
def after (fromStr : String → Option Value) (calls : List Call) : EventBus :=
  calls.foldl (fun bus call => (bus.step fromStr call).2) new

end EventBus

/-! ### Names in the order of registration -/

/-- The name that a call registers. -/
def Call.typeName : Call → Option String
  | emit _ eventType _ _ _ _ _ => some eventType
  | registerType typeName => some typeName
  | _ => none

/-- A name behind those that are there, if it is new. -/
def addName (names : List String) (name : String) : List String := if name ∈ names then names else names ++ [name]

/-- The names that calls register, in the order of their first occurrence. -/
def namesOf (calls : List Call) : List String := (calls.filterMap Call.typeName).foldl addName []

theorem addName_self (names : List String) (name : String) : name ∈ addName names name := by
  unfold addName
  split_ifs with h
  · exact h
  · simp

variable {name : String} {names : List String}

theorem mem_foldl_addName (more : List String) : name ∈ more.foldl addName names ↔ name ∈ names ∨ name ∈ more := by
  induction more generalizing names with
  | nil => simp
  | cons first more ih =>
    rw [foldl_cons, ih]
    unfold addName
    split_ifs with h
    · simp only [mem_cons]
      constructor
      · rintro (h | h)
        · exact .inl h
        · exact .inr (.inr h)
      · rintro (h | rfl | h)
        · exact .inl h
        · exact .inl ‹_›
        · exact .inr h
    · simp only [mem_append, mem_cons, not_mem_nil, or_false, or_assoc]

theorem nodup_foldl_addName (h : names.Nodup) (more : List String) : (more.foldl addName names).Nodup := by
  induction more generalizing names with
  | nil => exact h
  | cons first more ih =>
    refine ih ?_
    unfold addName
    split_ifs with hfirst
    · exact h
    · refine nodup_append.2 ⟨h, nodup_singleton _, ?_⟩
      rintro a ha b hb rfl
      exact hfirst (mem_singleton.1 hb ▸ ha)

theorem prefix_foldl_addName (names more : List String) : names <+: more.foldl addName names := by
  induction more generalizing names with
  | nil => exact prefix_refl names
  | cons first more ih =>
    refine List.IsPrefix.trans ?_ (ih (addName names first))
    unfold addName
    split_ifs
    · exact prefix_refl names
    · exact prefix_append names [first]

variable {calls : List Call}

theorem mem_namesOf : name ∈ namesOf calls ↔ name ∈ calls.filterMap Call.typeName := by
  unfold namesOf
  rw [mem_foldl_addName]
  simp

theorem nodup_namesOf (calls : List Call) : (namesOf calls).Nodup := nodup_foldl_addName nodup_nil _

theorem namesOf_append (before later : List Call) :
    namesOf (before ++ later) = (later.filterMap Call.typeName).foldl addName (namesOf before) := by
  unfold namesOf
  rw [filterMap_append, foldl_append]

theorem namesOf_isPrefix_append (before later : List Call) : namesOf before <+: namesOf (before ++ later) := by
  rw [namesOf_append]
  exact prefix_foldl_addName _ _

/-- Their number is that of the distinct names. -/
theorem length_namesOf (calls : List Call) : (namesOf calls).length = (calls.filterMap Call.typeName).dedup.length := by
  refine Perm.length_eq ((perm_ext_iff_of_nodup (nodup_namesOf calls) (nodup_dedup _)).2 fun name => ?_)
  rw [mem_namesOf, mem_dedup]

/-! ### The invariant -/

/-- The bit of a name is its place among the names. -/
structure TypeMask.Assigned (tm : TypeMask) (names : List String) : Prop where
  nextBit_eq : tm.nextBit = names.length
  lookup_eq : ∀ name, tm.masks.lookup name = if name ∈ names then some (BitVec.twoPow 64 (names.idxOf name)) else none

namespace TypeMask.Assigned

variable {tm : TypeMask} {names : List String}

theorem new : TypeMask.new.Assigned [] := ⟨rfl, fun name => by simp [TypeMask.new]⟩

theorem getOrCreateMask_of_mem (h : tm.Assigned names) (hname : name ∈ names) :
    tm.getOrCreateMask name = some (BitVec.twoPow 64 (names.idxOf name), tm) := by
  unfold TypeMask.getOrCreateMask
  rw [h.lookup_eq, if_pos hname]

theorem getOrCreateMask_of_full (h : tm.Assigned names) (hname : name ∉ names)
    (hfull : 64 ≤ names.length) : tm.getOrCreateMask name = none := by
  unfold TypeMask.getOrCreateMask
  rw [h.lookup_eq, if_neg hname, h.nextBit_eq]
  simp only
  rw [if_pos hfull]

theorem exists_getOrCreateMask (h : tm.Assigned names) (hname : name ∉ names) (hroom : names.length < 64) :
    ∃ tm', tm.getOrCreateMask name = some (BitVec.twoPow 64 names.length, tm') ∧ tm'.Assigned (names ++ [name]) := by
  refine ⟨⟨tm.masks.insert name (BitVec.twoPow 64 names.length), names.length + 1⟩, ?_, ?_, ?_⟩
  · unfold TypeMask.getOrCreateMask
    rw [h.lookup_eq, if_neg hname, h.nextBit_eq]
    simp only
    rw [if_neg (by omega), BitVec.twoPow_eq]
  · simp
  · intro name'
    by_cases heq : name' = name
    · subst heq
      rw [AList.lookup_insert, if_pos (by simp), idxOf_append_of_notMem hname]
      simp
    · rw [AList.lookup_insert_ne heq, h.lookup_eq]
      by_cases hmem : name' ∈ names
      · rw [if_pos hmem, if_pos (mem_append_left _ hmem), idxOf_append_of_mem hmem]
      · rw [if_neg hmem, if_neg (by simp [hmem, heq])]

end TypeMask.Assigned

/-- **The invariant** of a bus that has registered names: a sent event has the bit of its type. -/
structure EventBus.Running (bus : EventBus) (names : List String) : Prop where
  unpoisoned : bus.poisoned = false
  assigned : bus.typeMask.Assigned names
  sent : ∀ event ∈ bus.sent, event.eventType ∈ names ∧ event.typeMask = BitVec.twoPow 64 (names.idxOf event.eventType)

namespace EventBus

variable {fromStr : String → Option Value} {bus : EventBus} {names : List String}

theorem Running.new : EventBus.new.Running [] := ⟨rfl, .new, fun _ h => (nomatch h)⟩

/-- A name that is there, or that finds room. -/
theorem Running.exists_getOrCreateMask (h : bus.Running names) (hroom : (addName names name).length ≤ 64) : ∃ bus',
      bus.getOrCreateMask name = (some (BitVec.twoPow 64 ((addName names name).idxOf name)), bus') ∧
        bus'.Running (addName names name) := by
  unfold EventBus.getOrCreateMask
  rw [if_neg (by simp [h.unpoisoned])]
  unfold addName at hroom ⊢
  by_cases hname : name ∈ names
  · simp only [if_pos hname]
    refine ⟨bus, ?_, h⟩
    simp [h.assigned.getOrCreateMask_of_mem hname]
  · simp only [if_neg hname] at hroom ⊢
    rw [length_append, length_singleton] at hroom
    obtain ⟨tm, htm, hassigned⟩ := h.assigned.exists_getOrCreateMask hname (by omega)
    refine ⟨{ bus with typeMask := tm }, ?_, h.unpoisoned, hassigned, fun event hevent => ?_⟩
    · rw [idxOf_append_of_notMem hname]
      simp [htm]
    · obtain ⟨hmem, hmask⟩ := h.sent event hevent
      exact ⟨mem_append_left _ hmem, by rw [idxOf_append_of_mem hmem, hmask]⟩

/-- The names after a call. -/
def namesAfter (names : List String) (call : Call) : List String := call.typeName.elim names (addName names)

/-- **A call with room for its name** is answered, and keeps the invariant. -/
theorem Running.step (h : bus.Running names) {call : Call} (hroom : (namesAfter names call).length ≤ 64) :
    (bus.step fromStr call).1 ≠ .panicked ∧ (bus.step fromStr call).2.Running (namesAfter names call) := by
  cases call with
  | emit taskIri eventType sourceAgentIri payload priority eventId timestamp =>
    have hcounted : { bus with eventCount := bus.eventCount + 1 }.Running names := ⟨h.unpoisoned, h.assigned, h.sent⟩
    obtain ⟨bus', hmask, hrunning⟩ := hcounted.exists_getOrCreateMask hroom
    simp only [EventBus.step, emitWithPriority, hmask]
    refine ⟨by simp, hrunning.unpoisoned, hrunning.assigned, fun event hevent => ?_⟩
    rcases mem_append.1 hevent with hevent | hevent
    · exact hrunning.sent event hevent
    · obtain rfl := mem_singleton.1 hevent
      exact ⟨by simp [namesAfter, Call.typeName, addName_self], rfl⟩
  | registerType typeName =>
    obtain ⟨bus', hmask, hrunning⟩ := h.exists_getOrCreateMask hroom
    simp only [EventBus.step, registerType, hmask]
    exact ⟨by simp, hrunning⟩
  | getCombinedMask types =>
    simp only [EventBus.step, getCombinedMask, h.unpoisoned]
    exact ⟨by simp, h⟩
  | matchEvent subscription event => exact ⟨by simp [EventBus.step], h⟩

theorem after_append (before : List Call) (call : Call) :
    after fromStr (before ++ [call]) = ((after fromStr before).step fromStr call).2 := by
  unfold after
  rw [foldl_append]
  rfl

theorem namesOf_concat (before : List Call) (call : Call) :
    namesOf (before ++ [call]) = namesAfter (namesOf before) call := by
  rw [namesOf_append]
  unfold namesAfter
  cases h : call.typeName <;> simp [h]

theorem running_after (fromStr : String → Option Value)
    (h : (namesOf calls).length ≤ 64) : (after fromStr calls).Running (namesOf calls) := by
  induction calls using reverseRecOn with
  | nil => exact .new
  | append_singleton calls call ih =>
    have hbefore := (namesOf_isPrefix_append calls [call]).length_le.trans h
    rw [after_append, namesOf_concat]
    rw [namesOf_concat] at h
    exact ((ih hbefore).step h).2

/-- **The 65th name panics**, and no call before it. -/
theorem panics_iff (fromStr : String → Option Value) (calls : List Call) :
    (∃ before call later, calls = before ++ call :: later ∧ ((after fromStr before).step fromStr call).1 = .panicked) ↔
      64 < (calls.filterMap Call.typeName).dedup.length := by
  rw [← length_namesOf]
  constructor
  · rintro ⟨before, call, later, rfl, hpanicked⟩
    by_contra hroom
    have hsplit : before ++ call :: later = (before ++ [call]) ++ later := by simp
    rw [hsplit] at hroom
    have hcall := (namesOf_isPrefix_append (before ++ [call]) later).length_le.trans (not_lt.1 hroom)
    have hbefore := (namesOf_isPrefix_append before [call]).length_le.trans hcall
    rw [namesOf_concat] at hcall
    exact ((running_after fromStr hbefore).step hcall).1 hpanicked
  · intro hmany
    -- The first call that has no room for its name.
    induction calls using reverseRecOn with
    | nil => simp [namesOf] at hmany
    | append_singleton calls call ih =>
      by_cases hbefore : 64 < (namesOf calls).length
      · obtain ⟨before, call', later, rfl, hpanicked⟩ := ih hbefore
        exact ⟨before, call', later ++ [call], by simp, hpanicked⟩
      · refine ⟨calls, call, [], rfl, ?_⟩
        have hrunning := running_after fromStr (not_lt.1 hbefore)
        rw [namesOf_concat] at hmany
        have hnew : ∃ name, call.typeName = some name ∧ name ∉ namesOf calls ∧ 64 ≤ (namesOf calls).length := by
          unfold namesAfter at hmany
          cases hname : call.typeName with
          | none =>
            rw [hname] at hmany
            exact absurd hmany hbefore
          | some name =>
            rw [hname] at hmany
            simp only [Option.elim_some, addName] at hmany
            split_ifs at hmany with hmem
            · exact absurd hmany hbefore
            · rw [length_append, length_singleton] at hmany
              exact ⟨name, rfl, hmem, by omega⟩
        obtain ⟨name, hname, hmem, hfull⟩ := hnew
        have hnone := hrunning.assigned.getOrCreateMask_of_full hmem hfull
        cases call with
        | emit taskIri eventType sourceAgentIri payload priority eventId timestamp =>
          cases hname
          simp [EventBus.step, emitWithPriority, EventBus.getOrCreateMask, hrunning.unpoisoned, hnone]
        | registerType typeName =>
          cases hname
          simp [EventBus.step, registerType, EventBus.getOrCreateMask, hrunning.unpoisoned, hnone]
        | getCombinedMask types => cases hname
        | matchEvent subscription event => cases hname

/-! ### Routing -/

/-- What calls on a bus promise to its users. -/
structure Usable (fromStr : String → Option Value) (calls : List Call) : Prop where
  answered : ∀ before call later, calls = before ++ call :: later →
    ((after fromStr before).step fromStr call).1 ≠ .panicked
  unpoisoned : ∀ before later, calls = before ++ later → (after fromStr before).poisoned = false
  nonzero : ∀ name mask, (after fromStr calls).typeMask.masks.lookup name = some mask → mask ≠ 0
  disjoint : ∀ name name' mask mask', name ≠ name' → (after fromStr calls).typeMask.masks.lookup name = some mask →
    (after fromStr calls).typeMask.masks.lookup name' = some mask' → mask &&& mask' = 0
  stable : ∀ before later, calls = before ++ later → ∀ name mask,
    (after fromStr before).typeMask.masks.lookup name = some mask →
    (after fromStr calls).typeMask.masks.lookup name = some mask

/-- A subscription to types that are registered matches the events of these types, of all that are
sent. -/
def RoutesTo (fromStr : String → Option Value) (calls : List Call) (types : List String) : Prop :=
  ∀ before later, calls = before ++ later →
    (∀ name ∈ types, ((after fromStr before).typeMask.masks.lookup name).isSome = true) →
    ∀ event ∈ (after fromStr calls).sent, ∀ subscriberId,
      ((Subscription.new subscriberId).withTypeMask
          ((after fromStr before).typeMask.combineMasks types)).matchesEvent fromStr event = true ↔
        event.eventType ∈ types

theorem matchesEvent_withTypeMask (subscriberId : String) (mask : BitVec 64) (event : Event) :
    ((Subscription.new subscriberId).withTypeMask mask).matchesEvent fromStr event =
      !(mask ≠ 0 && event.typeMask &&& mask = 0) := by
  by_cases hmask : mask = 0#64
  · subst hmask
    simp [Subscription.matchesEvent, Subscription.new, Subscription.withTypeMask]
  · by_cases hcommon : event.typeMask &&& mask = 0#64 <;>
      simp [Subscription.matchesEvent, Subscription.new, Subscription.withTypeMask, hmask, hcommon]

/-- Without types there is no mask, and an event is not filtered. -/
theorem matchesEvent_nil (tm : TypeMask) (subscriberId : String) (event : Event) :
    ((Subscription.new subscriberId).withTypeMask (tm.combineMasks [])).matchesEvent fromStr event = true := by
  rw [matchesEvent_withTypeMask]
  simp [TypeMask.combineMasks]

variable {types : List String}

theorem combineMasks_eq {tm : TypeMask} (h : tm.Assigned names) (htypes : ∀ name ∈ types, name ∈ names) :
    tm.combineMasks types = union ((types.map names.idxOf).map (BitVec.twoPow 64)) := by
  unfold TypeMask.combineMasks union
  congr 1
  induction types with
  | nil => rfl
  | cons name types ih =>
    rw [filterMap_cons, h.lookup_eq, if_pos (htypes name mem_cons_self)]
    simp only [map_cons, cons.injEq, true_and]
    exact ih fun name hname => htypes name (mem_cons_of_mem _ hname)

theorem idxOf_of_isPrefix_left {before names : List String} (h : before <+: names)
    (hname : name ∈ before) : names.idxOf name = before.idxOf name := by
  obtain ⟨more, rfl⟩ := h
  exact idxOf_append_of_mem hname

theorem routesTo_after (fromStr : String → Option Value) (h : (namesOf calls).length ≤ 64) (htypes : types ≠ []) :
    RoutesTo fromStr calls types := by
  rintro before later rfl hregistered event hevent subscriberId
  have hearlier := namesOf_isPrefix_append before later
  have hbefore := running_after fromStr (hearlier.length_le.trans h)
  have hrunning := running_after fromStr h
  obtain ⟨hmem, hmask⟩ := hrunning.sent event hevent
  have hin : ∀ name ∈ types, name ∈ namesOf before := by
    intro name hname
    by_contra hnot
    have hsome := hregistered name hname
    rw [hbefore.assigned.lookup_eq, if_neg hnot] at hsome
    cases hsome
  have hidx : types.map (namesOf before).idxOf = types.map (namesOf (before ++ later)).idxOf :=
    map_congr_left fun name hname => (idxOf_of_isPrefix_left hearlier (hin name hname)).symm
  have hlt : (namesOf (before ++ later)).idxOf event.eventType < 64 := (idxOf_lt_length_of_mem hmem).trans_le h
  rw [matchesEvent_withTypeMask, combineMasks_eq hbefore.assigned hin, hidx, hmask]
  -- The mask has the bit of a first type.
  have hne : union ((types.map (namesOf (before ++ later)).idxOf).map (BitVec.twoPow 64)) ≠ 0 := by
    obtain ⟨name, hname⟩ := exists_mem_of_ne_nil types htypes
    intro hzero
    have hbit := twoPow_and_union (types.map (namesOf (before ++ later)).idxOf)
      ((idxOf_lt_length_of_mem (hearlier.subset (hin name hname))).trans_le h)
    rw [hzero] at hbit
    exact hbit.1 BitVec.and_zero (mem_map_of_mem hname)
  have hboth := twoPow_and_union (types.map (namesOf (before ++ later)).idxOf) hlt
  have hsame : (namesOf (before ++ later)).idxOf event.eventType ∈
      types.map (namesOf (before ++ later)).idxOf ↔ event.eventType ∈ types := by
    constructor
    · intro hidx
      obtain ⟨name, hname, heq⟩ := mem_map.1 hidx
      rwa [← (idxOf_inj (hearlier.subset (hin name hname))).1 heq]
    · exact fun htype => mem_map_of_mem htype
  simp only [ne_eq, hne, not_false_eq_true, decide_true, Bool.true_and, Bool.not_eq_true',
    decide_eq_false_iff_not, hboth, not_not, hsame]

theorem usable_after (fromStr : String → Option Value) (h : (namesOf calls).length ≤ 64) : Usable fromStr calls := by
  have hrunning := running_after fromStr h
  have hmask : ∀ name mask, (after fromStr calls).typeMask.masks.lookup name = some mask →
      name ∈ namesOf calls ∧ mask = BitVec.twoPow 64 ((namesOf calls).idxOf name) := by
    intro name mask hlookup
    rw [hrunning.assigned.lookup_eq] at hlookup
    split_ifs at hlookup with hmem
    exact ⟨hmem, (Option.some.inj hlookup).symm⟩
  refine ⟨?_, ?_, ?_, ?_, ?_⟩
  · rintro before call later rfl hpanicked
    have hmany := (panics_iff fromStr _).1 ⟨before, call, later, rfl, hpanicked⟩
    rw [← length_namesOf] at hmany
    omega
  · rintro before later rfl
    exact (running_after fromStr ((namesOf_isPrefix_append before later).length_le.trans h)).unpoisoned
  · intro name mask hlookup
    obtain ⟨hmem, rfl⟩ := hmask name mask hlookup
    exact twoPow_ne_zero ((idxOf_lt_length_of_mem hmem).trans_le h)
  · intro name name' mask mask' hne hlookup hlookup'
    obtain ⟨hmem, rfl⟩ := hmask name mask hlookup
    obtain ⟨-, rfl⟩ := hmask name' mask' hlookup'
    exact twoPow_and_twoPow fun heq => hne ((idxOf_inj hmem).1 heq)
  · rintro before later rfl name mask hlookup
    have hearlier := namesOf_isPrefix_append before later
    have hbefore := running_after fromStr (hearlier.length_le.trans h)
    rw [hbefore.assigned.lookup_eq] at hlookup
    split_ifs at hlookup with hmem
    rw [hrunning.assigned.lookup_eq, if_pos (hearlier.subset hmem), idxOf_of_isPrefix_left hearlier hmem, hlookup]

/-- **Usable, and routing exactly**, below 65 names; a subscription without types is not filtered. -/
theorem routesExactly_after (fromStr : String → Option Value) {calls : List Call}
    (h : (calls.filterMap Call.typeName).dedup.length ≤ 64) :
    Usable fromStr calls ∧ (∀ types, types ≠ [] → RoutesTo fromStr calls types) ∧
      ∀ before later, calls = before ++ later → ∀ subscriberId event,
        ((Subscription.new subscriberId).withTypeMask
            ((after fromStr before).typeMask.combineMasks [])).matchesEvent fromStr event = true := by
  rw [← length_namesOf] at h
  exact ⟨usable_after fromStr h, fun types htypes => routesTo_after fromStr h htypes,
    fun before later _ subscriberId event => matchesEvent_nil _ subscriberId event⟩

/-- An event of a type. -/
def emitOf (eventType : String) : Call := .emit "iri://task_1" eventType "SA" "{}" .normal "evt_1" 0

theorem routesExactly_after_three : Usable (fun _ => none) (["TASK_CREATED", "THOUGHT", "TASK_CREATED"].map emitOf) ∧
      (∀ types, types ≠ [] → RoutesTo (fun _ => none) (["TASK_CREATED", "THOUGHT", "TASK_CREATED"].map emitOf) types) ∧
      ∀ before later, ["TASK_CREATED", "THOUGHT", "TASK_CREATED"].map emitOf = before ++ later →
        ∀ subscriberId event, ((Subscription.new subscriberId).withTypeMask
          ((after (fun _ => none) before).typeMask.combineMasks [])).matchesEvent (fun _ => none)
            event = true :=
  routesExactly_after _ (by decide +kernel)

/-- 65 custom types. -/
def customTypes : List Call := (List.range 65).map fun i => emitOf (toString i)

/-- The last of 65 custom types panics, and a subscription to no types gets an event. -/
theorem not_usable_customTypes :
    ¬Usable (fun _ => none) customTypes ∧ ¬RoutesTo (fun _ => none) [emitOf "THOUGHT"] [] := by
  constructor
  · intro h
    refine h.answered (customTypes.take 64) (emitOf "64") [] (by decide +kernel) ?_
    decide +kernel
  · intro h
    obtain ⟨event, hevent⟩ : ∃ event, (after (fun _ => none) [emitOf "THOUGHT"]).sent = [event] := ⟨_, rfl⟩
    have hmatches := (h [] _ rfl (by simp) event (by rw [hevent]; exact mem_singleton_self _)
      "sub").1 (matchesEvent_nil _ _ _)
    cases hmatches

end EventBus

end WildAgentOs.Core
