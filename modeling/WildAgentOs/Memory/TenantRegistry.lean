import WildAgentOs.Lib.Interleaving
import WildAgentOs.Lib.Postings

/-!
# The registry of tenant databases

`TenantL0Registry` in `memory/l0_store.rs`: callers of `get_or_open`, runs that hold a handle, and leases
that are dropped, as threads over the map of slots.  A thread takes one step at a time between two
locks.  Slots and open databases go by their numbers, and a strong count is the number of the owners: of
a slot the map and the callers that hold it, of a database the slots that are left and the holders.

* `Pc.next`, `step`, `run`: the critical sections;
* `OneOpenDatabase`, `Orphans`;
* `oneOpenDatabase_run`: nothing else goes wrong.
-/

namespace WildAgentOs.Memory

open Interleaving List Function

namespace TenantL0

/-- `TenantSlot`: the number of its database, and whether its lock is taken. -/
structure TenantSlot where
  store : Option ℕ
  opening : Bool

/-- `TenantL0Registry`, with all slots that were ever made, and the paths of the databases that were ever
opened. -/
structure TenantL0Registry (Path : Type) where
  maxHandles : ℕ
  handles : AList fun _ : Path => ℕ
  created : ℕ
  slots : ℕ → TenantSlot
  databases : List Path

/-- Where a thread is.  With `locked` it has the lock of its slot. -/
inductive Pc (Path : Type)
  /-- `get_or_open`. -/
  | prepare (path : Path)
  /-- `slot.store.get()?` -/
  | check (path : Path) (slot : ℕ) (locked : Bool)
  /-- `clone_open_handle`, with the map locked. -/
  | clone (path : Path) (slot : ℕ) (locked : Bool)
  | lockOpen (path : Path) (slot : ℕ)
  | opening (path : Path) (slot : ℕ)
  | opened (path : Path) (slot handle : ℕ)
  | failed (path : Path) (slot : ℕ)
  /-- After `drop(_open)`. -/
  | removing (path : Path) (slot : ℕ)
  /-- `get_or_open` returns, with a handle or an error. -/
  | leaving (slot : ℕ) (locked : Bool) (handle : Option ℕ)
  /-- A run, with its handle. -/
  | holding (handle : ℕ)
  /-- A `TenantL0Lease`, about to be dropped. -/
  | lease
  | done
  deriving DecidableEq

/-- What a run does with its handle. -/
inductive Use
  | clone
  | drop
  deriving DecidableEq

/-- What a step finds outside: whether the database can be opened, and what a run does. -/
structure Env where
  opens : Bool
  use : Use

namespace Pc

variable {Path : Type}

/-- The slot that a caller holds. -/
def slot? : Pc Path → Option ℕ
  | check _ slot _ | clone _ slot _ | lockOpen _ slot | opening _ slot | opened _ slot _
  | failed _ slot | removing _ slot | leaving slot _ _ => some slot
  | _ => none

/-- The handle that a thread holds. -/
def handle? : Pc Path → Option ℕ
  | opened _ _ handle | holding handle => some handle
  | leaving _ _ handle => handle
  | _ => none

/-- The slot whose lock a thread has. -/
def lock? : Pc Path → Option ℕ
  | check _ slot true | clone _ slot true | opening _ slot | opened _ slot _ | failed _ slot
  | leaving slot true _ => some slot
  | _ => none

/-- A caller that has its slot, and may still open it. -/
def MayOpen (path : Path) (slot : ℕ) : Pc Path → Prop
  | check path' slot' _ | clone path' slot' _ | lockOpen path' slot' | opening path' slot'
  | opened path' slot' _ => path' = path ∧ slot' = slot
  | _ => False

end Pc

variable {Path : Type} [DecidableEq Path]

/-- The threads over the registry. -/
abbrev Threads (Path : Type) := System (TenantL0Registry Path) (Pc Path)

/-- `Arc::strong_count` of a slot. -/
def slotCount (s : Threads Path) (slot : ℕ) : ℕ :=
  s.shared.handles.entries.countP (·.2 = slot) + s.threads.countP (·.slot? = some slot)

/-- `Arc::strong_count` of a handle: slots that no one holds any more have dropped theirs. -/
def handleCount (s : Threads Path) (handle : ℕ) : ℕ :=
  (List.range s.shared.created).countP (fun slot =>
      (s.shared.slots slot).store = some handle ∧ 0 < slotCount s slot) +
    s.threads.countP (·.handle? = some handle)

/-- `evict_idle_slots` keeps a slot. -/
def keeps (s : Threads Path) (slot : ℕ) : Bool :=
  if 1 < slotCount s slot then true
  else
    match (s.shared.slots slot).store with
    | some handle => 1 < handleCount s handle
    | none => false

/-- `evict_idle_slots`.  The eviction of a slot changes the counts of no other. -/
def evictIdleSlots (s : Threads Path) : TenantL0Registry Path :=
  { s.shared with
    handles := s.shared.handles.filterMapValues fun slot => if keeps s slot then some slot else none }

/-- A new slot. -/
def insertSlot (registry : TenantL0Registry Path) (path : Path) : TenantL0Registry Path :=
  { registry with
    handles := registry.handles.insert path registry.created
    created := registry.created + 1
    slots := update registry.slots registry.created ⟨none, false⟩ }

def prepareSlot (s : Threads Path) (path : Path) : Option ℕ × TenantL0Registry Path :=
  match s.shared.handles.lookup path with
  | some slot => (some slot, s.shared)
  | none =>
    let registry := evictIdleSlots s
    if registry.maxHandles ≤ registry.handles.entries.length then (none, registry)
    else (some registry.created, insertSlot registry path)

/-- The lock of a slot is taken, or given back. -/
def setOpening (registry : TenantL0Registry Path) (slot : ℕ) (opening : Bool) : TenantL0Registry Path :=
  { registry with
    slots := update registry.slots slot { registry.slots slot with opening } }

/-- `slot.store.set`: the first one stays. -/
def setStore (registry : TenantL0Registry Path) (slot handle : ℕ) : TenantL0Registry Path :=
  { registry with
    slots := update registry.slots slot
      { registry.slots slot with store := (registry.slots slot).store.or (some handle) } }

/-- The removal of a slot after a failed open. -/
def removeSlot (registry : TenantL0Registry Path) (path : Path) (slot : ℕ) : TenantL0Registry Path :=
  if registry.handles.lookup path = some slot ∧ (registry.slots slot).store = none then
    { registry with handles := registry.handles.erase path }
  else registry

/-- One step of a thread. -/
def Pc.next (env : Env) (s : Threads Path) : Pc Path → Move (TenantL0Registry Path) (Pc Path)
  | .prepare path =>
    match prepareSlot s path with
    | (some slot, registry) => ⟨registry, .check path slot false, []⟩
    | (none, registry) => ⟨registry, .done, []⟩
  | .check path slot locked =>
    match (s.shared.slots slot).store, locked with
    | some _, locked => ⟨s.shared, .clone path slot locked, []⟩
    | none, false => ⟨s.shared, .lockOpen path slot, []⟩
    | none, true => ⟨s.shared, .opening path slot, []⟩
  | .clone path slot locked =>
    match (s.shared.slots slot).store, locked with
    | some handle, locked => ⟨s.shared, .leaving slot locked (some handle), []⟩
    | none, false => ⟨s.shared, .lockOpen path slot, []⟩
    | none, true => ⟨s.shared, .opening path slot, []⟩
  | .lockOpen path slot =>
    if (s.shared.slots slot).opening then ⟨s.shared, .lockOpen path slot, []⟩
    else ⟨setOpening s.shared slot true, .check path slot true, []⟩
  | .opening path slot =>
    if env.opens then
      ⟨{ s.shared with databases := s.shared.databases ++ [path] }, .opened path slot s.shared.databases.length, []⟩
    else ⟨s.shared, .failed path slot, []⟩
  | .opened _ slot handle =>
    ⟨setStore s.shared slot handle, .leaving slot true (some handle), []⟩
  | .failed path slot => ⟨setOpening s.shared slot false, .removing path slot, []⟩
  | .removing path slot => ⟨removeSlot s.shared path slot, .leaving slot false none, []⟩
  | .leaving slot true handle => ⟨setOpening s.shared slot false, .leaving slot false handle, []⟩
  | .leaving _ false (some handle) => ⟨s.shared, .holding handle, []⟩
  | .leaving _ false none => ⟨s.shared, .done, []⟩
  | .holding handle =>
    match env.use with
    | .clone => ⟨s.shared, .holding handle, [.holding handle]⟩
    | .drop => ⟨s.shared, .done, []⟩
  -- `release_idle`
  | .lease => ⟨evictIdleSlots s, .done, []⟩
  | .done => ⟨s.shared, .done, []⟩

def step (s : Threads Path) (turn : ℕ × Env) : Threads Path :=
  match s.threads[turn.1]? with
  | none => s
  | some pc => s.advance turn.1 (pc.next turn.2 s)

/-- `with_handle_limit`, with the callers and the leases that there will be. -/
def start (maxHandles : ℕ) (threads : List (Pc Path)) : Threads Path where
  shared :=
    { maxHandles := max maxHandles 1
      handles := ∅
      created := 0
      slots := fun _ => ⟨none, false⟩
      databases := [] }
  threads

def run (s : Threads Path) (schedule : List (ℕ × Env)) : Threads Path := schedule.foldl step s

/-! ### One open database -/

/-- The map or a caller holds the slot. -/
def HasSlot (s : Threads Path) (slot : ℕ) : Prop :=
  (∃ path, s.shared.handles.lookup path = some slot) ∨ ∃ pc ∈ s.threads, pc.slot? = some slot

/-- A thread or a slot holds the handle. -/
def Live (s : Threads Path) (handle : ℕ) : Prop :=
  (∃ pc ∈ s.threads, pc.handle? = some handle) ∨ ∃ slot, HasSlot s slot ∧ (s.shared.slots slot).store = some handle

/-- No caller is about to open a database that has a live handle, the live handles of a path are one,
and the slots stay within their bound. -/
structure OneOpenDatabase (s : Threads Path) : Prop where
  not_reopened : ∀ path slot, .opening path slot ∈ s.threads →
    ∀ handle, Live s handle → s.shared.databases[handle]? ≠ some path
  same_handle : ∀ path handle handle', Live s handle → Live s handle' →
    s.shared.databases[handle]? = some path → s.shared.databases[handle']? = some path →
    handle = handle'
  bounded : s.shared.handles.entries.length ≤ s.shared.maxHandles

/-- A failed open is about to remove the slot of its path while another caller may still open it. -/
def Orphans (s : Threads Path) (i : ℕ) : Prop :=
  ∃ path slot, s.threads[i]? = some (.removing path slot) ∧
    s.shared.handles.lookup path = some slot ∧ (s.shared.slots slot).store = none ∧
    ∃ pc ∈ s.threads, pc.MayOpen path slot

/-! ### The invariant -/

/-- The slot that a thread is opening, with its lock. -/
def Pc.opens? : Pc Path → Option ℕ
  | opening _ slot | opened _ slot _ | failed _ slot => some slot
  | _ => none

/-- A caller that has opened the database of its slot, and has not stored it yet. -/
def Pc.Publishes : Pc Path → Prop
  | opened _ _ _ => True
  | _ => False

variable {slot : ℕ}

omit [DecidableEq Path] in
theorem Pc.lock?_of_opens? {pc : Pc Path} (h : pc.opens? = some slot) : pc.lock? = some slot := by
  cases pc <;> first | exact h | cases h

omit [DecidableEq Path] in
theorem Pc.slot?_of_lock? {pc : Pc Path} (h : pc.lock? = some slot) : pc.slot? = some slot := by
  cases pc with
  | check path slot' locked => cases locked with
    | true => exact h
    | false => cases h
  | clone path slot' locked => cases locked with
    | true => exact h
    | false => cases h
  | leaving slot' locked handle => cases locked with
    | true => exact h
    | false => cases h
  | _ => first | exact h | cases h

variable {path : Path}

omit [DecidableEq Path] in
theorem Pc.MayOpen.slot? {pc : Pc Path} (h : pc.MayOpen path slot) : pc.slot? = some slot := by
  cases pc <;> first | exact congrArg some h.2 | exact h.elim

/-- What holds of each thread. -/
structure ThreadOk (registry : TenantL0Registry Path) (pc : Pc Path) : Prop where
  slot_lt : ∀ slot, pc.slot? = some slot → slot < registry.created
  mapped : ∀ path slot, pc.MayOpen path slot → registry.handles.lookup path = some slot
  locked : ∀ slot, pc.lock? = some slot → (registry.slots slot).opening = true
  unset : ∀ slot, pc.opens? = some slot → (registry.slots slot).store = none
  opened : ∀ path slot handle, pc = .opened path slot handle → registry.databases[handle]? = some path

/-- A thread without a slot is as it should be. -/
theorem threadOk_of_slot?_eq_none {pc : Pc Path} (registry : TenantL0Registry Path) (h : pc.slot? = none) :
    ThreadOk registry pc := by
  have hnone : ∀ slot, pc.slot? ≠ some slot := fun slot hslot => by
    rw [h] at hslot
    cases hslot
  refine ⟨fun slot hslot => absurd hslot (hnone slot), fun path slot hmay => absurd hmay.slot? (hnone slot),
    fun slot hlock => absurd (Pc.slot?_of_lock? hlock) (hnone slot),
    fun slot hopens => absurd (Pc.slot?_of_lock? (Pc.lock?_of_opens? hopens)) (hnone slot), ?_⟩
  rintro path slot handle rfl
  exact absurd rfl (hnone slot)

/-- The slot of the path of a database stores it, or is about to. -/
def Tracked (s : Threads Path) (handle : ℕ) : Prop :=
  ∃ path slot, s.shared.databases[handle]? = some path ∧ s.shared.handles.lookup path = some slot ∧
    ((s.shared.slots slot).store = some handle ∨ .opened path slot handle ∈ s.threads)

structure Inv (s : Threads Path) : Prop where
  mapped_lt : ∀ path slot, s.shared.handles.lookup path = some slot → slot < s.shared.created
  mapped_inj : ∀ path path' slot, s.shared.handles.lookup path = some slot →
    s.shared.handles.lookup path' = some slot → path = path'
  threads : ∀ pc ∈ s.threads, ThreadOk s.shared pc
  locks : (s.threads.filterMap Pc.lock?).Nodup
  live : ∀ handle, Live s handle → Tracked s handle
  bounded : s.shared.handles.entries.length ≤ s.shared.maxHandles

variable {s : Threads Path}

/-- Only one thread has the lock of a slot. -/
theorem Inv.lock_unique (h : Inv s) {pc pc' : Pc Path} (hpc : pc ∈ s.threads)
    (hpc' : pc' ∈ s.threads) (hlock : pc.lock? = some slot) (hlock' : pc'.lock? = some slot) : pc = pc' := by
  obtain ⟨i, hi⟩ := mem_iff_getElem?.1 hpc
  obtain ⟨j, hj⟩ := mem_iff_getElem?.1 hpc'
  obtain rfl := System.eq_of_nodup_filterMap h.locks hi hj hlock hlock'
  exact Option.some.inj (hi.symm.trans hj)

/-- **What the invariant says.** -/
theorem Inv.oneOpenDatabase (h : Inv s) : OneOpenDatabase s where
  not_reopened path slot hopening handle hlive hpath := by
    obtain ⟨path', slot', hpath', hmapped', htracked⟩ := h.live handle hlive
    obtain rfl := Option.some.inj (hpath.symm.trans hpath')
    have hok := h.threads _ hopening
    have hmapped := hok.mapped path slot ⟨rfl, rfl⟩
    obtain rfl := Option.some.inj (hmapped.symm.trans hmapped')
    rcases htracked with hstore | hopened
    · rw [hok.unset slot rfl] at hstore
      cases hstore
    · cases h.lock_unique hopening hopened rfl rfl
  same_handle path handle handle' hlive hlive' hpath hpath' := by
    obtain ⟨_, slot, hpath₁, hmapped, htracked⟩ := h.live handle hlive
    obtain ⟨_, slot', hpath₁', hmapped', htracked'⟩ := h.live handle' hlive'
    obtain rfl := Option.some.inj (hpath.symm.trans hpath₁)
    obtain rfl := Option.some.inj (hpath'.symm.trans hpath₁')
    obtain rfl := Option.some.inj (hmapped.symm.trans hmapped')
    rcases htracked with hstore | hopened
    · rcases htracked' with hstore' | hopened'
      · exact Option.some.inj (hstore.symm.trans hstore')
      · rw [(h.threads _ hopened').unset slot rfl] at hstore
        cases hstore
    · rcases htracked' with hstore' | hopened'
      · rw [(h.threads _ hopened).unset slot rfl] at hstore'
        cases hstore'
      · exact (Pc.opened.inj (h.lock_unique hopened hopened' rfl rfl)).2.2
  bounded := h.bounded

/-! ### Steps -/

/-- The registry is the same, but for the locks of its slots. -/
structure SameButLocks (registry registry' : TenantL0Registry Path) : Prop where
  maxHandles : registry'.maxHandles = registry.maxHandles
  handles : registry'.handles = registry.handles
  created : registry'.created = registry.created
  databases : registry'.databases = registry.databases
  store : ∀ slot, (registry'.slots slot).store = (registry.slots slot).store

omit [DecidableEq Path] in
theorem SameButLocks.refl (registry : TenantL0Registry Path) : SameButLocks registry registry :=
  ⟨rfl, rfl, rfl, rfl, fun _ => rfl⟩

omit [DecidableEq Path] in
theorem sameButLocks_setOpening (registry : TenantL0Registry Path) (slot : ℕ) (opening : Bool) :
    SameButLocks registry (setOpening registry slot opening) := by
  refine ⟨rfl, rfl, rfl, rfl, fun slot' => ?_⟩
  unfold setOpening
  simp only [update_apply]
  split_ifs with heq
  · rw [heq]
  · rfl

omit [DecidableEq Path] in
theorem opening_setOpening (registry : TenantL0Registry Path) (slot slot' : ℕ) (opening : Bool) :
    ((setOpening registry slot opening).slots slot').opening =
      if slot' = slot then opening else (registry.slots slot').opening := by
  unfold setOpening
  simp only [update_apply]
  split_ifs <;> rfl

variable {s : Threads Path} {i : ℕ} {pc : Pc Path} {handle : ℕ}

/-- A handle that is live after a step was so before, or the thread has it. -/
theorem live_of_advance {move : Move (TenantL0Registry Path) (Pc Path)}
    (hhandles : ∀ path slot, move.shared.handles.lookup path = some slot → s.shared.handles.lookup path = some slot)
    (hslot : ∀ u, u = move.thread ∨ u ∈ move.spawned → ∀ slot, u.slot? = some slot → HasSlot s slot)
    (hlive : Live (s.advance i move) handle) :
    (∃ u, (u = move.thread ∨ u ∈ move.spawned) ∧ u.handle? = some handle) ∨ (∃ u ∈ s.threads, u.handle? = some handle) ∨
      ∃ slot, HasSlot s slot ∧ (move.shared.slots slot).store = some handle := by
  rcases hlive with ⟨u, hu, hhandle⟩ | ⟨slot, hhas, hstore⟩
  · rcases System.mem_advance hu with rfl | ⟨j, -, hj⟩ | hu
    · exact .inl ⟨_, .inl rfl, hhandle⟩
    · exact .inr (.inl ⟨u, mem_of_getElem? hj, hhandle⟩)
    · exact .inl ⟨u, .inr hu, hhandle⟩
  · refine .inr (.inr ⟨slot, ?_, hstore⟩)
    rcases hhas with ⟨path, hpath⟩ | ⟨u, hu, hslot'⟩
    · exact .inl ⟨path, hhandles path slot hpath⟩
    · rcases System.mem_advance hu with rfl | ⟨j, -, hj⟩ | hu
      · exact hslot _ (.inl rfl) slot hslot'
      · exact .inr ⟨u, mem_of_getElem? hj, hslot'⟩
      · exact hslot u (.inr hu) slot hslot'

variable {pc' : Pc Path} {registry : TenantL0Registry Path}

/-- The same, if the thread keeps to its slot and spawns none. -/
theorem live_of_moves (hi : s.threads[i]? = some pc) (hlive : Live (s.advance i ⟨registry, pc', []⟩) handle)
    (hhandles : ∀ path slot, registry.handles.lookup path = some slot → s.shared.handles.lookup path = some slot)
    (hslot : ∀ slot, pc'.slot? = some slot → pc.slot? = some slot) :
    pc'.handle? = some handle ∨ (∃ u ∈ s.threads, u.handle? = some handle) ∨
      ∃ slot, HasSlot s slot ∧ (registry.slots slot).store = some handle := by
  have hslots : ∀ u, u = pc' ∨ u ∈ [] → ∀ slot, u.slot? = some slot → HasSlot s slot := by
    rintro u (rfl | hu) slot hu'
    · exact .inr ⟨pc, mem_of_getElem? hi, hslot slot hu'⟩
    · cases hu
  rcases live_of_advance hhandles hslots hlive with ⟨u, hu, hhandle⟩ | hbefore
  · rcases hu with rfl | hu
    · exact .inl hhandle
    · cases hu
  · exact .inr hbefore

/-- **A step that only moves its thread**, and takes or gives back a lock. -/
theorem Inv.quiet (h : Inv s) (hi : s.threads[i]? = some pc) {spawned : List (Pc Path)}
    (hsame : SameButLocks s.shared registry)
    (hopening : ∀ slot, (s.shared.slots slot).opening = true →
      (registry.slots slot).opening = true ∨ pc.lock? = some slot)
    (hok : ThreadOk registry pc')
    (hlock : ∀ slot, pc'.lock? = some slot → pc.lock? = some slot ∨ (s.shared.slots slot).opening = false)
    (hslot : ∀ slot, pc'.slot? = some slot → HasSlot s slot)
    (hhandle : ∀ handle, pc'.handle? = some handle → Live s handle)
    (hopened : ¬pc.Publishes)
    (hspawned : ∀ u ∈ spawned, ∃ handle, u = .holding handle ∧ Live s handle) :
    Inv (s.advance i ⟨registry, pc', spawned⟩) := by
  have hpc := mem_of_getElem? hi
  refine ⟨?_, ?_, ?_, ?_, fun handle hlive => ?_, ?_⟩
  · show ∀ path slot, registry.handles.lookup path = some slot → slot < registry.created
    rw [hsame.handles, hsame.created]
    exact h.mapped_lt
  · show ∀ path path' slot, registry.handles.lookup path = some slot →
      registry.handles.lookup path' = some slot → path = path'
    rw [hsame.handles]
    exact h.mapped_inj
  · refine System.forall_advance h.threads hok ?_ ?_
    · intro u hu
      obtain ⟨handle, rfl, -⟩ := hspawned u hu
      exact threadOk_of_slot?_eq_none _ rfl
    · intro j u hji hj hu
      refine ⟨?_, ?_, ?_, ?_, ?_⟩
      · show ∀ slot, u.slot? = some slot → slot < registry.created
        rw [hsame.created]
        exact hu.slot_lt
      · show ∀ path slot, u.MayOpen path slot → registry.handles.lookup path = some slot
        rw [hsame.handles]
        exact hu.mapped
      · intro slot hulock
        rcases hopening slot (hu.locked slot hulock) with htrue | hpclock
        · exact htrue
        · exact absurd (System.eq_of_nodup_filterMap h.locks hj hi hulock hpclock) hji
      · intro slot huopens
        exact (hsame.store slot).trans (hu.unset slot huopens)
      · show ∀ path slot handle, u = .opened path slot handle → registry.databases[handle]? = some path
        rw [hsame.databases]
        exact hu.opened
  · refine System.nodup_filterMap_advance hi h.locks (fun slot hslot' => ?_) (fun u hu => ?_)
    · rcases hlock slot hslot' with hkept | hfree
      · exact .inl hkept
      · refine .inr fun u hu hulock => ?_
        rw [(h.threads u hu).locked slot hulock] at hfree
        cases hfree
    · obtain ⟨handle, rfl, -⟩ := hspawned u hu
      rfl
  · have hhandles : ∀ path slot, registry.handles.lookup path = some slot →
        s.shared.handles.lookup path = some slot := by
      rw [hsame.handles]
      exact fun _ _ => id
    have hslots : ∀ u, u = pc' ∨ u ∈ spawned → ∀ slot, u.slot? = some slot → HasSlot s slot := by
      rintro u (rfl | hu) slot huslot
      · exact hslot slot huslot
      · obtain ⟨handle', rfl, -⟩ := hspawned u hu
        cases huslot
    have hlive' : Live s handle := by
      rcases live_of_advance hhandles hslots hlive with
        ⟨u, hu, huhandle⟩ | hthread | ⟨slot, hhas, hstore⟩
      · rcases hu with rfl | hu
        · exact hhandle handle huhandle
        · obtain ⟨handle', rfl, hlive'⟩ := hspawned u hu
          cases huhandle
          exact hlive'
      · exact .inl hthread
      · exact .inr ⟨slot, hhas, (hsame.store slot).symm.trans hstore⟩
    obtain ⟨path, slot, hpath, hmapped, htracked⟩ := h.live handle hlive'
    refine ⟨path, slot, ?_, ?_, ?_⟩
    · show registry.databases[handle]? = some path
      rw [hsame.databases]
      exact hpath
    · show registry.handles.lookup path = some slot
      rw [hsame.handles]
      exact hmapped
    · rcases htracked with hstore | hmem
      · exact .inl ((hsame.store slot).trans hstore)
      · refine .inr (System.mem_advance_of_ne hi hmem ?_)
        rintro rfl
        exact hopened trivial
  · show registry.handles.entries.length ≤ registry.maxHandles
    rw [hsame.handles, hsame.maxHandles]
    exact h.bounded

/-! ### Strong counts -/

theorem slotCount_pos (h : HasSlot s slot) : 0 < slotCount s slot := by
  unfold slotCount
  rcases h with ⟨path, hpath⟩ | ⟨u, hu, hslot⟩
  · have : 0 < s.shared.handles.entries.countP (·.2 = slot) :=
      countP_pos_iff.2 ⟨⟨path, slot⟩, AList.mem_lookup_iff.1 hpath, by simp⟩
    omega
  · have : 0 < s.threads.countP (·.slot? = some slot) :=
      countP_pos_iff.2 ⟨u, hu, by simpa using hslot⟩
    omega

/-- A slot that the map and a caller hold. -/
theorem one_lt_slotCount (hpath : s.shared.handles.lookup path = some slot) {u : Pc Path} (hu : u ∈ s.threads)
    (hslot : u.slot? = some slot) : 1 < slotCount s slot := by
  unfold slotCount
  have hmap : 0 < s.shared.handles.entries.countP (·.2 = slot) :=
    countP_pos_iff.2 ⟨⟨path, slot⟩, AList.mem_lookup_iff.1 hpath, by simp⟩
  have hthread : 0 < s.threads.countP (·.slot? = some slot) := countP_pos_iff.2 ⟨u, hu, by simpa using hslot⟩
  omega

theorem eq_of_countP_le_one {α : Type} {p : α → Bool} {l : List α} (h : l.countP p ≤ 1) {a b : α}
    (ha : a ∈ l) (hb : b ∈ l) (hpa : p a = true) (hpb : p b = true) : a = b := by
  rw [countP_eq_length_filter] at h
  have hain := mem_filter.2 ⟨ha, hpa⟩
  have hbin := mem_filter.2 ⟨hb, hpb⟩
  match hfilter : l.filter p, h with
  | [], _ =>
    rw [hfilter] at hain
    cases hain
  | [x], _ =>
    rw [hfilter] at hain hbin
    rw [mem_singleton.1 hain, mem_singleton.1 hbin]
  | _ :: _ :: _, h => simp at h

theorem Inv.slot_lt (h : Inv s) (hslot : HasSlot s slot) : slot < s.shared.created := by
  rcases hslot with ⟨path, hpath⟩ | ⟨u, hu, hslot⟩
  · exact h.mapped_lt path slot hpath
  · exact (h.threads u hu).slot_lt slot hslot

/-- A handle that is counted once is held by the slot that stores it, and by nothing else. -/
theorem Inv.only_slot (h : Inv s) (hslot : HasSlot s slot)
    (hstore : (s.shared.slots slot).store = some handle) (hcount : handleCount s handle ≤ 1) :
    (∀ u ∈ s.threads, u.handle? ≠ some handle) ∧
      ∀ slot', HasSlot s slot' → (s.shared.slots slot').store = some handle → slot' = slot := by
  unfold handleCount at hcount
  have hcounts : ∀ slot', HasSlot s slot' → (s.shared.slots slot').store = some handle →
      decide ((s.shared.slots slot').store = some handle ∧ 0 < slotCount s slot') = true :=
    fun slot' hslot' hstore' => decide_eq_true ⟨hstore', slotCount_pos hslot'⟩
  have hrange : ∀ slot', HasSlot s slot' → slot' ∈ List.range s.shared.created := fun slot' hslot' =>
    mem_range.2 (h.slot_lt hslot')
  have hone : 0 < (List.range s.shared.created).countP fun slot =>
      (s.shared.slots slot).store = some handle ∧ 0 < slotCount s slot :=
    countP_pos_iff.2 ⟨slot, hrange slot hslot, hcounts slot hslot hstore⟩
  constructor
  · intro u hu hhandle
    have : 0 < s.threads.countP (·.handle? = some handle) := countP_pos_iff.2 ⟨u, hu, by simpa using hhandle⟩
    omega
  · intro slot' hslot' hstore'
    have hle : ((List.range s.shared.created).countP fun slot =>
        (s.shared.slots slot).store = some handle ∧ 0 < slotCount s slot) ≤ 1 := by omega
    exact eq_of_countP_le_one hle (hrange slot' hslot') (hrange slot hslot)
      (hcounts slot' hslot' hstore') (hcounts slot hslot hstore)

theorem lookup_evictIdleSlots : (evictIdleSlots s).handles.lookup path = some slot ↔
      s.shared.handles.lookup path = some slot ∧ keeps s slot = true := by
  unfold evictIdleSlots
  rw [AList.lookup_filterMapValues, Option.bind_eq_some_iff]
  constructor
  · rintro ⟨slot', hlookup, hkeeps⟩
    split_ifs at hkeeps with hkept
    cases hkeeps
    exact ⟨hlookup, hkept⟩
  · rintro ⟨hlookup, hkept⟩
    exact ⟨slot, hlookup, if_pos hkept⟩

/-- **Evictions** close no handle that is in use. -/
theorem Inv.evict (h : Inv s) : Inv ⟨evictIdleSlots s, s.threads⟩ := by
  have hheld : ∀ path slot, s.shared.handles.lookup path = some slot →
      ∀ u ∈ s.threads, u.slot? = some slot → keeps s slot = true := by
    intro path slot hpath u hu hslot
    unfold keeps
    rw [if_pos (one_lt_slotCount hpath hu hslot)]
  have hhas : ∀ slot, HasSlot ⟨evictIdleSlots s, s.threads⟩ slot → HasSlot s slot := by
    rintro slot (⟨path, hpath⟩ | hthread)
    · exact .inl ⟨path, (lookup_evictIdleSlots.1 hpath).1⟩
    · exact .inr hthread
  refine ⟨fun path slot hpath => ?_, fun path path' slot hpath hpath' => ?_, fun u hu => ?_, h.locks,
    fun handle hlive => ?_, ?_⟩
  · exact h.mapped_lt path slot (lookup_evictIdleSlots.1 hpath).1
  · exact h.mapped_inj path path' slot (lookup_evictIdleSlots.1 hpath).1
      (lookup_evictIdleSlots.1 hpath').1
  · have hok := h.threads u hu
    refine ⟨hok.slot_lt, fun path slot hmay => ?_, hok.locked, hok.unset, hok.opened⟩
    have hpath := hok.mapped path slot hmay
    exact lookup_evictIdleSlots.2 ⟨hpath, hheld path slot hpath u hu hmay.slot?⟩
  · have hlive' : Live s handle := by
      rcases hlive with hthread | ⟨slot, hslot, hstore⟩
      · exact .inl hthread
      · exact .inr ⟨slot, hhas slot hslot, hstore⟩
    obtain ⟨path, slot, hpath, hmapped, htracked⟩ := h.live handle hlive'
    refine ⟨path, slot, hpath, lookup_evictIdleSlots.2 ⟨hmapped, ?_⟩, htracked⟩
    by_contra hevicted
    -- No caller holds the slot, so that it stores the handle, and nothing else holds it.
    have hnone : ∀ u ∈ s.threads, u.slot? ≠ some slot := fun u hu hslot =>
      hevicted (hheld path slot hmapped u hu hslot)
    have hstore := htracked.resolve_right fun hopened => hnone _ hopened rfl
    have hcount : handleCount s handle ≤ 1 := by
      unfold keeps at hevicted
      split_ifs at hevicted with hslots
      · exact absurd rfl hevicted
      · rw [hstore] at hevicted
        simpa using hevicted
    obtain ⟨hthreads, hslots⟩ := h.only_slot (.inl ⟨path, hmapped⟩) hstore hcount
    rcases hlive with ⟨u, hu, hhandle⟩ | ⟨slot', hslot', hstore'⟩
    · exact hthreads u hu hhandle
    · obtain rfl := hslots slot' (hhas slot' hslot') hstore'
      rcases hslot' with ⟨path', hpath'⟩ | ⟨u, hu, hslot'⟩
      · exact hevicted (lookup_evictIdleSlots.1 hpath').2
      · exact hnone u hu hslot'
  · refine le_trans ?_ h.bounded
    show ((s.shared.handles.entries.filterMap _)).length ≤ _
    exact length_filterMap_le _ _

/-- **A new slot**, under a path that has none. -/
theorem Inv.insert (h : Inv s) (hi : s.threads[i]? = some (.prepare path))
    (hnone : s.shared.handles.lookup path = none) (hroom : s.shared.handles.entries.length < s.shared.maxHandles) :
    Inv (s.advance i ⟨insertSlot s.shared path, .check path s.shared.created false, []⟩) := by
  have hlookup : ∀ path' slot, (insertSlot s.shared path).handles.lookup path' =
      some slot → (path' = path ∧ slot = s.shared.created) ∨
        (path' ≠ path ∧ s.shared.handles.lookup path' = some slot) := by
    intro path' slot hpath'
    unfold insertSlot at hpath'
    by_cases heq : path' = path
    · rw [heq, AList.lookup_insert] at hpath'
      exact .inl ⟨heq, (Option.some.inj hpath').symm⟩
    · rw [AList.lookup_insert_ne heq] at hpath'
      exact .inr ⟨heq, hpath'⟩
  have hold : ∀ path' slot, s.shared.handles.lookup path' = some slot →
      (insertSlot s.shared path).handles.lookup path' = some slot := by
    intro path' slot hpath'
    unfold insertSlot
    rw [AList.lookup_insert_ne]
    · exact hpath'
    · rintro rfl
      rw [hnone] at hpath'
      cases hpath'
  have hslots : ∀ slot, slot ≠ s.shared.created → (insertSlot s.shared path).slots slot = s.shared.slots slot :=
    fun slot hne => update_of_ne hne _ _
  refine ⟨?_, ?_, ?_, ?_, fun handle hlive => ?_, ?_⟩
  · intro path' slot hpath'
    rcases hlookup path' slot hpath' with ⟨-, rfl⟩ | ⟨-, hpath'⟩
    · exact Nat.lt_succ_self _
    · exact Nat.lt_succ_of_lt (h.mapped_lt path' slot hpath')
  · intro path₁ path₂ slot hpath₁ hpath₂
    rcases hlookup path₁ slot hpath₁ with ⟨rfl, rfl⟩ | ⟨-, hold₁⟩
    · rcases hlookup path₂ _ hpath₂ with ⟨rfl, -⟩ | ⟨-, hold₂⟩
      · rfl
      · exact absurd (h.mapped_lt _ _ hold₂) (lt_irrefl _)
    · rcases hlookup path₂ _ hpath₂ with ⟨rfl, rfl⟩ | ⟨-, hold₂⟩
      · exact absurd (h.mapped_lt _ _ hold₁) (lt_irrefl _)
      · exact h.mapped_inj path₁ path₂ slot hold₁ hold₂
  · refine System.forall_advance h.threads ⟨?_, ?_, ?_, ?_, ?_⟩ (fun u hu => (nomatch hu)) ?_
    · rintro slot ⟨⟩
      exact Nat.lt_succ_self _
    · rintro path' slot ⟨rfl, rfl⟩
      exact AList.lookup_insert _
    · rintro slot ⟨⟩
    · rintro slot ⟨⟩
    · rintro path' slot handle ⟨⟩
    · intro j u hji hj hu
      refine ⟨fun slot hslot => Nat.lt_succ_of_lt (hu.slot_lt slot hslot), fun path' slot hmay =>
        hold path' slot (hu.mapped path' slot hmay), fun slot hlock => ?_, fun slot hopens => ?_,
        hu.opened⟩
      · rw [hslots slot (hu.slot_lt slot (Pc.slot?_of_lock? hlock)).ne]
        exact hu.locked slot hlock
      · rw [hslots slot (hu.slot_lt slot (Pc.slot?_of_lock? (Pc.lock?_of_opens? hopens))).ne]
        exact hu.unset slot hopens
  · exact System.nodup_filterMap_advance hi h.locks (fun slot hslot => (nomatch hslot))
      fun u hu => (nomatch hu)
  · have hlive' : Live s handle := by
      rcases hlive with ⟨u, hu, hhandle⟩ | ⟨slot, hslot, hstore⟩
      · rcases System.mem_advance hu with rfl | ⟨j, -, hj⟩ | hu
        · cases hhandle
        · exact .inl ⟨u, mem_of_getElem? hj, hhandle⟩
        · cases hu
      · -- The new slot stores nothing.
        have hne : slot ≠ s.shared.created := by
          rintro rfl
          change ((insertSlot s.shared path).slots s.shared.created).store = some handle at hstore
          unfold insertSlot at hstore
          simp only [update_self] at hstore
          cases hstore
        refine .inr ⟨slot, ?_, ?_⟩
        · rcases hslot with ⟨path', hpath'⟩ | ⟨u, hu, hslot⟩
          · rcases hlookup path' slot hpath' with ⟨-, heq⟩ | ⟨-, hpath'⟩
            · exact absurd heq hne
            · exact .inl ⟨path', hpath'⟩
          · rcases System.mem_advance hu with rfl | ⟨j, -, hj⟩ | hu
            · exact absurd (Option.some.inj hslot).symm hne
            · exact .inr ⟨u, mem_of_getElem? hj, hslot⟩
            · cases hu
        · change ((insertSlot s.shared path).slots slot).store = some handle at hstore
          rwa [hslots slot hne] at hstore
    obtain ⟨path', slot, hpath, hmapped, htracked⟩ := h.live handle hlive'
    refine ⟨path', slot, hpath, hold path' slot hmapped, ?_⟩
    rcases htracked with hstore | hmem
    · refine .inl ?_
      show ((insertSlot s.shared path).slots slot).store = some handle
      rw [hslots slot (h.mapped_lt path' slot hmapped).ne]
      exact hstore
    · exact .inr (System.mem_advance_of_ne hi hmem fun heq => (nomatch heq))
  · show (s.shared.handles.insert path s.shared.created).entries.length ≤ s.shared.maxHandles
    rw [AList.entries_insert_of_notMem (by rwa [← AList.lookup_eq_none])]
    exact hroom

/-- **A database is opened.** -/
theorem Inv.opens (h : Inv s) (hi : s.threads[i]? = some (.opening path slot)) :
    Inv (s.advance i ⟨{ s.shared with databases := s.shared.databases ++ [path] },
      .opened path slot s.shared.databases.length, []⟩) := by
  have hok := h.threads _ (mem_of_getElem? hi)
  have hold : ∀ (handle : ℕ) path', s.shared.databases[handle]? = some path' →
      (s.shared.databases ++ [path])[handle]? = some path' := by
    intro handle path' hpath'
    obtain ⟨hlt, -⟩ := List.getElem?_eq_some_iff.1 hpath'
    rw [getElem?_append_left hlt]
    exact hpath'
  have hnew : (s.shared.databases ++ [path])[s.shared.databases.length]? = some path := by simp
  refine ⟨h.mapped_lt, h.mapped_inj, ?_, ?_, fun handle hlive => ?_, h.bounded⟩
  · refine System.forall_advance h.threads
      ⟨hok.slot_lt, fun path' slot' hmay => hok.mapped path' slot' hmay, hok.locked, hok.unset, ?_⟩
      (fun u hu => (nomatch hu)) ?_
    · rintro path' slot' handle ⟨⟩
      exact hnew
    · intro j u hji hj hu
      exact ⟨hu.slot_lt, hu.mapped, hu.locked, hu.unset, fun path' slot' handle heq =>
        hold handle path' (hu.opened path' slot' handle heq)⟩
  · exact System.nodup_filterMap_advance hi h.locks (fun slot' hslot' => .inl hslot')
      fun u hu => (nomatch hu)
  · rcases live_of_moves hi hlive (fun _ _ => id) fun _ hslot => hslot with hhandle | hlive'
    · cases hhandle
      exact ⟨path, slot, hnew, hok.mapped path slot ⟨rfl, rfl⟩, .inr (System.thread_mem_advance hi)⟩
    · obtain ⟨path', slot', hpath', hmapped, htracked⟩ := h.live handle hlive'
      refine ⟨path', slot', hold handle path' hpath', hmapped, ?_⟩
      rcases htracked with hstore | hmem
      · exact .inl hstore
      · exact .inr (System.mem_advance_of_ne hi hmem fun heq => (nomatch heq))

/-- **A handle is stored.** -/
theorem Inv.stores (h : Inv s) (hi : s.threads[i]? = some (.opened path slot handle)) :
    Inv (s.advance i ⟨setStore s.shared slot handle, .leaving slot true (some handle), []⟩) := by
  have hmem := mem_of_getElem? hi
  have hok := h.threads _ hmem
  have hunset := hok.unset slot rfl
  have hopening : ∀ slot', ((setStore s.shared slot handle).slots slot').opening = (s.shared.slots slot').opening := by
    intro slot'
    unfold setStore
    simp only [update_apply]
    split_ifs with heq
    · rw [heq]
    · rfl
  have hstore : ∀ slot', ((setStore s.shared slot handle).slots slot').store =
      if slot' = slot then some handle else (s.shared.slots slot').store := by
    intro slot'
    unfold setStore
    simp only [update_apply]
    split_ifs with heq
    · rw [hunset]
      rfl
    · rfl
  refine ⟨h.mapped_lt, h.mapped_inj, ?_, ?_, fun handle' hlive => ?_, h.bounded⟩
  · refine System.forall_advance h.threads ⟨hok.slot_lt, fun _ _ hmay => hmay.elim, ?_, ?_, ?_⟩
      (fun u hu => (nomatch hu)) ?_
    · intro slot' hlock
      exact (hopening slot').trans (hok.locked slot' hlock)
    · rintro slot' ⟨⟩
    · rintro path' slot' handle' ⟨⟩
    · intro j u hji hj hu
      refine ⟨hu.slot_lt, hu.mapped, fun slot' hlock => (hopening slot').trans (hu.locked slot' hlock),
        fun slot' hopens => ?_, hu.opened⟩
      show ((setStore s.shared slot handle).slots slot').store = none
      rw [hstore, if_neg]
      · exact hu.unset slot' hopens
      · rintro rfl
        exact hji (System.eq_of_nodup_filterMap h.locks hj hi (Pc.lock?_of_opens? hopens) rfl)
  · exact System.nodup_filterMap_advance hi h.locks (fun slot' hslot' => .inl hslot')
      fun u hu => (nomatch hu)
  · have hlive' : Live s handle' := by
      rcases live_of_moves hi hlive (fun _ _ => id) fun _ hslot => hslot with
        hhandle | hthread | ⟨slot', hslot', hstored⟩
      · exact .inl ⟨_, hmem, hhandle⟩
      · exact .inl hthread
      · change ((setStore s.shared slot handle).slots slot').store = some handle' at hstored
        rw [hstore] at hstored
        split_ifs at hstored
        · exact .inl ⟨_, hmem, hstored⟩
        · exact .inr ⟨slot', hslot', hstored⟩
    obtain ⟨path', slot', hpath', hmapped, htracked⟩ := h.live handle' hlive'
    refine ⟨path', slot', hpath', hmapped, ?_⟩
    rcases htracked with hstored | hmem'
    · refine .inl ?_
      show ((setStore s.shared slot handle).slots slot').store = some handle'
      rw [hstore, if_neg]
      · exact hstored
      · rintro rfl
        rw [hunset] at hstored
        cases hstored
    · obtain ⟨j, hj⟩ := mem_iff_getElem?.1 hmem'
      by_cases hji : j = i
      · subst hji
        cases hi.symm.trans hj
        refine .inl ?_
        show ((setStore s.shared slot handle).slots slot).store = some handle
        rw [hstore, if_pos rfl]
      · exact .inr (mem_of_getElem? (System.getElem?_advance_of_ne hji hj))

/-- **A slot is removed**, after a failed open that no other caller waits for. -/
theorem Inv.removes (h : Inv s) (hi : s.threads[i]? = some (.removing path slot)) (horphans : ¬Orphans s i) :
    Inv (s.advance i ⟨removeSlot s.shared path slot, .leaving slot false none, []⟩) := by
  have hpc := mem_of_getElem? hi
  have hok := h.threads _ hpc
  unfold removeSlot
  split_ifs with hremoved
  · obtain ⟨hmapped, hunset⟩ := hremoved
    have hnone : ∀ u ∈ s.threads, ¬u.MayOpen path slot := fun u hu hmay =>
      horphans ⟨path, slot, hi, hmapped, hunset, u, hu, hmay⟩
    have hlookup : ∀ path' slot', (s.shared.handles.erase path).lookup path' = some slot' →
        s.shared.handles.lookup path' = some slot' := by
      intro path' slot' hpath'
      by_cases heq : path' = path
      · rw [heq, AList.lookup_erase] at hpath'
        cases hpath'
      · rwa [AList.lookup_erase_ne heq] at hpath'
    refine ⟨fun path' slot' hpath' => h.mapped_lt path' slot' (hlookup path' slot' hpath'), ?_, ?_, ?_,
      fun handle hlive => ?_, ?_⟩
    · exact fun path₁ path₂ slot' hpath₁ hpath₂ =>
        h.mapped_inj path₁ path₂ slot' (hlookup path₁ slot' hpath₁) (hlookup path₂ slot' hpath₂)
    · refine System.forall_advance h.threads ⟨hok.slot_lt, fun _ _ hmay => hmay.elim, ?_, ?_, ?_⟩
        (fun u hu => (nomatch hu)) ?_
      · rintro slot' ⟨⟩
      · rintro slot' ⟨⟩
      · rintro path' slot' handle ⟨⟩
      · intro j u hji hj hu
        refine ⟨hu.slot_lt, fun path' slot' hmay => ?_, hu.locked, hu.unset, hu.opened⟩
        have hpath' := hu.mapped path' slot' hmay
        show (s.shared.handles.erase path).lookup path' = some slot'
        rw [AList.lookup_erase_ne]
        · exact hpath'
        · rintro rfl
          obtain rfl := Option.some.inj (hmapped.symm.trans hpath')
          exact hnone u (mem_of_getElem? hj) hmay
    · exact System.nodup_filterMap_advance hi h.locks (fun slot' hslot' => (nomatch hslot'))
        fun u hu => (nomatch hu)
    · have hlive' : Live s handle :=
        (live_of_moves hi hlive hlookup fun _ hslot => hslot).resolve_left fun hhandle => (nomatch hhandle)
      obtain ⟨path', slot', hpath', hmapped', htracked⟩ := h.live handle hlive'
      have hne : path' ≠ path := by
        rintro rfl
        obtain rfl := Option.some.inj (hmapped.symm.trans hmapped')
        rcases htracked with hstored | hopened
        · rw [hunset] at hstored
          cases hstored
        · exact hnone _ hopened ⟨rfl, rfl⟩
      refine ⟨path', slot', hpath', ?_, ?_⟩
      · show (s.shared.handles.erase path).lookup path' = some slot'
        rw [AList.lookup_erase_ne hne]
        exact hmapped'
      · rcases htracked with hstored | hmem
        · exact .inl hstored
        · exact .inr (System.mem_advance_of_ne hi hmem fun heq => (nomatch heq))
    · refine le_trans ?_ h.bounded
      exact (kerase_sublist path s.shared.handles.entries).length_le
  · refine h.quiet hi (.refl _) (fun _ => .inl) ⟨hok.slot_lt, fun _ _ hmay => hmay.elim, ?_, ?_, ?_⟩
      ?_ ?_ ?_ ?_ fun u hu => (nomatch hu)
    · rintro slot' ⟨⟩
    · rintro slot' ⟨⟩
    · rintro path' slot' handle ⟨⟩
    · rintro slot' ⟨⟩
    · exact fun slot' hslot' => .inr ⟨_, hpc, hslot'⟩
    · rintro handle ⟨⟩
    · exact id

theorem Inv.threadOk (h : Inv s) (hi : s.threads[i]? = some pc) : ThreadOk s.shared pc :=
  h.threads pc (mem_of_getElem? hi)

theorem Inv.ends (h : Inv s) (hi : s.threads[i]? = some pc) (hopened : ¬pc.Publishes) :
    Inv (s.advance i ⟨s.shared, .done, []⟩) :=
  h.quiet hi (.refl _) (fun _ => .inl) (threadOk_of_slot?_eq_none _ rfl) (fun _ h => (nomatch h))
    (fun _ h => (nomatch h)) (fun _ h => (nomatch h)) hopened fun _ h => (nomatch h)

/-- `prepare_slot`. -/
theorem Inv.prepares (h : Inv s) (hi : s.threads[i]? = some (.prepare path)) (env : Env) :
    Inv (s.advance i ((Pc.prepare path).next env s)) := by
  simp only [Pc.next, prepareSlot]
  cases hlookup : s.shared.handles.lookup path with
  | some slot =>
    have hlt := h.mapped_lt path slot hlookup
    show Inv (s.advance i ⟨s.shared, .check path slot false, []⟩)
    refine h.quiet hi (.refl _) (fun _ => .inl) ⟨?_, ?_, ?_, ?_, ?_⟩ ?_ ?_ ?_ ?_ fun _ h => (nomatch h)
    · rintro slot' ⟨⟩
      exact hlt
    · rintro path' slot' ⟨rfl, rfl⟩
      exact hlookup
    · rintro slot' ⟨⟩
    · rintro slot' ⟨⟩
    · rintro path' slot' handle ⟨⟩
    · rintro slot' ⟨⟩
    · rintro slot' ⟨⟩
      exact .inl ⟨path, hlookup⟩
    · rintro handle ⟨⟩
    · exact id
  | none =>
    have hevicted := h.evict
    by_cases hfull : (evictIdleSlots s).maxHandles ≤ (evictIdleSlots s).handles.entries.length
    · simp only [if_pos hfull]
      show Inv (s.advance i ⟨evictIdleSlots s, .done, []⟩)
      exact hevicted.ends hi id
    · simp only [if_neg hfull]
      show Inv (s.advance i ⟨insertSlot (evictIdleSlots s) path, .check path (evictIdleSlots s).created false, []⟩)
      refine hevicted.insert hi ?_ (not_le.1 hfull)
      show (evictIdleSlots s).handles.lookup path = none
      cases hafter : (evictIdleSlots s).handles.lookup path with
      | none => rfl
      | some slot =>
        rw [(lookup_evictIdleSlots.1 hafter).1] at hlookup
        cases hlookup

/-- A caller that looks at its slot goes on with it. -/
theorem Inv.looks (h : Inv s) (hi : s.threads[i]? = some pc) (hmay : pc.MayOpen path slot) (hopened : ¬pc.Publishes)
    (hmay' : ∀ path' slot', pc'.MayOpen path' slot' → path = path' ∧ slot = slot') (hslot : pc'.slot? = some slot)
    (hlock : pc'.lock? = pc.lock?) (hopens : ∀ slot', pc'.opens? = some slot' → (s.shared.slots slot').store = none)
    (hhandle : ∀ handle, pc'.handle? = some handle → (s.shared.slots slot).store = some handle)
    (hnot : ¬pc'.Publishes) :
    Inv (s.advance i ⟨s.shared, pc', []⟩) := by
  have hok := h.threadOk hi
  have hhas : HasSlot s slot := .inr ⟨pc, mem_of_getElem? hi, hmay.slot?⟩
  refine h.quiet hi (.refl _) (fun _ => .inl) ⟨?_, ?_, ?_, hopens, ?_⟩ ?_ ?_ ?_ hopened
    fun _ h => (nomatch h)
  · intro slot' hslot'
    rw [hslot] at hslot'
    cases hslot'
    exact hok.slot_lt slot hmay.slot?
  · intro path' slot' hmay''
    obtain ⟨rfl, rfl⟩ := hmay' path' slot' hmay''
    exact hok.mapped path slot hmay
  · intro slot' hlock'
    exact hok.locked slot' (hlock ▸ hlock')
  · rintro path' slot' handle rfl
    exact absurd trivial hnot
  · exact fun slot' hlock' => .inl (hlock ▸ hlock')
  · intro slot' hslot'
    rw [hslot] at hslot'
    cases hslot'
    exact hhas
  · exact fun handle hhandle' => .inr ⟨slot, hhas, hhandle handle hhandle'⟩

/-- A caller that finds no database in its slot waits for the lock, or has it and opens one. -/
theorem Inv.waits (h : Inv s) (hi : s.threads[i]? = some pc) {locked : Bool} (hmay : pc.MayOpen path slot)
    (hopened : ¬pc.Publishes) (hlock : pc.lock? = if locked then some slot else none)
    (hstore : (s.shared.slots slot).store = none) :
    Inv (s.advance i ⟨s.shared, if locked then .opening path slot else .lockOpen path slot, []⟩) := by
  cases locked with
  | false =>
    exact h.looks hi hmay hopened (fun _ _ h => h) rfl hlock.symm (fun _ h => (nomatch h))
      (fun _ h => (nomatch h)) id
  | true =>
    refine h.looks hi hmay hopened (fun _ _ h => h) rfl hlock.symm (fun slot' hopens => ?_)
      (fun _ h => (nomatch h)) id
    cases hopens
    exact hstore

/-- `clone_open_handle`. -/
theorem Inv.checks (h : Inv s) {locked : Bool} (hi : s.threads[i]? = some (.check path slot locked)) (env : Env) :
    Inv (s.advance i ((Pc.check path slot locked).next env s)) := by
  simp only [Pc.next]
  cases hstore : (s.shared.slots slot).store with
  | some handle =>
    show Inv (s.advance i ⟨s.shared, .clone path slot locked, []⟩)
    refine h.looks hi ⟨rfl, rfl⟩ id (fun _ _ h => h) rfl ?_ (fun _ h => (nomatch h)) (fun _ h => (nomatch h)) id
    cases locked <;> rfl
  | none =>
    have hwaits := @Inv.waits _ _ _ _ _ _ _ h hi locked ⟨rfl, rfl⟩ id (by cases locked <;> rfl) hstore
    cases locked <;> exact hwaits

theorem Inv.clones (h : Inv s) {locked : Bool} (hi : s.threads[i]? = some (.clone path slot locked)) (env : Env) :
    Inv (s.advance i ((Pc.clone path slot locked).next env s)) := by
  simp only [Pc.next]
  cases hstore : (s.shared.slots slot).store with
  | some handle =>
    show Inv (s.advance i ⟨s.shared, .leaving slot locked (some handle), []⟩)
    refine h.looks hi ⟨rfl, rfl⟩ id (fun _ _ h => h.elim) rfl ?_ (fun _ h => (nomatch h))
      (fun handle' hhandle => ?_) id
    · cases locked <;> rfl
    · cases hhandle
      exact hstore
  | none =>
    have hwaits := @Inv.waits _ _ _ _ _ _ _ h hi locked ⟨rfl, rfl⟩ id (by cases locked <;> rfl) hstore
    cases locked <;> exact hwaits

theorem Inv.locksOpen (h : Inv s) (hi : s.threads[i]? = some (.lockOpen path slot)) (env : Env) :
    Inv (s.advance i ((Pc.lockOpen path slot).next env s)) := by
  have hmay : (Pc.lockOpen path slot).MayOpen path slot := ⟨rfl, rfl⟩
  have hok := h.threadOk hi
  simp only [Pc.next]
  split_ifs with htaken
  · exact h.looks hi hmay id (fun _ _ h => h) rfl rfl
      (fun _ h => (nomatch h)) (fun _ h => (nomatch h)) id
  · refine h.quiet hi (sameButLocks_setOpening _ _ _) (fun slot' htrue => .inl ?_)
      ⟨fun slot' hslot' => hok.slot_lt slot' hslot', fun path' slot' hmay' => hok.mapped path' slot' hmay',
        fun slot' hlock => ?_, fun _ h => (nomatch h), fun _ _ _ h => (nomatch h)⟩
      (fun slot' hlock => .inr ?_) (fun slot' hslot' => .inr ⟨_, mem_of_getElem? hi, hslot'⟩)
      (fun _ h => (nomatch h)) id fun _ h => (nomatch h)
    · rw [opening_setOpening]
      split_ifs
      · rfl
      · exact htrue
    · cases hlock
      rw [opening_setOpening, if_pos rfl]
    · cases hlock
      exact Bool.eq_false_iff.2 htaken

theorem Inv.unlocks (h : Inv s) (hi : s.threads[i]? = some pc) (hlock : pc.lock? = some slot)
    (hopened : ¬pc.Publishes) (hslot : pc'.slot? = some slot) (hfree : pc'.lock? = none)
    (hmay : ∀ path slot, ¬pc'.MayOpen path slot) (hhandle : pc'.handle? = none ∨ pc'.handle? = pc.handle?)
    (hnot : ¬pc'.Publishes) : Inv (s.advance i ⟨setOpening s.shared slot false, pc', []⟩) := by
  have hok := h.threadOk hi
  have hmem := mem_of_getElem? hi
  refine h.quiet hi (sameButLocks_setOpening _ _ _) (fun slot' htrue => ?_)
    ⟨?_, fun path' slot' hmay' => absurd hmay' (hmay path' slot'), ?_, ?_, ?_⟩
    ?_ ?_ ?_ hopened fun _ h => (nomatch h)
  · rw [opening_setOpening]
    split_ifs with heq
    · rw [heq]
      exact .inr hlock
    · exact .inl htrue
  · intro slot' hslot'
    rw [hslot] at hslot'
    cases hslot'
    exact hok.slot_lt slot (Pc.slot?_of_lock? hlock)
  · intro slot' hlock'
    rw [hfree] at hlock'
    cases hlock'
  · intro slot' hopens
    rw [Pc.lock?_of_opens? hopens] at hfree
    cases hfree
  · rintro path' slot' handle rfl
    exact absurd trivial hnot
  · intro slot' hlock'
    rw [hfree] at hlock'
    cases hlock'
  · intro slot' hslot'
    rw [hslot] at hslot'
    cases hslot'
    exact .inr ⟨pc, hmem, Pc.slot?_of_lock? hlock⟩
  · intro handle hhandle'
    rcases hhandle with hnone | hkept
    · rw [hnone] at hhandle'
      cases hhandle'
    · exact .inl ⟨pc, hmem, hkept ▸ hhandle'⟩

/-- **One step** keeps the invariant, unless it orphans a slot. -/
theorem Inv.step (h : Inv s) {turn : ℕ × Env} (horphans : ¬Orphans s turn.1) : Inv (TenantL0.step s turn) := by
  obtain ⟨i, env⟩ := turn
  unfold TenantL0.step
  cases hi : s.threads[i]? with
  | none => exact h
  | some pc =>
    show Inv (s.advance i (pc.next env s))
    cases pc with
    | prepare path => exact h.prepares hi env
    | check path slot locked => exact h.checks hi env
    | clone path slot locked => exact h.clones hi env
    | lockOpen path slot => exact h.locksOpen hi env
    | opening path slot =>
      simp only [Pc.next]
      split_ifs
      · exact h.opens hi
      · have hunset := (h.threadOk hi).unset slot rfl
        refine h.looks hi ⟨rfl, rfl⟩ id (fun _ _ h => h.elim) rfl rfl
          (fun slot' hopens => ?_) (fun _ h => (nomatch h)) id
        cases hopens
        exact hunset
    | opened path slot handle => exact h.stores hi
    | failed path slot =>
      exact h.unlocks hi rfl id rfl rfl (fun _ _ h => h) (.inl rfl)
        id
    | removing path slot => exact h.removes hi horphans
    | leaving slot locked handle =>
      cases locked with
      | true =>
        exact h.unlocks hi rfl id rfl rfl (fun _ _ h => h) (.inr rfl)
          id
      | false =>
        cases handle with
        | none => exact h.ends hi id
        | some handle =>
          refine h.quiet hi (.refl _) (fun _ => .inl) (threadOk_of_slot?_eq_none _ rfl) (fun _ h => (nomatch h))
            (fun _ h => (nomatch h)) (fun handle' hhandle => ?_) id
            fun _ h => (nomatch h)
          exact .inl ⟨_, mem_of_getElem? hi, hhandle⟩
    | holding handle =>
      have hlive : Live s handle := .inl ⟨_, mem_of_getElem? hi, rfl⟩
      simp only [Pc.next]
      cases env.use with
      | clone =>
        refine h.quiet hi (.refl _) (fun _ => .inl) (threadOk_of_slot?_eq_none _ rfl) (fun _ h => (nomatch h))
          (fun _ h => (nomatch h)) (fun handle' hhandle => ?_) id
          fun u hu => ⟨handle, mem_singleton.1 hu, hlive⟩
        cases hhandle
        exact hlive
      | drop => exact h.ends hi id
    | lease => exact h.evict.ends hi id
    | done => exact h.ends hi id

/-- Threads that have not started. -/
def Waiting (threads : List (Pc Path)) : Prop := ∀ pc ∈ threads, (∃ path, pc = .prepare path) ∨ pc = .lease

theorem inv_start (maxHandles : ℕ) {threads : List (Pc Path)} (h : Waiting threads) :
    Inv (start maxHandles threads) := by
  have hlock : ∀ pc ∈ threads, pc.lock? = none := by
    intro pc hpc
    rcases h pc hpc with ⟨path, rfl⟩ | rfl <;> rfl
  refine ⟨fun _ _ h => (nomatch h), fun _ _ _ h => (nomatch h), fun pc hpc => ?_, ?_,
    fun handle hlive => ?_, Nat.zero_le _⟩
  · rcases h pc hpc with ⟨path, rfl⟩ | rfl
    · exact threadOk_of_slot?_eq_none _ rfl
    · exact threadOk_of_slot?_eq_none _ rfl
  · show (threads.filterMap Pc.lock?).Nodup
    rw [filterMap_eq_nil_iff.2 hlock]
    exact nodup_nil
  · rcases hlive with ⟨pc, hpc, hhandle⟩ | ⟨slot, -, hstore⟩
    · rcases h pc hpc with ⟨path, rfl⟩ | rfl
      · cases hhandle
      · cases hhandle
    · cases hstore

/-- **One open database per tenant**, in every state of every run in which no failed open removes a slot
that another caller may still open. -/
theorem oneOpenDatabase_run (maxHandles : ℕ) {threads : List (Pc Path)} (hwaiting : Waiting threads)
    (schedule : List (ℕ × Env))
    (horphans : ∀ before turn after, schedule = before ++ turn :: after →
      ¬Orphans (run (start maxHandles threads) before) turn.1) :
    OneOpenDatabase (run (start maxHandles threads) schedule) := by
  suffices hinv : Inv (run (start maxHandles threads) schedule) from hinv.oneOpenDatabase
  induction schedule using reverseRecOn with
  | nil => exact inv_start maxHandles hwaiting
  | append_singleton before turn ih =>
    unfold run
    rw [foldl_append]
    refine (ih fun before' turn' after heq => ?_).step (horphans before turn [] rfl)
    exact horphans before' turn' (after ++ [turn]) (by rw [heq]; simp)

/-! ### A failed open that orphans a slot -/

/-- Three callers of one tenant. -/
def callers : List (Pc String) := [.prepare "acme", .prepare "acme", .prepare "acme"]

/-- The first caller fails to open the database, and removes the slot after the second one has opened it;
the third one is about to open it again. -/
def orphanedSchedule : List (ℕ × Env) :=
  let fails : Env := ⟨false, .drop⟩
  let opens : Env := ⟨true, .drop⟩
  [(0, fails), (1, opens), (0, fails), (0, fails), (0, fails), (0, fails), (0, fails),
    (1, opens), (1, opens), (1, opens), (1, opens), (0, fails),
    (2, opens), (2, opens), (2, opens), (2, opens)]

theorem not_oneOpenDatabase_orphaned :
    ∃ (maxHandles : ℕ) (threads : List (Pc String)) (schedule : List (ℕ × Env)), Waiting threads ∧
      ¬OneOpenDatabase (run (start maxHandles threads) schedule) := by
  refine ⟨32, callers, orphanedSchedule, ?_, fun hone => ?_⟩
  · intro pc hpc
    simp only [callers, mem_cons, not_mem_nil, or_false, or_self] at hpc
    exact .inl ⟨_, hpc⟩
  · have hopening : .opening "acme" 1 ∈ (run (start 32 callers) orphanedSchedule).threads := by
      decide +kernel
    have hopened : .opened "acme" 0 0 ∈ (run (start 32 callers) orphanedSchedule).threads := by
      decide +kernel
    have hpath : (run (start 32 callers) orphanedSchedule).shared.databases[0]? = some "acme" := by
      decide +kernel
    exact hone.not_reopened "acme" 1 hopening 0 (.inl ⟨_, hopened, rfl⟩) hpath

/-- The first caller opens the database. -/
def openedSchedule : List (ℕ × Env) := List.replicate 6 (0, ⟨true, .drop⟩)

theorem oneOpenDatabase_run_callers : OneOpenDatabase (run (start 32 callers) openedSchedule) := by
  refine oneOpenDatabase_run 32 ?_ openedSchedule fun before turn after heq => ?_
  · intro pc hpc
    simp only [callers, mem_cons, not_mem_nil, or_false, or_self] at hpc
    exact .inl ⟨_, hpc⟩
  · rintro ⟨path, slot, hi, -⟩
    have hnone : ∀ n < 6, ∀ pc ∈ (run (start 32 callers) (openedSchedule.take n)).threads,
        (match pc with | .removing _ _ => true | _ => false) = false := by
      decide +kernel
    have hlength : before.length < 6 := by
      have := congrArg List.length heq
      rw [length_append, length_cons] at this
      change 6 = _ at this
      omega
    have hbefore : openedSchedule.take before.length = before := by rw [heq, take_left]
    have hremoving := hnone before.length hlength
    rw [hbefore] at hremoving
    exact absurd (hremoving _ (mem_of_getElem? hi)) (by simp)

end TenantL0

end WildAgentOs.Memory
