import WildAgentOs.Engine.CrashRecovery

/-!
# Health counters and the scan

`insert`, `upsert` and `delete` keep the counters of `PersistenceHealth` by the difference of
`entry_presence` before and after; `open` counts them anew.

* `VectorStore.activeIds`: which ids the scan walks;
* `scanPersistenceHealth_change`, `Orphan`;
* `health_cleanRun`: without writes and deletes of orphans the counters are those of a scan, and
  none wraps; `not_healthy_otherDimension`: with one they are not.
-/

namespace WildAgentOs.Engine

open LittleEndian Json List Option VectorStore HyperspaceEngine HealthCounters

/-! ### The ids of a store -/

namespace VectorStore

variable {s s' : VectorStore} {id : UInt32} {bytes : Bytes}

/-- Every slot has an id of its own. -/
def Bounded (s : VectorStore) : Prop := s.slots.length ≤ 2 ^ 32

theorem bounded_new (size : ℕ) : (new size).Bounded := Nat.zero_le _

theorem Bounded.set (hs : s.Bounded) (h : s.set id bytes = .ok s') : s'.Bounded := by
  have hid : id.toNat < 2 ^ 32 := id.toNat_lt
  unfold Bounded at hs ⊢
  rw [(eq_of_set h).2, length_set, length_append, length_replicate]
  omega

theorem Bounded.remove (hs : s.Bounded) (id : UInt32) : (s.remove id).Bounded := by
  unfold Bounded VectorStore.remove
  rw [length_set]
  exact hs

theorem mem_activeIds (hs : s.Bounded) : id ∈ s.activeIds ↔ (s.get id).isSome := by
  unfold activeIds get
  rw [mem_filterMap]
  constructor
  · rintro ⟨⟨slot, k⟩, hmem, hk⟩
    have hslot : s.slots[k]? = some slot := mem_zipIdx_iff_getElem?.1 hmem
    have hk' : k < 2 ^ 32 := lt_of_lt_of_le (List.getElem?_eq_some_iff.1 hslot).1 hs
    cases slot with
    | none => cases hk
    | some bytes =>
      cases hk
      rw [UInt32.toNat_ofNat_of_lt' hk', hslot]
      rfl
  · intro hsome
    obtain ⟨bytes, hbytes⟩ := isSome_iff_exists.1 hsome
    obtain ⟨slot, hslot, hjoin⟩ := bind_eq_some_iff.1 hbytes
    obtain rfl : slot = some bytes := hjoin
    refine ⟨(some bytes, id.toNat), mem_zipIdx_iff_getElem?.2 hslot, ?_⟩
    simp

theorem nodup_activeIds (hs : s.Bounded) : s.activeIds.Nodup := by
  unfold activeIds
  refine pairwise_filterMap.2 (pairwise_iff_getElem.2 ?_)
  intro i j hi hj hlt id hid id' hid' heq
  rw [length_zipIdx] at hi hj
  rw [getElem_zipIdx] at hid hid'
  obtain ⟨-, -, hi'⟩ := map_eq_some_iff.1 hid
  obtain ⟨-, -, hj'⟩ := map_eq_some_iff.1 hid'
  have hlen : s.slots.length ≤ 2 ^ 32 := hs
  have hi₂ : 0 + i < 2 ^ 32 := by omega
  have hj₂ : 0 + j < 2 ^ 32 := by omega
  have hnat : (UInt32.ofNat (0 + i)).toNat = (UInt32.ofNat (0 + j)).toNat := by
    rw [hi', hj', heq]
  rw [UInt32.toNat_ofNat_of_lt' hi₂, UInt32.toNat_ofNat_of_lt' hj₂] at hnat
  omega

/-- `active_count` counts what `iter_active` walks. -/
theorem activeCount_eq (s : VectorStore) : s.activeCount = UInt32.ofNat s.activeIds.length := by
  unfold activeCount activeIds
  rw [length_filterMap_eq_countP, ← countP_eq_length_filter]
  congr 1
  have hslots : s.slots.countP Option.isSome = (s.slots.zipIdx.map Prod.fst).countP Option.isSome := by
    rw [zipIdx_map_fst]
  rw [hslots, countP_map]
  refine countP_congr fun p _ => ?_
  simp

/-- The ids with a vector. -/
def stored (s : VectorStore) : Finset UInt32 := s.activeIds.toFinset

theorem mem_stored (hs : s.Bounded) : id ∈ s.stored ↔ (s.get id).isSome := by
  unfold stored
  rw [List.mem_toFinset, mem_activeIds hs]

theorem countP_activeIds (hs : s.Bounded) (p : UInt32 → Bool) :
    s.activeIds.countP p = (s.stored.filter fun id => p id = true).card := by
  unfold stored
  rw [← toFinset_filter, toFinset_card_of_nodup ((nodup_activeIds hs).filter _), countP_eq_length_filter]

end VectorStore

/-! ### Counting by differences -/

/-- Two subsets that differ at one place at most differ in size by what they have there. -/
theorem card_add_ite {α : Type*} [DecidableEq α] {T T' : Finset α} {a : α} (h : ∀ x, x ≠ a → (x ∈ T' ↔ x ∈ T)) :
    T'.card + (if a ∈ T then 1 else 0) = T.card + if a ∈ T' then 1 else 0 := by
  have herase : T'.erase a = T.erase a := by
    ext x
    rw [Finset.mem_erase, Finset.mem_erase]
    by_cases hx : x = a
    · simp [hx]
    · simp [hx, h x hx]
  have hcard : ∀ U : Finset α, U.card = (U.erase a).card + if a ∈ U then 1 else 0 := by
    intro U
    split_ifs with ha
    · rw [Finset.card_erase_add_one ha]
    · rw [Finset.erase_eq_of_notMem ha, Nat.add_zero]
  rw [hcard T, hcard T', herase]
  omega

namespace HealthCounters

/-- A counter that is kept by differences. -/
theorem applyDelta_ofNat {n n' : ℕ} {before after : Bool} (h : n' + before.toNat = n + after.toNat) :
    applyDelta (UInt32.ofNat n) before after = UInt32.ofNat n' := by
  cases before <;> cases after <;> simp only [Bool.toNat_true, Bool.toNat_false, Nat.add_zero] at h
  · rw [h]
    rfl
  · rw [h, UInt32.ofNat_add]
    rfl
  · rw [← h, UInt32.ofNat_add]
    show UInt32.ofNat n' + 1 - 1 = _
    rw [UInt32.add_sub_cancel]
  · rw [Nat.add_right_cancel h]
    rfl

theorem applyDelta_ne (c : UInt32) (after : Bool) : applyDelta c true after ≠ applyDelta c false after := by
  cases after with
  | true => exact (add_one_ne c).symm
  | false =>
    intro heq
    have hsub : c - 1 = c := heq
    refine add_one_ne (c - 1) ?_
    rw [UInt32.sub_add_cancel]
    exact hsub.symm

theorem applyDelta_injective {c : UInt32} {before before' after : Bool}
    (h : applyDelta c before after = applyDelta c before' after) : before = before' := by
  cases before <;> cases before'
  · rfl
  · exact absurd h.symm (applyDelta_ne c after)
  · exact absurd h (applyDelta_ne c after)
  · rfl

/-- The presence before a change can be read off the counters. -/
theorem applyEntryChange_injective {h : HealthCounters} {before before' after : EntryPresence}
    (heq : h.applyEntryChange before after = h.applyEntryChange before' after) : before = before' := by
  obtain ⟨hvector, htext, htags, -⟩ := mk.inj heq
  cases before with
  | mk vector text tags =>
    cases before' with
    | mk vector' text' tags' =>
      obtain rfl : vector = vector' := applyDelta_injective hvector
      obtain rfl : text = text' := applyDelta_injective htext
      obtain rfl : tags = tags' := applyDelta_injective htags
      rfl

/-- A counter would fall below zero. -/
def Underflows (h : HealthCounters) (before after : EntryPresence) : Prop :=
  before.vector = true ∧ after.vector = false ∧ h.vectorCount = 0 ∨
    before.text = true ∧ after.text = false ∧ h.textCount = 0 ∨
    before.tags = true ∧ after.tags = false ∧ h.tagCount = 0

end HealthCounters

/-! ### The scan -/

namespace EngineMemory

def scanPersistenceHealth (e : EngineMemory) : HealthCounters :=
  let payloads := e.store.activeIds.map e.metadata.getPayload
  { e.health with
    vectorCount := e.store.activeCount
    textCount := UInt32.ofNat (payloads.countP fun p => hasText p)
    tagCount := UInt32.ofNat (payloads.countP fun p => hasTags p) }

/-- What the scan counts of an id: a text or tags only under a vector. -/
def counted (e : EngineMemory) (id : UInt32) : EntryPresence where
  vector := (e.store.get id).isSome
  text := (e.store.get id).isSome && hasText (e.metadata.getPayload id)
  tags := (e.store.get id).isSome && hasTags (e.metadata.getPayload id)

/-- A payload with a text or tags, and no vector. -/
def Orphan (e : EngineMemory) (id : UInt32) : Prop := e.counted id ≠ e.entryPresence id

instance (e : EngineMemory) (id : UInt32) : Decidable (e.Orphan id) := inferInstanceAs (Decidable (_ ≠ _))

/-- The counters are those of a scan. -/
def Healthy (e : EngineMemory) : Prop := e.health = e.scanPersistenceHealth

variable {m m' : EngineMemory} {id : UInt32}

/-- The two memories hold the same about every other id. -/
def SameElsewhere (m m' : EngineMemory) (id : UInt32) : Prop :=
  ∀ j, j ≠ id → m'.store.get j = m.store.get j ∧ m'.metadata.getPayload j = m.metadata.getPayload j

/-- A count over the stored ids changes by what changes at the one id. -/
theorem countP_activeIds_change (hm : m.store.Bounded) (hm' : m'.store.Bounded)
    (hsame : m.SameElsewhere m' id) (f : Option Value → Bool) :
    m'.store.activeIds.countP (fun j => f (m'.metadata.getPayload j)) +
        ((m.store.get id).isSome && f (m.metadata.getPayload id)).toNat =
      m.store.activeIds.countP (fun j => f (m.metadata.getPayload j)) +
        ((m'.store.get id).isSome && f (m'.metadata.getPayload id)).toNat := by
  have hmem : ∀ {n : EngineMemory}, n.store.Bounded → ∀ j,
      (j ∈ n.store.stored.filter fun j => f (n.metadata.getPayload j) = true) ↔
        ((n.store.get j).isSome && f (n.metadata.getPayload j)) = true := by
    intro n hn j
    rw [Finset.mem_filter, mem_stored hn, Bool.and_eq_true]
  have hite : ∀ b : Bool, b.toNat = if b = true then 1 else 0 := by
    intro b
    cases b <;> rfl
  rw [countP_activeIds hm, countP_activeIds hm', hite, hite,
    ← if_congr (hmem hm id) rfl rfl, ← if_congr (hmem hm' id) rfl rfl]
  refine card_add_ite fun j hj => ?_
  obtain ⟨hget, hpayload⟩ := hsame j hj
  rw [hmem hm, hmem hm', hget, hpayload]

/-- **What a change of one id does to the scan.** -/
theorem scanPersistenceHealth_change (hm : m.store.Bounded) (hm' : m'.store.Bounded) (hsame : m.SameElsewhere m' id) :
    m'.scanPersistenceHealth =
      { m.scanPersistenceHealth.applyEntryChange (m.counted id) (m'.counted id) with
        corruptCount := m'.health.corruptCount } := by
  have hvector := countP_activeIds_change hm hm' hsame fun _ => true
  have htext := countP_activeIds_change hm hm' hsame fun p => hasText p
  have htags := countP_activeIds_change hm hm' hsame fun p => hasTags p
  simp only [countP_true, Bool.and_true] at hvector
  unfold scanPersistenceHealth applyEntryChange counted
  simp only [activeCount_eq, countP_map, Function.comp_def]
  rw [applyDelta_ofNat hvector, applyDelta_ofNat htext,
    applyDelta_ofNat htags]

/-- **A change by the difference of `entry_presence` keeps the counters right if and only if the
id was not an orphan.** -/
theorem Healthy.change_iff (h : m.Healthy) (hm : m.store.Bounded) (hm' : m'.store.Bounded)
    (hsame : m.SameElsewhere m' id)
    (hhealth : m'.health = m.health.applyEntryChange (m.entryPresence id) (m'.counted id)) :
    m'.Healthy ↔ ¬ m.Orphan id := by
  have hcorrupt : m'.health.corruptCount = m.health.corruptCount := by
    rw [hhealth]
    rfl
  have hscan : m'.scanPersistenceHealth = m.health.applyEntryChange (m.counted id) (m'.counted id) := by
    rw [scanPersistenceHealth_change hm hm' hsame, ← h, hcorrupt]
    rfl
  unfold Healthy Orphan
  rw [hhealth, hscan, not_not]
  constructor
  · intro heq
    exact (applyEntryChange_injective heq).symm
  · intro heq
    rw [heq]

/-- No counter wraps, while there are fewer vectors than ids. -/
theorem Healthy.not_underflows (h : m.Healthy) (hm : m.store.Bounded) (hroom : m.store.activeIds.length < 2 ^ 32)
    (horphan : ¬ m.Orphan id) (after : EntryPresence) : ¬ m.health.Underflows (m.entryPresence id) after := by
  have hpositive : ∀ f : Option Value → Bool,
      ((m.store.get id).isSome && f (m.metadata.getPayload id)) = true →
        UInt32.ofNat (m.store.activeIds.countP fun j => f (m.metadata.getPayload j)) ≠ 0 := by
    intro f hf hzero
    obtain ⟨hstored, hf⟩ := Bool.and_eq_true_iff.1 hf
    have hmem := (mem_activeIds hm).2 hstored
    have hpos : 0 < m.store.activeIds.countP fun j => f (m.metadata.getPayload j) := countP_pos_iff.2 ⟨id, hmem, hf⟩
    have hle : (m.store.activeIds.countP fun j => f (m.metadata.getPayload j)) ≤
        m.store.activeIds.length := countP_le_length
    have hnat := congrArg UInt32.toNat hzero
    rw [UInt32.toNat_ofNat_of_lt' (lt_of_le_of_lt hle hroom)] at hnat
    exact absurd hnat hpos.ne'
  have hpresence : m.entryPresence id = m.counted id := (not_not.1 horphan).symm
  rw [hpresence, h]
  rintro (⟨hbefore, -, hzero⟩ | ⟨hbefore, -, hzero⟩ | ⟨hbefore, -, hzero⟩)
  · refine hpositive (fun _ => true) (by simpa [counted] using hbefore) ?_
    rw [countP_true, ← activeCount_eq]
    exact hzero
  · refine hpositive (fun p => hasText p) hbefore ?_
    rw [← hzero]
    show _ = UInt32.ofNat ((m.store.activeIds.map m.metadata.getPayload).countP fun p => hasText p)
    rw [countP_map]
    rfl
  · refine hpositive (fun p => hasTags p) hbefore ?_
    rw [← hzero]
    show _ = UInt32.ofNat ((m.store.activeIds.map m.metadata.getPayload).countP fun p => hasTags p)
    rw [countP_map]
    rfl

end EngineMemory

/-! ### Histories of one directory -/

/-- The engine's environment at another dimension. -/
def EngineEnv.atDim (env : EngineEnv) (dim : ℕ) : EngineEnv := { env with dim }

/-- A call on the engine, or its end and an `open` of its directory with some dimension. -/
inductive HealthEvent
  | reopen (dim : ℕ) (draw : ℕ → ℕ)
  | write (kind : WriteKind) (iri : String) (vector : EmbeddingVector) (jsonld : Value) (io : Io)
  | delete (iri : String) (io : Io)
  | checkpoint (now : ℕ) (order : HashOrder)

/-- The dimension of the last open, and the engine. -/
structure HealthRun where
  dim : ℕ
  engine : HyperspaceEngine

namespace HealthRun

open EngineMemory HyperspaceEngine

section
variable (env : EngineEnv)

/-- The first open of a directory. -/
def start (dim : ℕ) (draw : ℕ → ℕ) (d : Disk) : Option HealthRun :=
  (openDir (env.atDim dim) draw d).map fun engine => ⟨dim, engine⟩

/-- One event, whatever it returns; `none` is a panic. -/
def step (s : HealthRun) : HealthEvent → Option HealthRun
  | .reopen dim draw => start env dim draw s.engine.disk
  | .write kind iri vector jsonld io =>
    (HyperspaceEngine.write (env.atDim s.dim) kind.op s.engine iri vector jsonld io).map
      fun r => { s with engine := r.1 }
  | .delete iri io =>
    some { s with engine := (HyperspaceEngine.delete (env.atDim s.dim) s.engine iri io).1 }
  | .checkpoint now order =>
    some { s with engine := s.engine.checkpoint (env.atDim s.dim) now order }

def runFrom (s : HealthRun) (events : List HealthEvent) : Option HealthRun := events.foldlM (step env) s

/-- The event takes a counter below zero. -/
def Underflows (s : HealthRun) : HealthEvent → Prop
  | .write kind iri vector jsonld io =>
    ∃ e id, HyperspaceEngine.write (env.atDim s.dim) kind.op s.engine iri vector jsonld io = some (e, .ok id) ∧
      s.engine.health.Underflows (s.engine.entryPresence id) (e.entryPresence id)
  | .delete iri io =>
    ∃ e id, s.engine.registry.resolve iri = some id ∧
      HyperspaceEngine.delete (env.atDim s.dim) s.engine iri io = (e, .ok ()) ∧
        s.engine.health.Underflows (s.engine.entryPresence id) ⟨false, false, false⟩
  | _ => False

/-- No write or delete is of an orphan, and there are fewer vectors than ids. -/
def CleanEvent (s : HealthRun) : HealthEvent → Prop
  | .write _ iri _ _ _ =>
    ¬ s.engine.Orphan (s.engine.registry.register iri).2 ∧ s.engine.store.activeIds.length < 2 ^ 32
  | .delete iri _ =>
    ∀ id, s.engine.registry.resolve iri = some id → ¬ s.engine.Orphan id ∧ s.engine.store.activeIds.length < 2 ^ 32
  | _ => True

/-- Every event of the history is clean in the state it finds. -/
def CleanRun (s : HealthRun) : List HealthEvent → Prop
  | [] => True
  | event :: events =>
    s.CleanEvent event ∧ match s.step env event with
      | some s' => CleanRun s' events
      | none => True

end

variable {env : EngineEnv} {s s' : HealthRun} {event : HealthEvent}

/-- What holds after every event. -/
structure Counts (s : HealthRun) : Prop where
  healthy : s.engine.Healthy
  bounded : s.engine.store.Bounded

theorem counts_start {dim : ℕ} {draw : ℕ → ℕ} {d : Disk} (h : start env dim draw d = some s) : s.Counts := by
  obtain ⟨e, hopen, rfl⟩ := map_eq_some_iff.1 h
  rw [openDir_eq] at hopen
  obtain ⟨m, hm, rfl⟩ := map_eq_some_iff.1 hopen
  have hfresh : (fresh (env.atDim dim)).store.Bounded := bounded_new _
  have hbounded : m.store.Bounded :=
    replayEntries_store VectorStore.Bounded.set (fun id hs => hs.remove id)
      (loadSnapshotFile_store VectorStore.Bounded.set hfresh _) hm
  exact ⟨rfl, hbounded⟩

variable {e e' : HyperspaceEngine} {iri : String} {id : UInt32} {op : UInt32 → String → WalOp} {io : Io}

variable {vector : EmbeddingVector} {jsonld : Value}

/-- The counters of a write that goes through. -/
theorem health_write (h : write env op e iri vector jsonld io = some (e', .ok id)) :
    e'.health = e.health.applyEntryChange (e.entryPresence id) (e'.entryPresence id) := by
  unfold write at h
  simp only at h
  split at h
  · cases h
  · split at h
    · cases h
    · obtain ⟨index, -, h⟩ := bind_eq_some_iff.1 h
      cases h
      rfl

/-- The counters of a delete that goes through. -/
theorem health_delete
    (hres : e.registry.resolve iri = some id) (h : delete env e iri io = (e', .ok ())) :
    e'.health = e.health.applyEntryChange (e.entryPresence id) ⟨false, false, false⟩ := by
  unfold delete at h
  simp only [hres] at h
  split at h
  · cases h
  · cases h
    rfl

/-- A write that goes through changes one id, and leaves it with a vector. -/
theorem sameElsewhere_write (hb : e.store.Bounded)
    (h : write env op e iri vector jsonld io = some (e', .ok id)) :
    id = (e.registry.register iri).2 ∧ e'.store.Bounded ∧
      e.toEngineMemory.SameElsewhere e'.toEngineMemory id ∧ ¬ e'.Orphan id := by
  obtain ⟨wal, res, -, hcases⟩ := write_cases env h
  rcases hcases with ⟨err, -, hr, -⟩ | ⟨err, -, -, hr, -⟩ | ⟨store, index, health, -, hset, -, hr, rfl⟩
  · cases hr
  · cases hr
  · cases hr
    have hget : store.get (e.registry.register iri).2 = some vector.asBytes := by
      rw [get_set hset, if_pos rfl]
    refine ⟨rfl, hb.set hset, ?_, ?_⟩
    · intro j hj
      refine ⟨?_, ?_⟩
      · show store.get j = e.store.get j
        rw [get_set hset, if_neg hj]
      · show ((e.metadata.index env.fa _ jsonld).undelete _).getPayload j = _
        rw [JsonLdMetadataIndex.getPayload_undelete, JsonLdMetadataIndex.getPayload_index, if_neg hj]
    · refine not_not.2 ?_
      unfold counted entryPresence
      show EntryPresence.mk (store.get _).isSome ((store.get _).isSome && _)
        ((store.get _).isSome && _) = EntryPresence.mk (store.get _).isSome _ _
      rw [hget]
      rfl

/-- A delete that goes through changes one id, and leaves nothing of it. -/
theorem sameElsewhere_delete (hb : e.store.Bounded)
    (hres : e.registry.resolve iri = some id) (h : delete env e iri io = (e', .ok ())) :
    e'.store.Bounded ∧ e.toEngineMemory.SameElsewhere e'.toEngineMemory id ∧ e'.counted id = ⟨false, false, false⟩ := by
  rcases delete_cases env h with ⟨-, -, hr⟩ | ⟨id', wal, res, hres', -, hcases⟩
  · cases hr
  · obtain rfl : id' = id := some.inj (hres'.symm.trans hres)
    rcases hcases with ⟨err, -, hr, -⟩ | ⟨health, -, -, rfl⟩
    · cases hr
    · refine ⟨hb.remove id', ?_, ?_⟩
      · intro j hj
        refine ⟨?_, ?_⟩
        · show (e.store.remove id').get j = e.store.get j
          rw [get_remove, if_neg hj]
        · show (e.metadata.remove id').getPayload j = e.metadata.getPayload j
          rw [JsonLdMetadataIndex.getPayload_remove, if_neg hj]
      · unfold counted
        show EntryPresence.mk ((e.store.remove id').get id').isSome
          (((e.store.remove id').get id').isSome && _)
          (((e.store.remove id').get id').isSome && _) = _
        rw [get_remove, if_pos rfl]
        rfl

/-- **A clean event keeps the counters right and takes none below zero.** -/
theorem Counts.step (h : s.Counts) (hclean : s.CleanEvent event) (hstep : s.step env event = some s') : s'.Counts := by
  cases event with
  | reopen dim draw => exact counts_start hstep
  | write kind iri vector jsonld io =>
    obtain ⟨⟨e', r⟩, hwrite, rfl⟩ := map_eq_some_iff.1 hstep
    cases r with
    | error err =>
      obtain ⟨wal, res, -, hcases⟩ := write_cases _ hwrite
      rcases hcases with ⟨_, -, -, rfl⟩ | ⟨_, -, -, -, rfl⟩ | ⟨_, _, _, -, -, -, hr, -⟩
      · exact ⟨h.healthy, h.bounded⟩
      · exact ⟨h.healthy, h.bounded⟩
      · cases hr
    | ok id =>
      obtain ⟨rfl, hbounded, hsame, hkept⟩ := sameElsewhere_write h.bounded hwrite
      have hhealth := health_write hwrite
      rw [← not_not.1 hkept] at hhealth
      exact ⟨(h.healthy.change_iff h.bounded hbounded hsame hhealth).2 hclean.1, hbounded⟩
  | delete iri io =>
    cases hstep
    cases hdelete : delete (env.atDim s.dim) s.engine iri io with
    | mk e' r =>
      cases r with
      | error err =>
        rcases delete_cases _ hdelete with ⟨-, rfl, -⟩ | ⟨_, _, _, -, -, ⟨_, -, -, rfl⟩ | ⟨_, -, hr, -⟩⟩
        · exact h
        · exact ⟨h.healthy, h.bounded⟩
        · cases hr
      | ok =>
        cases hres : s.engine.registry.resolve iri with
        | none =>
          rcases delete_cases _ hdelete with ⟨-, -, hr⟩ | ⟨_, _, _, hres', -, -⟩
          · cases hr
          · rw [hres] at hres'
            cases hres'
        | some id =>
          obtain ⟨hbounded, hsame, hnone⟩ := sameElsewhere_delete h.bounded hres hdelete
          have hhealth := health_delete hres hdelete
          rw [← hnone] at hhealth
          exact ⟨(h.healthy.change_iff h.bounded hbounded hsame hhealth).2 (hclean id hres).1, hbounded⟩
  | checkpoint now order =>
    cases hstep
    exact ⟨h.healthy, h.bounded⟩

theorem Counts.not_underflows (h : s.Counts) (hclean : s.CleanEvent event) : ¬ s.Underflows env event := by
  cases event with
  | reopen dim draw => exact id
  | write kind iri vector jsonld io =>
    rintro ⟨e', id, hwrite, hunder⟩
    obtain ⟨rfl, -⟩ := sameElsewhere_write h.bounded hwrite
    exact h.healthy.not_underflows h.bounded hclean.2 hclean.1 _ hunder
  | delete iri io =>
    rintro ⟨e', id, hres, -, hunder⟩
    obtain ⟨horphan, hroom⟩ := hclean id hres
    exact h.healthy.not_underflows h.bounded hroom horphan _ hunder
  | checkpoint now order => exact id

/-- **After every event of a clean history the counters are those of a scan, and the next event
takes none below zero.** -/
theorem health_cleanRun (env : EngineEnv) {dim : ℕ} {draw : ℕ → ℕ} {d : Disk} (hstart : start env dim draw d = some s)
    {before after : List HealthEvent} (hclean : s.CleanRun env (before ++ after))
    (hrun : s.runFrom env before = some s') :
    s'.engine.health = s'.engine.scanPersistenceHealth ∧ ∀ event ∈ after.head?, ¬ s'.Underflows env event := by
  have hcounts := counts_start hstart
  clear hstart
  induction before generalizing s with
  | nil =>
    cases hrun
    refine ⟨hcounts.healthy, ?_⟩
    intro event hevent
    cases after with
    | nil => cases hevent
    | cons event' after =>
      cases hevent
      exact hcounts.not_underflows hclean.1
  | cons event before ih =>
    obtain ⟨s₁, hstep, hrest⟩ := bind_eq_some_iff.1 hrun
    obtain ⟨hevent, hevents⟩ := hclean
    rw [hstep] at hevents
    exact ih hevents hrest (hcounts.step hevent hstep)

/-- An insert and a delete, with a checkpoint to follow. -/
theorem health_cleanRun_delete : ∃ s s', start planeEnv 2 (fun _ => 0) emptyEngine.disk = some s ∧
      s.runFrom planeEnv [.write .insert "a" unitX (.object []) (quiet 0), .delete "a" (quiet 0)] = some s' ∧
      s'.engine.health = s'.engine.scanPersistenceHealth ∧
      ¬ s'.Underflows planeEnv (.checkpoint 1 entryOrder) := by
  have hstart : (start planeEnv 2 (fun _ => 0) emptyEngine.disk).map (fun s =>
      decide (¬ s.engine.Orphan (s.engine.registry.register "a").2 ∧
        s.engine.store.activeIds.length < 2 ^ 32)) = some true := by decide +kernel
  obtain ⟨s, hs, hdecided⟩ := map_eq_some_iff.1 hstart
  have hinsert : s.CleanEvent (.write .insert "a" unitX (.object []) (quiet 0)) := by
    exact @of_decide_eq_true (_ ∧ _) _ hdecided
  have hfirst : ((start planeEnv 2 (fun _ => 0) emptyEngine.disk).bind fun s =>
      s.step planeEnv (.write .insert "a" unitX (.object []) (quiet 0))).map (fun s =>
        decide (s.engine.registry.resolve "a" = some 1 ∧ ¬ s.engine.Orphan 1 ∧
          s.engine.store.activeIds.length < 2 ^ 32)) = some true := by decide +kernel
  rw [hs] at hfirst
  obtain ⟨s₁, hs₁, hdelete⟩ := map_eq_some_iff.1 hfirst
  obtain ⟨hres, horphan, hroom⟩ := of_decide_eq_true hdelete
  have hclean : s.CleanRun planeEnv ([.write .insert "a" unitX (.object []) (quiet 0),
      .delete "a" (quiet 0)] ++ [.checkpoint 1 entryOrder]) := by
    have hs₁' : s.step planeEnv (.write .insert "a" unitX (.object []) (quiet 0)) = some s₁ := hs₁
    refine ⟨hinsert, ?_⟩
    rw [hs₁']
    refine ⟨?_, trivial, trivial⟩
    intro id hid
    obtain rfl : 1 = id := some.inj (hres.symm.trans hid)
    exact ⟨horphan, hroom⟩
  have hrun : s.runFrom planeEnv [.write .insert "a" unitX (.object []) (quiet 0),
      .delete "a" (quiet 0)] =
        some ⟨s₁.dim, (HyperspaceEngine.delete (planeEnv.atDim s₁.dim) s₁.engine "a" (quiet 0)).1⟩ := by
    show (s.step planeEnv _ >>= fun s => s.step planeEnv _ >>= pure) = _
    rw [show s.step planeEnv (.write .insert "a" unitX (.object []) (quiet 0)) = some s₁ from hs₁]
    rfl
  obtain ⟨hhealth, hunder⟩ := health_cleanRun planeEnv hs hclean hrun
  exact ⟨s, _, hs, hrun, hhealth, hunder _ rfl⟩

/-- The plane, with a payload that has a text. -/
def textEnv : EngineEnv :=
  { planeEnv with
    toJson := fun _ => "\x7b\"text\":\"t\"\x7d"
    fromJson := fun _ => some (.object [("text", .string "t")]) }

set_option maxRecDepth 20000 in
/-- The open with another dimension restores the payload and drops the vector; the delete that
follows takes the text counter from zero to its largest value. -/
theorem not_healthy_otherDimension : ∃ s s', start textEnv 2 (fun _ => 0) emptyEngine.disk = some s ∧
      s.runFrom textEnv [.write .insert "a" unitX (.object [("text", .string "t")]) (quiet 0),
        .checkpoint 1 entryOrder, .reopen 3 (fun _ => 0), .delete "a" (quiet 2)] = some s' ∧
      s'.engine.health.textCount = 4294967295 ∧ s'.engine.scanPersistenceHealth.textCount = 0 ∧
      s'.engine.health ≠ s'.engine.scanPersistenceHealth := by
  have hcompute : (start textEnv 2 (fun _ => 0) emptyEngine.disk).map (fun s =>
      (s.runFrom textEnv [.write .insert "a" unitX (.object [("text", .string "t")]) (quiet 0),
        .checkpoint 1 entryOrder, .reopen 3 (fun _ => 0), .delete "a" (quiet 2)]).map fun s =>
          (s.engine.health.textCount, s.engine.scanPersistenceHealth.textCount)) =
      some (some (4294967295, 0)) := by decide +kernel
  obtain ⟨s, hs, hrun⟩ := map_eq_some_iff.1 hcompute
  obtain ⟨s', hs', heq⟩ := map_eq_some_iff.1 hrun
  obtain ⟨hcount, hscan⟩ := Prod.mk.inj heq
  refine ⟨s, s', hs, hs', hcount, hscan, ?_⟩
  intro hsame
  rw [hsame, hscan] at hcount
  exact absurd hcount (by decide)

end HealthRun

end WildAgentOs.Engine
