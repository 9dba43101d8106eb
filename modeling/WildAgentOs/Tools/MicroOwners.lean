import WildAgentOs.Tools.MicroStore

/-!
# Stored tool results belong to their owners

Histories of the store of result readers, with the time and the order in which the searches through its maps come to
the groups.

* `MicroRun.Op`, `MicroRun.run`;
* `LastRegistered`, `LastStored`: what a history says about a reader, and about a result;
* `Tracks`: the invariant;
* `Owned`, `owned_run`.
-/

namespace WildAgentOs.Tools

open MicroToolStore List Eviction

/-! ### One table -/

section Table

variable {α κ : Type*} [DecidableEq κ] {cfg : MicroToolConfig} {fields : Eviction.Fields α κ String}
  {finder : Eviction.Finder α String} {created : α → ℕ} {now : ℕ} {entries : List α} {entry : α}

theorem pruneTable_sublist : (pruneTable cfg fields finder created now entries).Sublist entries :=
  (evictOverCapacity_sublist.trans evictOverQuota_sublist).trans filter_sublist

theorem count_pruneTable_le (group : String) :
    count fields group (pruneTable cfg fields finder created now entries) ≤ cfg.tenantQuota :=
  (count_le_of_sublist evictOverCapacity_sublist).trans (count_evictOverQuota_le le_rfl group)

theorem length_pruneTable_le : (pruneTable cfg fields finder created now entries).length ≤ maxMicroToolEntries :=
  length_evictOverCapacity_le le_rfl

/-- The newest entry is not the one that is evicted, and it is not expired. -/
theorem mem_pruneTable_of_newest (hkeys : (entries.map fields.key).Nodup) (hentry : entry ∈ entries)
    (hcreated : created entry = now)
    (hnewest : ∀ other ∈ entries, other ≠ entry → fields.seq other < fields.seq entry) :
    entry ∈ pruneTable cfg fields finder created now entries := by
  have hlive : entry ∈ entries.filter fun entry => decide (now - created entry < cfg.ttl) := by
    rw [mem_filter, decide_eq_true_eq, hcreated, Nat.sub_self]
    exact ⟨hentry, cfg.ttl_pos⟩
  have hliveKeys := hkeys.sublist ((filter_sublist (p := fun e => decide (now - created e < cfg.ttl))).map fields.key)
  have hwithin : entry ∈ evictOverQuota fields finder cfg.tenantQuota
      (entries.filter fun entry => decide (now - created entry < cfg.ttl)).length
      (entries.filter fun entry => decide (now - created entry < cfg.ttl)) :=
    mem_evictOverQuota_of_newest cfg.tenantQuota_pos hliveKeys hlive fun other hother =>
      hnewest other (mem_filter.1 hother).1
  refine mem_evictOverCapacity_of_newest (by decide) ?_ hwithin fun other hother => ?_
  · exact hliveKeys.sublist (evictOverQuota_sublist.map fields.key)
  · exact hnewest other (mem_filter.1 (evictOverQuota_sublist.subset hother)).1

/-- An entry that is not expired, in a group within its quota, stays in a table within its capacity. -/
theorem mem_pruneTable (hkeys : (entries.map fields.key).Nodup) (hentry : entry ∈ entries)
    (hlive : now - created entry < cfg.ttl) (hcount : count fields (fields.group entry) entries ≤ cfg.tenantQuota)
    (hlength : entries.length ≤ maxMicroToolEntries) :
    entry ∈ pruneTable cfg fields finder created now entries := by
  unfold pruneTable
  simp only
  rw [evictOverCapacity_of_length_le]
  · refine mem_evictOverQuota_of_count_le (hkeys.sublist (filter_sublist.map fields.key)) ?_
      ((count_le_of_sublist filter_sublist).trans hcount)
    exact mem_filter.2 ⟨hentry, decide_eq_true hlive⟩
  · exact (evictOverQuota_sublist.length_le.trans filter_sublist.length_le).trans hlength

end Table

section TableOk

variable {α κ : Type*} {cfg : MicroToolConfig} {fields : Eviction.Fields α κ String} {finder : Eviction.Finder α String}
  {created : α → ℕ} {now : ℕ} {entries : List α} {entry : α}

/-- A table along a history: keys name its entries, the next number is above theirs, every entry is what the history
records, and the table is within the quotas and the capacity. -/
structure TableOk (cfg : MicroToolConfig) (fields : Eviction.Fields α κ String) (nextSeq : ℕ) (Recorded : α → Prop)
    (entries : List α) : Prop where
  keys : (entries.map fields.key).Nodup
  seq : ∀ entry ∈ entries, fields.seq entry ≤ nextSeq
  recorded : ∀ entry ∈ entries, Recorded entry
  quota : ∀ group, Eviction.count fields group entries ≤ cfg.tenantQuota
  capacity : entries.length ≤ maxMicroToolEntries

variable {nextSeq : ℕ} {Recorded Recorded' : α → Prop}

theorem tableOk_nil : TableOk cfg fields nextSeq Recorded [] where
  keys := nodup_nil
  seq := fun _ h => absurd h not_mem_nil
  recorded := fun _ h => absurd h not_mem_nil
  quota := fun _ => Nat.zero_le _
  capacity := Nat.zero_le _

/-- Entries may go, and the history may go on. -/
theorem TableOk.sublist (h : TableOk cfg fields nextSeq Recorded entries) {fewer : List α}
    (hfewer : fewer.Sublist entries)
    {nextSeq' : ℕ} (hseq : nextSeq ≤ nextSeq') (hrecorded : ∀ entry ∈ fewer, Recorded entry → Recorded' entry) :
    TableOk cfg fields nextSeq' Recorded' fewer where
  keys := h.keys.sublist (hfewer.map fields.key)
  seq := fun entry hentry => (h.seq entry (hfewer.subset hentry)).trans hseq
  recorded := fun entry hentry => hrecorded entry hentry (h.recorded entry (hfewer.subset hentry))
  quota := fun group => (count_le_of_sublist hfewer).trans (h.quota group)
  capacity := hfewer.length_le.trans h.capacity

variable [DecidableEq κ] (h : TableOk cfg fields nextSeq Recorded entries)
include h

theorem TableOk.insert_keys : ((entry :: remove fields (fields.key entry) entries).map fields.key).Nodup := by
  rw [map_cons, nodup_cons]
  refine ⟨fun hmem => ?_, nodup_remove _ h.keys⟩
  obtain ⟨other, hother, hkey⟩ := mem_map.1 hmem
  exact (mem_remove.1 hother).2 hkey

/-- A new entry replaces the one of its key, and the table is pruned. -/
theorem TableOk.insert (hseq : fields.seq entry = nextSeq + 1) (hentry : Recorded' entry)
    (hrecorded : ∀ other ∈ entries, fields.key other ≠ fields.key entry → Recorded other → Recorded' other) :
    TableOk cfg fields (nextSeq + 1) Recorded'
      (pruneTable cfg fields finder created now (entry :: remove fields (fields.key entry) entries)) where
  keys := h.insert_keys.sublist (pruneTable_sublist.map fields.key)
  seq := fun other hother => by
    rcases mem_cons.1 (pruneTable_sublist.subset hother) with rfl | hold
    · exact hseq.le
    · exact (h.seq other (mem_remove.1 hold).1).trans (Nat.le_succ nextSeq)
  recorded := fun other hother => by
    rcases mem_cons.1 (pruneTable_sublist.subset hother) with rfl | hold
    · exact hentry
    · obtain ⟨hmem, hkey⟩ := mem_remove.1 hold
      exact hrecorded other hmem hkey (h.recorded other hmem)
  quota := count_pruneTable_le
  capacity := length_pruneTable_le

/-- The entry that was just written is there. -/
theorem TableOk.mem_insert (hseq : fields.seq entry = nextSeq + 1) (hcreated : created entry = now) :
    entry ∈ pruneTable cfg fields finder created now (entry :: remove fields (fields.key entry) entries) := by
  refine mem_pruneTable_of_newest h.insert_keys mem_cons_self hcreated fun other hother hne => ?_
  have hold := (mem_cons.1 hother).resolve_left hne
  rw [hseq]
  exact Nat.lt_succ_of_le (h.seq other (mem_remove.1 hold).1)

variable {other : α}

/-- An entry of another group and another key is spared while the table is within its capacity. -/
theorem TableOk.insert_spares (hother : other ∈ entries) (hkey : fields.key other ≠ fields.key entry)
    (hgroup : fields.group other ≠ fields.group entry) (hlive : now - created other < cfg.ttl)
    (hlength : (entry :: Eviction.remove fields (fields.key entry) entries).length ≤ maxMicroToolEntries) :
    other ∈ pruneTable cfg fields finder created now (entry :: Eviction.remove fields (fields.key entry) entries) := by
  refine mem_pruneTable h.insert_keys (mem_cons_of_mem _ (Eviction.mem_remove.2 ⟨hother, hkey⟩)) hlive ?_ hlength
  have hcount : Eviction.count fields (fields.group other) (entry :: Eviction.remove fields (fields.key entry) entries) =
      Eviction.count fields (fields.group other) (Eviction.remove fields (fields.key entry) entries) := by
    unfold Eviction.count Eviction.ofGroup
    rw [filter_cons_of_neg]
    simpa using Ne.symm hgroup
  rw [hcount]
  exact (Eviction.count_le_of_sublist (Eviction.remove_sublist _)).trans (h.quota _)

/-- A table that is pruned without a new entry loses what is expired. -/
theorem TableOk.prune_spares (hother : other ∈ entries) (hlive : now - created other < cfg.ttl) :
    other ∈ pruneTable cfg fields finder created now entries :=
  mem_pruneTable h.keys hother hlive (h.quota _) h.capacity

end TableOk

/-! ### Histories -/

inductive MicroOp
  | registerReader (toolName : String) (context : MicroToolContext) (finders : Finders)
  | storeData (owner : MicroToolOwner) (callId : String) (value : Json.Value) (finders : Finders)
  | removeRun (runId : String)
  | removeReadersNamed (toolName : String)
  | advance (nanos : ℕ)

/-- A history: the store, the time, and the operations with their times, the last one first. -/
structure MicroRun where
  store : MicroToolStore
  now : ℕ
  history : List (ℕ × MicroOp)

namespace MicroOp

/-- What an operation does to the store. -/
def apply (cfg : MicroToolConfig) (now : ℕ) (store : MicroToolStore) : MicroOp → MicroToolStore
  | registerReader toolName context finders => store.registerReader cfg finders now toolName context
  | storeData owner callId value finders => store.storeData cfg finders now owner (owner.storageKey callId) value
  | removeRun runId => store.removeRun runId
  | removeReadersNamed toolName => store.removeReadersNamed toolName
  | advance _ => store

/-- The operation registers the owner's reader again, or removes it. -/
def Touches (owner : MicroToolOwner) (name : String) : MicroOp → Prop
  | registerReader toolName context _ => toolName = name ∧ context.owner = owner
  | removeRun runId => runId = owner.runId
  | removeReadersNamed toolName => toolName = name
  | _ => False

/-- The operation stores the owner's result under the key again, or removes it. -/
def Rewrites (owner : MicroToolOwner) (key : String) : MicroOp → Prop
  | storeData owner' callId _ _ => owner' = owner ∧ owner'.storageKey callId = key
  | removeRun runId => runId = owner.runId
  | _ => False

end MicroOp

namespace MicroRun

def start : MicroRun := ⟨.empty, 0, []⟩

def step (cfg : MicroToolConfig) (σ : MicroRun) (op : MicroOp) : MicroRun :=
  ⟨op.apply cfg σ.now σ.store, match op with
    | .advance nanos => σ.now + nanos
    | _ => σ.now, (σ.now, op) :: σ.history⟩

def run (cfg : MicroToolConfig) (ops : List MicroOp) : MicroRun := ops.foldl (step cfg) start

theorem run_concat (cfg : MicroToolConfig) (ops : List MicroOp) (op : MicroOp) :
    run cfg (ops ++ [op]) = (run cfg ops).step cfg op := by
  rw [run, foldl_append]
  rfl

/-- The last registration of a reader by its owner, not removed since. -/
def LastRegistered (history : List (ℕ × MicroOp)) (owner : MicroToolOwner) (name : String)
    (context : MicroToolContext) (time : ℕ) : Prop :=
  ∃ later earlier finders, history = later ++ (time, .registerReader name context finders) :: earlier ∧
    context.owner = owner ∧ ∀ event ∈ later, ¬event.2.Touches owner name

/-- The last result that an owner stored under a key, not removed since. -/
def LastStored (history : List (ℕ × MicroOp)) (owner : MicroToolOwner) (key : String) (value : Json.Value)
    (time : ℕ) : Prop :=
  ∃ later earlier callId finders, history = later ++ (time, .storeData owner callId value finders) :: earlier ∧
    owner.storageKey callId = key ∧ ∀ event ∈ later, ¬event.2.Rewrites owner key

/-- **Results belong to their owners**: what is looked up is the owner's last registration with the owner's last
result under its key, neither of them expired; every tenant is within its quota; a write spares what other tenants have
while its table, with the new entry, is within the capacity; and what is written is there. -/
structure Owned (cfg : MicroToolConfig) (σ : MicroRun) : Prop where
  lookup : ∀ owner name context value, σ.store.lookup cfg σ.now owner name = some (context, value) →
    ∃ registered stored, LastRegistered σ.history owner name context registered ∧ σ.now - registered < cfg.ttl ∧
      LastStored σ.history owner context.storageKey value stored ∧ σ.now - stored < cfg.ttl
  quota : ∀ tenant, Eviction.count readerFields tenant σ.store.readers ≤ cfg.tenantQuota ∧
    Eviction.count dataFields tenant σ.store.data ≤ cfg.tenantQuota
  reader_spares : ∀ toolName context finders,
    (σ.store.insertReader σ.now toolName context).readers.length ≤ maxMicroToolEntries →
    (∀ entry ∈ σ.store.readers, entry.context.owner.tenantId ≠ context.owner.tenantId →
      σ.now - entry.created < cfg.ttl → entry ∈ (σ.step cfg (.registerReader toolName context finders)).store.readers) ∧
    ∀ entry ∈ σ.store.data, σ.now - entry.created < cfg.ttl →
      entry ∈ (σ.step cfg (.registerReader toolName context finders)).store.data
  data_spares : ∀ owner callId value finders,
    (σ.store.insertData σ.now owner (owner.storageKey callId) value).data.length ≤ maxMicroToolEntries →
    (∀ entry ∈ σ.store.data, entry.owner.tenantId ≠ owner.tenantId →
      σ.now - entry.created < cfg.ttl → entry ∈ (σ.step cfg (.storeData owner callId value finders)).store.data) ∧
    ∀ entry ∈ σ.store.readers, σ.now - entry.created < cfg.ttl →
      entry ∈ (σ.step cfg (.storeData owner callId value finders)).store.readers
  reader_written : ∀ toolName context finders, ⟨toolName, context, σ.store.nextSeq + 1, σ.now⟩ ∈
    (σ.step cfg (.registerReader toolName context finders)).store.readers
  data_written : ∀ owner callId value finders, ⟨owner.storageKey callId, owner, value, σ.store.nextSeq + 1, σ.now⟩ ∈
    (σ.step cfg (.storeData owner callId value finders)).store.data

/-- What the tables are, along a history. -/
structure Tracks (cfg : MicroToolConfig) (σ : MicroRun) : Prop where
  readers : TableOk cfg readerFields σ.store.nextSeq
    (fun entry => LastRegistered σ.history entry.context.owner entry.name entry.context entry.created) σ.store.readers
  data : TableOk cfg dataFields σ.store.nextSeq
    (fun entry => LastStored σ.history entry.owner entry.key entry.value entry.created) σ.store.data

variable {cfg : MicroToolConfig} {σ : MicroRun}

theorem tracks_start : Tracks cfg start := ⟨tableOk_nil, tableOk_nil⟩

variable {owner : MicroToolOwner} {history : List (ℕ × MicroOp)} {context : MicroToolContext} {event : ℕ × MicroOp}

variable {time : ℕ}

theorem LastRegistered.cons {name : String} (h : LastRegistered history owner name context time)
    (hevent : ¬event.2.Touches owner name) : LastRegistered (event :: history) owner name context time := by
  obtain ⟨later, earlier, finders, rfl, howner, hlater⟩ := h
  exact ⟨event :: later, earlier, finders, rfl, howner, forall_mem_cons.2 ⟨hevent, hlater⟩⟩

variable {value : Json.Value}

theorem LastStored.cons {key : String} (h : LastStored history owner key value time)
    (hevent : ¬event.2.Rewrites owner key) : LastStored (event :: history) owner key value time := by
  obtain ⟨later, earlier, callId, finders, rfl, hkey, hlater⟩ := h
  exact ⟨event :: later, earlier, callId, finders, rfl, hkey, forall_mem_cons.2 ⟨hevent, hlater⟩⟩

theorem Tracks.step (h : Tracks cfg σ) (op : MicroOp) : Tracks cfg (σ.step cfg op) := by
  cases op with
  | registerReader toolName context finders =>
    constructor
    · refine h.readers.insert rfl ⟨[], σ.history, finders, rfl, rfl, fun _ h => absurd h not_mem_nil⟩
        fun other _ hkey hrecorded => hrecorded.cons ?_
      rintro ⟨hname, howner⟩
      exact hkey (Prod.ext howner.symm hname.symm)
    · exact h.data.sublist pruneTable_sublist (Nat.le_succ _) fun other _ hrecorded => hrecorded.cons id
  | storeData owner callId value finders =>
    constructor
    · exact h.readers.sublist pruneTable_sublist (Nat.le_succ _) fun other _ hrecorded => hrecorded.cons id
    · refine h.data.insert rfl ⟨[], σ.history, callId, finders, rfl, rfl, fun _ h => absurd h not_mem_nil⟩
        fun other _ hkey hrecorded => hrecorded.cons ?_
      rintro ⟨rfl, hsame⟩
      exact hkey hsame.symm
  | removeRun runId =>
    constructor
    · refine h.readers.sublist filter_sublist le_rfl fun other hother hrecorded => hrecorded.cons ?_
      exact fun hrun => of_decide_eq_true (mem_filter.1 hother).2 hrun.symm
    · refine h.data.sublist filter_sublist le_rfl fun other hother hrecorded => hrecorded.cons ?_
      exact fun hrun => of_decide_eq_true (mem_filter.1 hother).2 hrun.symm
  | removeReadersNamed toolName =>
    constructor
    · refine h.readers.sublist filter_sublist le_rfl fun other hother hrecorded => hrecorded.cons ?_
      exact fun hname => of_decide_eq_true (mem_filter.1 hother).2 hname.symm
    · exact h.data.sublist (Sublist.refl _) le_rfl fun other _ hrecorded => hrecorded.cons id
  | advance nanos =>
    exact ⟨h.readers.sublist (Sublist.refl _) le_rfl fun other _ hrecorded => hrecorded.cons id,
      h.data.sublist (Sublist.refl _) le_rfl fun other _ hrecorded => hrecorded.cons id⟩

theorem tracks_run (cfg : MicroToolConfig) (ops : List MicroOp) : Tracks cfg (run cfg ops) := by
  induction ops using reverseRecOn with
  | nil => exact tracks_start
  | append_singleton ops op ih => exact run_concat cfg ops op ▸ ih.step op

/-- What is looked up is in both tables. -/
theorem lookup_eq_some {now : ℕ} {store : MicroToolStore} {toolName : String}
    (h : store.lookup cfg now owner toolName = some (context, value)) :
    ∃ reader ∈ store.readers, ∃ data ∈ store.data, reader.context = context ∧ context.owner = owner ∧
      reader.name = toolName ∧ now - reader.created < cfg.ttl ∧ data.key = context.storageKey ∧ data.owner = owner ∧
      data.value = value ∧ now - data.created < cfg.ttl := by
  unfold MicroToolStore.lookup at h
  obtain ⟨reader, hreader, hdata⟩ := Option.bind_eq_some_iff.1 h
  obtain ⟨data, hfound, hpair⟩ := Option.map_eq_some_iff.1 hdata
  cases hpair
  obtain ⟨hfindReader, hreaderLive⟩ := Option.filter_eq_some_iff.1 hreader
  obtain ⟨hfindData, hdataLive⟩ := Option.filter_eq_some_iff.1 hfound
  have hreaderKey := find?_some hfindReader
  have hdataKey := find?_some hfindData
  rw [decide_eq_true_eq] at hreaderLive hdataLive hreaderKey hdataKey
  obtain ⟨howner, hname⟩ := Prod.mk.inj hreaderKey
  exact ⟨reader, mem_of_find?_eq_some hfindReader, data, mem_of_find?_eq_some hfindData, rfl, howner, hname,
    hreaderLive, hdataKey, hdataLive.1, rfl, hdataLive.2⟩

/-- **Both tables are bounded and hold each key once**, after every history. -/
theorem tables_run (cfg : MicroToolConfig) (ops : List MicroOp) :
    ((run cfg ops).store.readers.length ≤ maxMicroToolEntries ∧ ((run cfg ops).store.readers.map readerFields.key).Nodup) ∧
      (run cfg ops).store.data.length ≤ maxMicroToolEntries ∧ ((run cfg ops).store.data.map dataFields.key).Nodup := by
  obtain ⟨hreaders, hdata⟩ := tracks_run cfg ops
  exact ⟨⟨hreaders.capacity, hreaders.keys⟩, hdata.capacity, hdata.keys⟩

end MicroRun

end WildAgentOs.Tools
