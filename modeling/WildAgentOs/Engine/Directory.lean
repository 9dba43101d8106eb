import WildAgentOs.Engine.SnapshotLoad

/-!
# What a directory stores

The snapshot and the log of a directory make up a ledger: the changes of the log, on the ledger
of the snapshot.

* `WholeLog`, `DiskHolds`, `DiskHolds.openDir`, `DiskHolds.append`, `DiskHolds.rotate`, `DiskHolds.snapshotted`.
-/

namespace WildAgentOs.Engine

open LittleEndian Json IncrementalHNSW EngineMemory HyperspaceEngine List EngineWal

section
variable (env : EngineEnv)

/-- The changes recorded in a list of entries. -/
def changesOf (entries : List Entry) : List Change := entries.filterMap (recordOf env)

/-- The changes the segments of a log deliver, as writes to the content. -/
def logEffects (wal : EngineWal) : List (UInt32 × Option (EmbeddingVector × Value)) :=
  (changesOf env (wal.recovered env.crc)).map Change.effect

/-- A log of whole packets, its frozen segments in the order of their names. -/
structure WholeLog (crc : Bytes → UInt32) (w : EngineWal) : Prop where
  ordered : w.Ordered
  frozen : ∀ s ∈ w.frozen, Whole crc s.bytes
  active : Whole crc w.active

/-- The snapshot of a directory and the changes of its log make up the ledger. -/
structure DiskHolds (snapshot : SnapshotFile) (wal : EngineWal) (l : Ledger) : Prop where
  log : WholeLog env.crc wal
  recorded : ∀ x ∈ wal.recovered env.crc, ∃ c, Recorded env x c ∧ c.Within env l
  base : ∃ base, Holds env ((fresh env).loadSnapshotFile env snapshot) base ∧ base.Within l ∧
    base.applyAll (changesOf env (wal.recovered env.crc)) = l

end

variable {env : EngineEnv} {d : Disk} {e : HyperspaceEngine} {l : Ledger} {crc : Bytes → UInt32}
  {w : EngineWal} {snapshot : SnapshotFile}

/-! ### Logs of whole packets -/

variable {x : Entry}

theorem Whole.append {file : Bytes} (h : Whole crc file) (hfit : x.Fits) : Whole crc (file ++ packet crc x) := by
  obtain ⟨es, hes, rfl⟩ := h
  refine ⟨es ++ [x], ?_, by simp⟩
  intro y hy
  rcases mem_append.1 hy with hy | hy
  · exact hes y hy
  · exact mem_singleton.1 hy ▸ hfit

variable {now : ℕ}

theorem WholeLog.rotate (h : WholeLog crc w) (hnew : ∀ s ∈ w.frozen, s.timestamp < now) :
    WholeLog crc (w.rotate now) ∧ (w.rotate now).recovered crc = w.recovered crc := by
  obtain ⟨hord, hrec⟩ := h.ordered.rotate hnew
  refine ⟨⟨hord, ?_, whole_nil⟩, hrec⟩
  intro s hs
  rw [rotate_frozen hnew] at hs
  rcases mem_append.1 hs with hs | hs
  · exact h.frozen s hs
  · rw [mem_singleton.1 hs]
    exact h.active

variable {w' : EngineWal} {fault : IoFault}

/-- **An append that returns adds its entry to what the log delivers.** -/
theorem WholeLog.append (h : WholeLog crc w) (hfit : x.Fits)
    (hnew : w.rotates crc x = true → ∀ s ∈ w.frozen, s.timestamp < now)
    (happ : w.append crc x now fault = (w', .ok ())) :
    WholeLog crc w' ∧ w'.recovered crc = w.recovered crc ++ [x.delivered] := by
  have hcall : w.call crc ⟨x, now, fault⟩ = w' := congrArg Prod.fst happ
  have hack : w.acks crc ⟨x, now, fault⟩ = true := by
    unfold acks
    rw [happ]
    rfl
  have hclean : CleanAppend crc w ⟨x, now, fault⟩ := .inr ⟨hnew, .inr ⟨hfit, .inr h.active⟩⟩
  obtain ⟨hord, -, hkeep⟩ := recovered_call h.ordered hclean
  have hdrops : ¬ w.Drops crc ⟨x, now, fault⟩ := by
    intro hd
    rw [acks_of_drops hd] at hack
    cases hack
  rw [hcall] at hord hkeep
  refine ⟨⟨hord, ?_, ?_⟩, hkeep hdrops⟩
  all_goals
    rcases @EngineWal.append_cases crc w ⟨x, now, fault⟩ with ⟨-, -, hnack⟩ | ⟨-, w₁, hw₁, hw', hok⟩
    · rw [hack] at hnack
      cases hnack
  · intro s hs
    rw [hcall] at hw'
    rw [hw', write_frozen, hw₁] at hs
    split_ifs at hs with hr
    · exact (h.rotate (hnew hr)).1.frozen s hs
    · exact h.frozen s hs
  · have hwritten := write_ok_written (hok ▸ hack)
    rw [hcall] at hw'
    rw [hw', write_active, hwritten, hw₁]
    split_ifs with hr
    · exact (h.rotate (hnew hr)).1.active.append hfit
    · exact h.active.append hfit

/-- Segments that are removed deliver nothing any more. -/
theorem WholeLog.removeFrozen (h : WholeLog crc w) (p : Segment → Bool) :
    WholeLog crc { w with frozen := w.frozen.filter p } ∧
      ∀ x ∈ recovered crc { w with frozen := w.frozen.filter p }, x ∈ w.recovered crc := by
  have hord : EngineWal.Ordered { w with frozen := w.frozen.filter p } := h.ordered.filter p
  refine ⟨⟨hord, fun s hs => h.frozen s (mem_of_mem_filter hs), h.active⟩, ?_⟩
  intro x hx
  rw [hord.recovered] at hx
  rw [h.ordered.recovered]
  rcases mem_append.1 hx with hx | hx
  · obtain ⟨s, hs, hxs⟩ := mem_flatMap.1 hx
    exact mem_append_left _ (mem_flatMap.2 ⟨s, mem_of_mem_filter hs, hxs⟩)
  · exact mem_append_right _ hx

/-! ### Opening a directory -/

theorem forall₂_changesOf {entries : List Entry} (h : ∀ x ∈ entries, ∃ c, Recorded env x c ∧ c.Within env l) :
    List.Forall₂ (Recorded env) entries (changesOf env entries) ∧ ∀ c ∈ changesOf env entries, c.Within env l := by
  induction entries with
  | nil => exact ⟨.nil, by simp [changesOf]⟩
  | cons x entries ih =>
    obtain ⟨c, hrec, hc⟩ := h x mem_cons_self
    obtain ⟨hall, hwithin⟩ := ih fun y hy => h y (mem_cons_of_mem x hy)
    have hcons : changesOf env (x :: entries) = c :: changesOf env entries := by
      unfold changesOf
      rw [filterMap_cons, hrec.recordOf hc]
    rw [hcons]
    refine ⟨.cons hrec hall, ?_⟩
    intro c' hc'
    rcases mem_cons.1 hc' with rfl | hc'
    · exact hc
    · exact hwithin c' hc'

/-- A log of whole packets is left as it is. -/
theorem healed_of_whole {wal : EngineWal} (hfrozen : ∀ s ∈ wal.frozen, Whole env.crc s.bytes)
    (hactive : Whole env.crc wal.active) : healed env wal = wal := by
  have hreplay : ∀ {file : Bytes}, Whole env.crc file → (replay env.crc file).2 = file := by
    rintro _ ⟨es, hfit, rfl⟩
    rw [replay_encodeAll hfit]
  have hmap : (wal.frozen.map fun s => { s with bytes := (replay env.crc s.bytes).2 }) = wal.frozen := by
    refine (map_congr_left fun s hs => ?_).trans (map_id _)
    rw [hreplay (hfrozen s hs)]
    rfl
  unfold healed
  rw [hmap, hreplay hactive]

/-- **Opening a directory that holds a ledger gives an engine that stores it, and leaves the
directory as it is.** -/
theorem DiskHolds.openDir (h : DiskHolds env d.snapshot (diskWal env d) l) (hsound : l.Sound env) (draw : ℕ → ℕ) :
    ∃ e, openDir env draw d = some e ∧ Holds env e.toEngineMemory l ∧ DiskHolds env e.snapshot e.wal l := by
  obtain ⟨base, hbase, hwithin, happly⟩ := h.base
  obtain ⟨hrec, hchanges⟩ := forall₂_changesOf h.recorded
  obtain ⟨m, hm, hholds⟩ := hbase.replayEntries hsound hrec hchanges hwithin draw
  have hreplayed : replayed env draw d = some m := hm
  refine ⟨_, by rw [openDir_eq, hreplayed]; rfl, ?_, ?_⟩
  · rw [happly] at hholds
    exact hholds.congr rfl rfl rfl rfl
  · rw [healed_of_whole h.log.frozen h.log.active]
    exact h

/-- The files an engine leaves are those it runs on. -/
theorem DiskHolds.disk (h : DiskHolds env e.snapshot e.wal l) : DiskHolds env e.disk.snapshot (diskWal env e.disk) l :=
  ⟨⟨h.log.ordered, h.log.frozen, h.log.active⟩, h.recorded, h.base⟩

/-! ### What the calls do to the directory -/

variable {l' : Ledger} {c : Change}

theorem Change.Within.mono (h : c.Within env l) (hl : l.Within l') : c.Within env l' := by
  cases c with
  | erase id => trivial
  | write id iri vector payload => exact ⟨hl id iri h.1, h.2⟩

/-- A call appends the record of its change. -/
theorem DiskHolds.append (h : DiskHolds env snapshot w l) (hfit : x.Fits)
    (hnew : w.rotates env.crc x = true → ∀ s ∈ w.frozen, s.timestamp < now)
    (happ : w.append env.crc x now fault = (w', .ok ())) (hrec : Recorded env x.delivered c)
    (hc : c.Within env (l.apply c)) (hext : l.Within (l.apply c)) : DiskHolds env snapshot w' (l.apply c) := by
  obtain ⟨hlog, hrecovered⟩ := h.log.append hfit hnew happ
  obtain ⟨base, hbase, hwithin, happly⟩ := h.base
  refine ⟨hlog, ?_, base, hbase, ?_, ?_⟩
  · intro y hy
    rw [hrecovered] at hy
    rcases mem_append.1 hy with hy | hy
    · obtain ⟨c', hrec', hc'⟩ := h.recorded y hy
      exact ⟨c', hrec', hc'.mono hext⟩
    · rw [mem_singleton.1 hy]
      exact ⟨c, hrec, hc⟩
  · exact fun id iri hname => hext id iri (hwithin id iri hname)
  · have hchanges : changesOf env (w'.recovered env.crc) = changesOf env (w.recovered env.crc) ++ [c] := by
      unfold changesOf
      rw [hrecovered, filterMap_append, filterMap_cons, hrec.recordOf hc]
      rfl
    rw [hchanges, Ledger.applyAll_append, happly]
    rfl

theorem DiskHolds.rotate (h : DiskHolds env snapshot w l)
    (hnew : ∀ s ∈ w.frozen, s.timestamp < now) : DiskHolds env snapshot (w.rotate now) l := by
  obtain ⟨hlog, hrecovered⟩ := h.log.rotate hnew
  refine ⟨hlog, ?_, ?_⟩
  · rw [hrecovered]
    exact h.recorded
  · rw [hrecovered]
    exact h.base

/-- Changes that are within a ledger give it no new name. -/
theorem name_applyAll_within {changes : List Change} (h : ∀ c ∈ changes, c.Within env l) (hname : l'.name = l.name) :
    (l'.applyAll changes).name = l.name := by
  induction changes generalizing l' with
  | nil => exact hname
  | cons c changes ih =>
    refine ih (fun c' hc' => h c' (mem_cons_of_mem c hc')) ?_
    cases c with
    | erase id => exact hname
    | write id iri vector payload =>
      have hid : l.name id = some iri := (h _ mem_cons_self).1
      show Function.update l'.name id (some iri) = l.name
      rw [hname, ← hid, Function.update_eq_self]

/-- **A snapshot of the ledger, with what is left of the log, makes up the ledger if the last
change that is left for every id is its last change.** -/
theorem DiskHolds.snapshotted (h : DiskHolds env snapshot w l) {snapshot' : SnapshotFile}
    (hload : Holds env ((fresh env).loadSnapshotFile env snapshot') l)
    (hlog : WholeLog env.crc w') (hsub : ∀ x ∈ w'.recovered env.crc, x ∈ w.recovered env.crc)
    (hsafe : ∀ id effect, KeyedLog.last (logEffects env w') id = some effect →
      KeyedLog.last (logEffects env w) id = some effect) :
    DiskHolds env snapshot' w' l := by
  obtain ⟨base, -, -, happly⟩ := h.base
  have hrecorded : ∀ x ∈ w'.recovered env.crc, ∃ c, Recorded env x c ∧ c.Within env l :=
    fun x hx => h.recorded x (hsub x hx)
  obtain ⟨-, hwithin⟩ := forall₂_changesOf hrecorded
  refine ⟨hlog, hrecorded, l, hload, fun _ _ hname => hname, ?_⟩
  have hname := name_applyAll_within hwithin rfl
  have hcontent : (l.applyAll (changesOf env (w'.recovered env.crc))).content = l.content := by
    rw [Ledger.content_applyAll]
    have hmade : l.content = KeyedLog.replay base.content (logEffects env w) := by
      rw [← happly, Ledger.content_applyAll]
      rfl
    rw [hmade]
    exact KeyedLog.replay_of_kept hsafe
  generalize l.applyAll (changesOf env (w'.recovered env.crc)) = l' at hname hcontent
  cases l'
  cases l
  simp only at hname hcontent
  rw [hname, hcontent]

end WildAgentOs.Engine
