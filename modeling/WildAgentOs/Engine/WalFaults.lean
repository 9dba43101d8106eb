import WildAgentOs.Engine.WalReplay

/-!
# Appends that fail

A run of `append` calls in one process, each with its own file-system failures, and what
recovery reads back afterwards.  A write that fails part of the way leaves a torn packet in the
segment; nothing removes it, and the surge counter lets the next calls append behind it.

* `CleanAppend`, `recovered_append`, `ackedDelivered_of_cleanRun`, `replay_behind_torn`.
-/

namespace WildAgentOs.Engine

open LittleEndian List EngineWal

/-- One call of `append`: its entry, the time a rotation would take its name from, and how its
file-system calls go. -/
structure AppendCall where
  entry : Entry
  now : ℕ
  fault : IoFault
  deriving DecidableEq

/-- An entry with whether its append returned `Ok`. -/
abbrev CallLog := List (Entry × Bool)

section Runs

variable (crc : Bytes → UInt32)

/-- The state after one call. -/
def EngineWal.call (w : EngineWal) (c : AppendCall) : EngineWal := (w.append crc c.entry c.now c.fault).1

/-- Whether one call is acknowledged. -/
def EngineWal.acks (w : EngineWal) (c : AppendCall) : Bool := (w.append crc c.entry c.now c.fault).2.isOk

def EngineWal.callAll (w : EngineWal) (calls : List AppendCall) : EngineWal := calls.foldl (EngineWal.call crc) w

def EngineWal.callLog : EngineWal → List AppendCall → CallLog
  | _, [] => []
  | w, c :: cs => (c.entry, w.acks crc c) :: EngineWal.callLog (w.call crc c) cs

/-- Every acknowledged entry of the log is among the delivered ones exactly once and in order;
an entry whose append failed may be there as well, if its packet was whole on disk. -/
inductive Delivers : CallLog → List Entry → Prop
  | nil : Delivers [] []
  | acked {e : Entry} {log : CallLog} {ds : List Entry} :
      Delivers log ds → Delivers ((e, true) :: log) (e.delivered :: ds)
  | failedWhole {e : Entry} {log : CallLog} {ds : List Entry} :
      Delivers log ds → Delivers ((e, false) :: log) (e.delivered :: ds)
  | failed {e : Entry} {log : CallLog} {ds : List Entry} : Delivers log ds → Delivers ((e, false) :: log) ds

/-- Recovery after the calls finds what it found before them, and then every acknowledged
entry. -/
def AckedDelivered (w : EngineWal) (calls : List AppendCall) : Prop :=
  ∃ ds, (w.callAll crc calls).recovered crc = w.recovered crc ++ ds ∧ Delivers (w.callLog crc calls) ds

/-! ### Clean calls -/

/-- A segment of whole packets, each within the length field. -/
def Whole (file : Bytes) : Prop := ∃ es : List Entry, (∀ e ∈ es, e.Fits) ∧ file = encodeAll crc es

/-- The call reaches no write: the log refuses it or its rotation fails. -/
def EngineWal.refuses (w : EngineWal) (c : AppendCall) : Prop :=
  w.surged = true ∨ (w.rotates crc c.entry = true ∧ ∃ err, c.fault = .rotate err)

/-- The call leaves no byte behind a torn packet: it is refused, or its rotation takes a new
name and it either writes nothing or writes an entry that fits the length field to a segment
of whole packets. -/
def CleanAppend (w : EngineWal) (c : AppendCall) : Prop :=
  w.refuses crc c ∨
    (w.rotates crc c.entry = true → ∀ s ∈ w.frozen, s.timestamp < c.now) ∧
      ((∃ err, c.fault = .write 0 err) ∨ (c.entry.Fits ∧ (w.rotates crc c.entry = true ∨ Whole crc w.active)))

/-- Every call of the run is clean in the state it meets. -/
def CleanRun : EngineWal → List AppendCall → Prop
  | _, [] => True
  | w, c :: cs => CleanAppend crc w c ∧ CleanRun (w.call crc c) cs

end Runs

variable {crc : Bytes → UInt32}

theorem whole_nil : Whole crc [] := ⟨[], by simp, rfl⟩

/-- The frozen segments are in the order of their names. -/
def EngineWal.Ordered (w : EngineWal) : Prop := w.frozen.Pairwise fun s t => s.timestamp < t.timestamp

instance (w : EngineWal) : Decidable w.Ordered := inferInstanceAs (Decidable (List.Pairwise _ _))

variable {w : EngineWal}

theorem EngineWal.Ordered.pendingPaths (h : w.Ordered) : w.pendingPaths = w.frozen.map Segment.bytes ++ [w.active] := by
  have hle : w.frozen.Pairwise fun s t => s.timestamp ≤ t.timestamp := h.imp fun hlt => hlt.le
  rw [EngineWal.pendingPaths, hle.insertionSort_eq]

theorem EngineWal.Ordered.recovered (h : w.Ordered) :
    w.recovered crc = (w.frozen.flatMap fun s => (replay crc s.bytes).1) ++ (replay crc w.active).1 := by
  simp [EngineWal.recovered, h.pendingPaths, flatMap_map]

theorem replay_nil : replay crc [] = ([], []) := rfl

/-! ### One call -/

variable {now : ℕ}

theorem EngineWal.rotate_frozen (hnew : ∀ s ∈ w.frozen, s.timestamp < now) :
    (w.rotate now).frozen = w.frozen ++ [⟨now, w.active⟩] := by
  have hkeep : w.frozen.filter (fun s => s.timestamp != now) = w.frozen :=
    filter_eq_self.2 fun s hs => by simpa using (hnew s hs).ne
  rw [rotate, hkeep]

/-- A rotation under a new name keeps the order and moves no entry. -/
theorem EngineWal.Ordered.rotate (h : w.Ordered) (hnew : ∀ s ∈ w.frozen, s.timestamp < now) :
    (w.rotate now).Ordered ∧ (w.rotate now).recovered crc = w.recovered crc := by
  have hord : (w.rotate now).Ordered := by
    rw [EngineWal.Ordered, rotate_frozen hnew]
    exact pairwise_append.2 ⟨h, pairwise_singleton _ _, by simpa using hnew⟩
  refine ⟨hord, ?_⟩
  rw [hord.recovered, h.recovered, rotate_frozen hnew]
  simp [EngineWal.rotate, replay_nil]

@[simp] theorem EngineWal.write_frozen (w : EngineWal) (e : Entry) (fault : IoFault) :
    (w.write crc e fault).1.frozen = w.frozen := by
  cases fault with
  | write k err => rfl
  | _ => simp only [write]; split <;> rfl

@[simp] theorem EngineWal.write_active (w : EngineWal) (e : Entry) (fault : IoFault) :
    (w.write crc e fault).1.active = w.active ++ fault.written (packet crc e) := by
  cases fault with
  | write k err => rfl
  | _ => simp only [write]; split <;> rfl

variable {e : Entry}

theorem EngineWal.write_ok_written {fault : IoFault}
    (h : (w.write crc e fault).2.isOk = true) : fault.written (packet crc e) = packet crc e := by
  cases fault with
  | write k err => cases h
  | _ => rfl

/-- A write to a segment of whole packets adds its entry to the recovered ones if its packet
got there whole, and nothing otherwise. -/
theorem EngineWal.write_recovered (h : w.Ordered) (hfit : e.Fits)
    (hwhole : Whole crc w.active) (fault : IoFault) :
    (w.write crc e fault).1.recovered crc = w.recovered crc ++
      if fault.written (packet crc e) = packet crc e then [e.delivered] else [] := by
  obtain ⟨es, hes, hact⟩ := hwhole
  have hord : (w.write crc e fault).1.Ordered := by
    rw [EngineWal.Ordered, write_frozen]
    exact h
  rw [hord.recovered, h.recovered, write_frozen, write_active,
    append_assoc, hact, replay_encodeAll hes]
  congr 1
  split_ifs with hw
  · have hall : ∀ e' ∈ es ++ [e], e'.Fits := by
      intro e' he'
      rcases mem_append.1 he' with he' | he'
      · exact hes e' he'
      · exact mem_singleton.1 he' ▸ hfit
    have := @replay_encodeAll crc _ hall
    simp only [encodeAll_append, encodeAll_cons, encodeAll_nil, append_nil] at this
    rw [hw, this]
    simp
  · have htorn : Torn crc (fault.written (packet crc e)) := by
      cases fault with
      | write k err =>
        refine torn_take hfit (Nat.lt_of_not_le fun hk => hw ?_)
        exact take_of_length_le hk
      | _ => exact absurd rfl hw
    rw [replay_encodeAll_append_torn hes htorn, append_nil]

/-- The two outcomes of a call: refused without effect, or a write, on the rotated log if the
packet does not fit the segment. -/
theorem EngineWal.append_cases (w : EngineWal) (c : AppendCall) :
    (w.refuses crc c ∧ w.call crc c = w ∧ w.acks crc c = false) ∨
      ¬ w.refuses crc c ∧
        ∃ w' : EngineWal, w' = (if w.rotates crc c.entry = true then w.rotate c.now else w) ∧
          w.call crc c = (w'.write crc c.entry c.fault).1 ∧
          w.acks crc c = (w'.write crc c.entry c.fault).2.isOk := by
  unfold call acks append refuses
  by_cases hs : w.surged = true
  · left
    simp [hs, Except.isOk, Except.toBool]
  · by_cases hr : w.rotates crc c.entry = true
    · cases hf : c.fault with
      | rotate err =>
        left
        simp [hs, hr, Except.isOk, Except.toBool]
      | _ =>
        right
        exact ⟨by simp [hs], _, rfl, by simp [hs, hr]⟩
    · right
      exact ⟨by simp [hs, hr], w, by simp [hr], by simp [hs, hr]⟩

/-- The packet of the call does not get to the log whole: the call is refused, or its write
stops before the end of the packet. -/
def EngineWal.Drops (crc : Bytes → UInt32) (w : EngineWal) (c : AppendCall) : Prop :=
  w.refuses crc c ∨ c.fault.written (packet crc c.entry) ≠ packet crc c.entry

variable {c : AppendCall}

theorem EngineWal.acks_of_drops (h : w.Drops crc c) : w.acks crc c = false := by
  rcases @EngineWal.append_cases crc w c with ⟨-, -, hack⟩ | ⟨href, w', -, -, hack⟩
  · exact hack
  · rw [hack]
    by_contra hok
    exact h.resolve_left href (write_ok_written (Bool.eq_true_of_not_eq_false hok))

theorem length_written_write_zero (err : String) (e : Entry) :
    IoFault.written (.write 0 err) (packet crc e) ≠ packet crc e := by
  intro h
  have hlen : (IoFault.written (.write 0 err) (packet crc e)).length = (packet crc e).length := congrArg List.length h
  rw [length_packet] at hlen
  simp [IoFault.written] at hlen

/-- **What a clean call does to the recovered entries: its entry is added at their end if its
packet got to the log whole, and else nothing changes.** -/
theorem EngineWal.recovered_call (h : w.Ordered) (hc : CleanAppend crc w c) : (w.call crc c).Ordered ∧
      (w.Drops crc c → (w.call crc c).recovered crc = w.recovered crc) ∧
      (¬ w.Drops crc c → (w.call crc c).recovered crc = w.recovered crc ++ [c.entry.delivered]) := by
  rcases @EngineWal.append_cases crc w c with ⟨href, hcall, -⟩ | ⟨href, w', hw', hcall, -⟩
  · exact ⟨by rwa [hcall], fun _ => by rw [hcall], fun hd => absurd (.inl href) hd⟩
  obtain ⟨hnew, hwrite⟩ := hc.resolve_left href
  -- The log the write meets: in order, with the same recovered entries.
  have hw : w'.Ordered ∧ w'.recovered crc = w.recovered crc := by
    subst hw'
    split_ifs with hr
    · exact h.rotate (hnew hr)
    · exact ⟨h, rfl⟩
  have hord : (w.call crc c).Ordered := by
    rw [EngineWal.Ordered, hcall, write_frozen]
    exact hw.1
  refine ⟨hord, ?_⟩
  rw [← hw.2]
  rcases hwrite with ⟨err, hzero⟩ | ⟨hfit, hwhole⟩
  · refine ⟨fun _ => ?_, fun hd => absurd (.inr ?_) hd⟩
    · rw [hord.recovered, hw.1.recovered, hcall, write_frozen, write_active]
      simp [hzero, IoFault.written]
    · rw [hzero]
      exact length_written_write_zero err c.entry
  · have hwhole' : Whole crc w'.active := by
      subst hw'
      split_ifs with hr
      · exact whole_nil
      · exact hwhole.resolve_left hr
    have hrec := write_recovered hw.1 hfit hwhole' c.fault
    rw [hcall, hrec]
    refine ⟨fun hd => ?_, fun hd => ?_⟩
    · rw [if_neg (hd.resolve_left href), append_nil]
    · rw [if_pos (not_not.1 (not_or.1 hd).2)]

/-- What a clean call adds to the recovered entries. -/
theorem EngineWal.recovered_append (h : w.Ordered) (hc : CleanAppend crc w c) :
    (w.call crc c).Ordered ∧ ∃ ds, (w.call crc c).recovered crc = w.recovered crc ++ ds ∧
      Delivers [(c.entry, w.acks crc c)] ds := by
  obtain ⟨hord, hdrop, hkeep⟩ := recovered_call h hc
  refine ⟨hord, ?_⟩
  by_cases hd : w.Drops crc c
  · exact ⟨[], by rw [hdrop hd, append_nil], acks_of_drops hd ▸ .failed .nil⟩
  · refine ⟨_, hkeep hd, ?_⟩
    cases w.acks crc c with
    | true => exact .acked .nil
    | false => exact .failedWhole .nil

/-! ### Runs -/

theorem Delivers.append {log log' : CallLog} {ds ds' : List Entry} (h : Delivers log ds)
    (h' : Delivers log' ds') : Delivers (log ++ log') (ds ++ ds') := by
  induction h with
  | nil => exact h'
  | acked _ ih => exact .acked ih
  | failedWhole _ ih => exact .failedWhole ih
  | failed _ ih => exact .failed ih

/-- **Every acknowledged append of a clean run is recovered, once and in order.** -/
theorem ackedDelivered_of_cleanRun (crc : Bytes → UInt32) {w : EngineWal} (h : w.Ordered)
    {calls : List AppendCall} (hrun : CleanRun crc w calls) : AckedDelivered crc w calls := by
  induction calls generalizing w with
  | nil => exact ⟨[], by simp [EngineWal.callAll], .nil⟩
  | cons c cs ih =>
    obtain ⟨hc, hcs⟩ := hrun
    obtain ⟨hord, ds, hds, hdel⟩ := EngineWal.recovered_append h hc
    obtain ⟨ds', hds', hdel'⟩ := ih hord hcs
    refine ⟨ds ++ ds', ?_, hdel.append hdel'⟩
    rw [EngineWal.callAll, foldl_cons, ← EngineWal.callAll, hds', hds, append_assoc]

/-- An acknowledged append, then one that fails after five bytes. -/
theorem ackedDelivered_of_cleanRun_two : AckedDelivered crc32 (EngineWal.openDir [] [] .strict)
      [⟨⟨.insert 1 "iri:1", 1, [1]⟩, 0, .none⟩, ⟨⟨.insert 2 "iri:2", 2, [2]⟩, 0, .write 5 "No space left on device"⟩] :=
  ackedDelivered_of_cleanRun crc32 (by decide)
    ⟨.inr ⟨by decide, .inr ⟨by decide, .inr whole_nil⟩⟩,
      .inr ⟨by decide, .inr ⟨by decide, .inr
        ⟨[⟨.insert 1 "iri:1", 1, [1]⟩], by decide, by decide +kernel⟩⟩⟩, trivial⟩

/-! ### Torn packets -/

/-- Whatever stands behind a torn packet is lost if the scan reads no packet there. -/
theorem replay_behind_torn {es : List Entry} (hfit : ∀ e ∈ es, e.Fits) {torn more : Bytes}
    (hnone : readEntry crc (torn ++ more) = none) :
    (replay crc (encodeAll crc es ++ magic :: (torn ++ more))).1 = es.map Entry.delivered := by
  rw [replay_eq, scanAt_encodeAll_append hfit, scanAt_magic_none hnone]
  simp

theorem replay_behind_torn_one :
    (replay crc32 (encodeAll crc32 [⟨.insert 1 "iri:1", 1, [1]⟩] ++ magic :: ([1] ++ [7]))).1 =
    [Entry.delivered ⟨.insert 1 "iri:1", 1, [1]⟩] :=
  replay_behind_torn (by decide) (by decide)

/-- The first write puts one byte of its packet into the file and fails, the second succeeds. -/
def tornThenAcked : List AppendCall :=
  [⟨⟨.insert 1 "iri:1", 1, [1]⟩, 0, .write 1 "No space left on device"⟩, ⟨⟨.insert 2 "iri:2", 2, [2]⟩, 0, .none⟩]

/-- The second append of `tornThenAcked` is acknowledged and lost. -/
theorem not_ackedDelivered_tornThenAcked : ¬ AckedDelivered crc32 (EngineWal.openDir [] [] .strict) tornThenAcked := by
  rintro ⟨ds, hds, hdel⟩
  have hlog : (EngineWal.openDir [] [] .strict).callLog crc32 tornThenAcked =
      [(⟨.insert 1 "iri:1", 1, [1]⟩, false), (⟨.insert 2 "iri:2", 2, [2]⟩, true)] := by
    decide
  have hrec : ((EngineWal.openDir [] [] .strict).callAll crc32 tornThenAcked).recovered crc32 = [] := by
    have hord : ((EngineWal.openDir [] [] .strict).callAll crc32 tornThenAcked).Ordered := by
      decide
    rw [hord.recovered]
    decide
  have hnil : ds = [] := by
    rw [hrec] at hds
    exact (append_eq_nil_iff.1 hds.symm).2
  rw [hlog, hnil] at hdel
  rcases hdel with _ | _ | _ | hrest
  cases hrest

end WildAgentOs.Engine
