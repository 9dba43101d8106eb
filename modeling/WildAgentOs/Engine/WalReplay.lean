import WildAgentOs.Engine.Wal

/-!
# Replay undoes append

The scan of `replay` walks packet by packet: a whole packet is delivered and stepped over
(`scanAt_packet`), a torn one (a proper prefix of a packet) stops it where the packet starts
(`scanAt_torn`).  So a file of whole packets followed by a torn one is read back as those
packets and truncated to them (`replay_encodeAll_append_torn`), which covers a file of packets
cut at any byte (`replay_cut`).
-/

namespace WildAgentOs.Engine

open LittleEndian List

variable {crc : Bytes → UInt32}

/-- The packet after its magic byte. -/
def packetBody (crc : Bytes → UInt32) (e : Entry) : Bytes :=
  leBytes 4 (e.data.length + 13) ++ leBytes 4 (crc e.payload).toNat ++ e.payload

theorem packet_eq_cons (e : Entry) : packet crc e = magic :: packetBody crc e := rfl

theorem length_packetBody (e : Entry) : (packetBody crc e).length = e.data.length + 21 := by
  simp [packetBody]; omega

theorem ofLe_leBytes_toNat (n : UInt32) : ofLe (leBytes 4 n.toNat) = n.toNat := by
  rw [ofLe_leBytes]
  exact Nat.mod_eq_of_lt n.toNat_lt

/-! ### One packet -/

variable {e : Entry}

/-- The fixed fields of a payload read back. -/
theorem readEntry_packetBody (hfit : e.Fits) (rest : Bytes) :
    readEntry crc (packetBody crc e ++ rest) = some (e.delivered, e.data.length + 13, rest) := by
  have hlen : ofLe (leBytes 4 (e.data.length + 13)) = e.data.length + 13 := by
    rw [ofLe_leBytes]
    exact Nat.mod_eq_of_lt hfit
  have hid : UInt32.ofNat e.op.id.toNat = e.op.id := by simp
  have hclock : UInt64.ofNat (ofLe (leBytes 8 e.clock.toNat)) = e.clock := by
    have hlt : e.clock.toNat % 256 ^ 8 = e.clock.toNat := Nat.mod_eq_of_lt e.clock.toNat_lt
    rw [ofLe_leBytes, hlt]
    simp
  have hpayload : readExact (e.data.length + 13) (e.payload ++ rest) = some (e.payload, rest) :=
    readExact_append e.length_payload rest
  have hopcode : readExact 1 e.payload =
      some ([e.op.variantByte], leBytes 4 e.op.id.toNat ++ leBytes 8 e.clock.toNat ++ e.data) :=
    readExact_append (length_singleton : [e.op.variantByte].length = 1) _
  have hdata : e.payload.drop 13 = e.data := by
    have h12 : (leBytes 4 e.op.id.toNat ++ leBytes 8 e.clock.toNat).length = 12 := by simp
    rw [Entry.payload, drop_succ_cons, ← h12, drop_left]
  simp only [readEntry, packetBody, append_assoc, readExact_leBytes, Option.bind_eq_bind,
    Option.bind_some, hlen, hpayload, ofLe_leBytes_toNat, guard_true, Option.pure_def, hopcode,
    headD_cons, hid, hclock, WalOp.ofVariantByte_variantByte, hdata, Entry.delivered]

/-- A strict prefix of a packet body is a short read. -/
theorem readEntry_eq_none_of_short (hfit : e.Fits) {bs : Bytes} (hpre : bs <+: packetBody crc e)
    (hlt : bs.length < (packetBody crc e).length) : readEntry crc bs = none := by
  by_contra hne
  obtain ⟨⟨e', len, rest⟩, hsome⟩ := Option.ne_none_iff_exists'.1 hne
  obtain ⟨tail, htail⟩ := hpre
  -- The two length fields read the same four bytes, so the payload of `bs` is whole.
  simp only [readEntry, Option.bind_eq_bind, Option.bind_eq_some_iff, Prod.exists] at hsome
  obtain ⟨lenBytes, bs₁, h₁, crcBytes, bs₂, h₂, payload, bs₃, h₃, -⟩ := hsome
  obtain ⟨hl₁, rfl⟩ := readExact_eq_some_iff.1 h₁
  obtain ⟨hl₂, rfl⟩ := readExact_eq_some_iff.1 h₂
  obtain ⟨hl₃, rfl⟩ := readExact_eq_some_iff.1 h₃
  have hbody : lenBytes ++ (crcBytes ++ (payload ++ bs₃) ++ tail) =
      leBytes 4 (e.data.length + 13) ++ (leBytes 4 (crc e.payload).toNat ++ e.payload) := by
    simpa [packetBody] using htail
  have hfield : lenBytes = leBytes 4 (e.data.length + 13) := (append_inj hbody (by simpa using hl₁)).1
  have hlen : ofLe lenBytes = e.data.length + 13 := by
    rw [hfield, ofLe_leBytes]
    exact Nat.mod_eq_of_lt hfit
  rw [length_packetBody] at hlt
  simp only [length_append] at hlt
  omega

/-! ### The scan -/

/-- The scan with fuel for every byte. -/
def scanAt (crc : Bytes → UInt32) (bs : Bytes) (pos : ℕ) : List Entry × ℕ := scanFrom crc (bs.length + 1) bs pos

variable {bs rest : Bytes} {len : ℕ}

/-- What `readEntry` leaves is shorter than what it was given. -/
theorem length_lt_of_readEntry (h : readEntry crc bs = some (e, len, rest)) : rest.length < bs.length := by
  simp only [readEntry, Option.bind_eq_bind, Option.bind_eq_some_iff, Prod.exists,
    Option.pure_def, Option.some.injEq, Prod.mk.injEq] at h
  obtain ⟨lenBytes, bs₁, h₁, crcBytes, bs₂, h₂, payload, bs₃, h₃, -, -, -, -, -, -, -, -, -, -, -, -, -, -, -, rfl⟩ := h
  have := length_of_readExact h₁
  have := length_of_readExact h₂
  have := length_of_readExact h₃
  omega

/-- Fuel beyond the number of bytes is never used up. -/
theorem scanFrom_eq_of_lt {fuel fuel' : ℕ} {bs : Bytes} (h : bs.length < fuel) (h' : bs.length < fuel') (pos : ℕ) :
    scanFrom crc fuel bs pos = scanFrom crc fuel' bs pos := by
  induction fuel generalizing fuel' bs pos with
  | zero => omega
  | succ fuel ih =>
    obtain ⟨fuel', rfl⟩ : ∃ f, fuel' = f + 1 := ⟨fuel' - 1, by omega⟩
    cases bs with
    | nil => rfl
    | cons b bs =>
      simp only [length_cons] at h h'
      simp only [scanFrom]
      split_ifs with hb
      · exact ih (by omega) (by omega) _
      · cases hr : readEntry crc bs with
        | none => rfl
        | some r =>
          obtain ⟨e, len, rest⟩ := r
          have := length_lt_of_readEntry hr
          simp only [ih (show rest.length < fuel by omega) (show rest.length < fuel' by omega)]

@[simp] theorem scanAt_nil (pos : ℕ) : scanAt crc [] pos = ([], pos) := rfl

theorem scanAt_magic_none {bs : Bytes} (h : readEntry crc bs = none) (pos : ℕ) :
    scanAt crc (magic :: bs) pos = ([], pos) := by
  simp [scanAt, scanFrom, h]

theorem scanAt_magic_some (h : readEntry crc bs = some (e, len, rest)) (pos : ℕ) :
    scanAt crc (magic :: bs) pos = (e :: (scanAt crc rest (pos + 9 + len)).1, (scanAt crc rest (pos + 9 + len)).2) := by
  have hlt := length_lt_of_readEntry h
  simp only [scanAt, scanFrom, length_cons, h, ne_eq, not_true_eq_false, if_false]
  rw [@scanFrom_eq_of_lt crc _ (rest.length + 1) rest (by omega) (by omega)]

/-- A whole packet is delivered and stepped over. -/
theorem scanAt_packet (hfit : e.Fits) (rest : Bytes) (pos : ℕ) : scanAt crc (packet crc e ++ rest) pos =
      (e.delivered :: (scanAt crc rest (pos + (packet crc e).length)).1,
        (scanAt crc rest (pos + (packet crc e).length)).2) := by
  have hread : readEntry crc (packetBody crc e ++ rest) = _ := readEntry_packetBody hfit rest
  have h := scanAt_magic_some hread pos
  rw [packet_eq_cons, cons_append, h, ← packet_eq_cons, length_packet]
  have hpos : pos + 9 + (e.data.length + 13) = pos + (e.data.length + 22) := by omega
  rw [hpos]

/-- A proper prefix of the packet of an entry that fits. -/
def Torn (crc : Bytes → UInt32) (bs : Bytes) : Prop :=
  ∃ e : Entry, e.Fits ∧ bs <+: packet crc e ∧ bs.length < (packet crc e).length

theorem torn_nil : Torn crc [] := ⟨⟨.delete 0 "", 0, []⟩, by decide, nil_prefix, by simp⟩

theorem torn_take (hfit : e.Fits) {k : ℕ} (hk : k < (packet crc e).length) : Torn crc ((packet crc e).take k) :=
  ⟨e, hfit, take_prefix _ _, by rw [length_take]; omega⟩

/-- A torn packet stops the scan where it starts. -/
theorem scanAt_torn {bs : Bytes} (h : Torn crc bs) (pos : ℕ) : scanAt crc bs pos = ([], pos) := by
  obtain ⟨e, hfit, hpre, hlt⟩ := h
  cases bs with
  | nil => rfl
  | cons b bs =>
    rw [packet_eq_cons] at hpre hlt
    obtain ⟨rfl, hbody⟩ := cons_prefix_cons.1 hpre
    exact scanAt_magic_none
      (readEntry_eq_none_of_short hfit hbody (by simpa using hlt)) pos

variable {es : List Entry}

theorem scanAt_encodeAll_append (hfit : ∀ e ∈ es, e.Fits) (rest : Bytes) (pos : ℕ) :
    scanAt crc (encodeAll crc es ++ rest) pos =
      (es.map Entry.delivered ++ (scanAt crc rest (pos + (encodeAll crc es).length)).1,
        (scanAt crc rest (pos + (encodeAll crc es).length)).2) := by
  induction es generalizing pos with
  | nil => simp
  | cons e es ih =>
    have he : e.Fits := hfit e mem_cons_self
    have hes : ∀ e ∈ es, e.Fits := fun e' h => hfit e' (mem_cons_of_mem _ h)
    rw [encodeAll_cons, append_assoc, scanAt_packet he, ih hes]
    simp only [map_cons, cons_append, length_append, Nat.add_assoc]

/-! ### Replay -/

theorem replay_eq (file : Bytes) : replay crc file = ((scanAt crc file 0).1,
      if (scanAt crc file 0).2 < file.length then file.take (scanAt crc file 0).2 else file) := rfl

/-- Whole packets followed by a torn one: the packets are delivered and the rest cut off. -/
theorem replay_encodeAll_append_torn (hfit : ∀ e ∈ es, e.Fits) {torn : Bytes} (htorn : Torn crc torn) :
    replay crc (encodeAll crc es ++ torn) = (es.map Entry.delivered, encodeAll crc es) := by
  rw [replay_eq, scanAt_encodeAll_append hfit, scanAt_torn htorn]
  simp only [append_nil, Nat.zero_add, length_append, take_left, Prod.mk.injEq, true_and]
  split_ifs with h
  · rfl
  · have : torn = [] := eq_nil_of_length_eq_zero (by omega)
    rw [this, append_nil]

theorem replay_encodeAll (hfit : ∀ e ∈ es, e.Fits) :
    replay crc (encodeAll crc es) = (es.map Entry.delivered, encodeAll crc es) := by
  simpa using replay_encodeAll_append_torn hfit torn_nil

/-! ### A file cut at any byte -/

/-- The offset at which entry `i` of the concatenated file ends. -/
def endOffset (crc : Bytes → UInt32) (es : List Entry) (i : ℕ) : ℕ := (encodeAll crc (es.take (i + 1))).length

theorem endOffset_zero (e : Entry) (es : List Entry) : endOffset crc (e :: es) 0 = (packet crc e).length := by
  simp [endOffset]

theorem endOffset_succ (e : Entry) (es : List Entry) (i : ℕ) :
    endOffset crc (e :: es) (i + 1) = (packet crc e).length + endOffset crc es i := by
  simp [endOffset]

/-- A cut at `k` leaves the packets that end at or before `k` and a torn one. -/
theorem take_encodeAll (hfit : ∀ e ∈ es, e.Fits) (k : ℕ) :
    ∃ n ≤ es.length, (∀ i < es.length, i < n ↔ endOffset crc es i ≤ k) ∧
      ∃ torn, Torn crc torn ∧ (encodeAll crc es).take k = encodeAll crc (es.take n) ++ torn := by
  induction es generalizing k with
  | nil => exact ⟨0, le_rfl, by simp, [], torn_nil, by simp⟩
  | cons e es ih =>
    have he : e.Fits := hfit e mem_cons_self
    by_cases hk : (packet crc e).length ≤ k
    · obtain ⟨n, hn, hiff, torn, htorn, hcut⟩ :=
        ih (fun e' h => hfit e' (mem_cons_of_mem _ h)) (k - (packet crc e).length)
      refine ⟨n + 1, by simpa using hn, ?_, torn, htorn, ?_⟩
      · intro i hi
        cases i with
        | zero => simpa [endOffset_zero] using hk
        | succ i =>
          rw [endOffset_succ]
          have := hiff i (by simpa using hi)
          omega
      · rw [encodeAll_cons, take_append, take_of_length_le hk, hcut, take_succ_cons, encodeAll_cons, append_assoc]
    · refine ⟨0, by simp, ?_, (packet crc e).take k, torn_take he (by omega), ?_⟩
      · intro i hi
        have hle : (packet crc e).length ≤ endOffset crc (e :: es) i := by
          cases i with
          | zero => rw [endOffset_zero]
          | succ i => rw [endOffset_succ]; omega
        omega
      · rw [encodeAll_cons, take_append_of_le_length (by omega)]
        simp

/-- The concatenated file of `es` is cut at byte `k`.  With `n` the number of entries that end at
or before the cut: replay delivers these and truncates the file to them; a second replay
delivers the same and leaves the file alone; entries appended after that are delivered after
them. -/
def ReplaysCut (crc : Bytes → UInt32) (es : List Entry) (k : ℕ) : Prop :=
  ∃ n ≤ es.length, (∀ i < es.length, i < n ↔ endOffset crc es i ≤ k) ∧
    replay crc ((encodeAll crc es).take k) = ((es.take n).map Entry.delivered, encodeAll crc (es.take n)) ∧
    replay crc (encodeAll crc (es.take n)) = ((es.take n).map Entry.delivered, encodeAll crc (es.take n)) ∧
    ∀ more : List Entry, (∀ e ∈ more, e.Fits) →
      replay crc (encodeAll crc (es.take n) ++ encodeAll crc more) =
        ((es.take n).map Entry.delivered ++ more.map Entry.delivered, encodeAll crc (es.take n) ++ encodeAll crc more)

/-- **Replay undoes encode under a cut at any byte.** -/
theorem replay_cut (crc : Bytes → UInt32) {es : List Entry} (hfit : ∀ e ∈ es, e.Fits) (k : ℕ) :
    ReplaysCut crc es k := by
  obtain ⟨n, hn, hiff, torn, htorn, hcut⟩ := @take_encodeAll crc es hfit k
  have hbefore : ∀ e ∈ es.take n, e.Fits := fun e h => hfit e (mem_of_mem_take h)
  refine ⟨n, hn, hiff, ?_, replay_encodeAll hbefore, fun more hmore => ?_⟩
  · rw [hcut]
    exact replay_encodeAll_append_torn hbefore htorn
  · have hall : ∀ e ∈ es.take n ++ more, e.Fits := fun e h =>
      (mem_append.1 h).elim (hbefore e) (hmore e)
    simpa using @replay_encodeAll crc _ hall

/-- A file of an insert and a delete, cut in the checksum of the second packet. -/
theorem replay_cut_insert_delete : ReplaysCut crc32 [⟨.insert 1 "iri:1", 10, [1, 2]⟩, ⟨.delete 1 "iri:1", 11, []⟩] 30 :=
  replay_cut crc32 (by decide) 30

end WildAgentOs.Engine
