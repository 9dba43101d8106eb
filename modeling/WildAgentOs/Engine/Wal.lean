import WildAgentOs.Lib.LittleEndian
import Mathlib.Data.List.Sort

/-!
# The write-ahead log of the vector engine

`EngineWal` of `wal.rs`: packets `[magic, length, crc, opcode, id, clock, data…]` appended to
`active.wal`, rotated to `frozen.<micros>.wal` past 512 MiB, and read back by a scan that stops
at the first packet it cannot verify and truncates the file there.

* `WalOp`, `Entry`, `packet`: one record and its bytes;
* `EngineWal`, `append`, `rotate`: the open log, with the failures of the calls it makes to the
  file system as an argument (`IoFault`);
* `scan`, `replay`;
* `pendingPaths`, `recovered`: the segments in the order recovery replays them.

The checksum `crc` (the `crc32fast` crate) is a parameter throughout: nothing here depends on
which function it is.  `crc32` is the one it computes.
-/

namespace WildAgentOs.Engine

open LittleEndian

/-- The errors of the engine, with the texts the source gives them. -/
inductive EngineError
  | storageError (message : String)
  | storageCritical (message : String)
  | invalidVector (message : String)
  | internal (message : String)
  | notFound (message : String)
  | io (message : String)
  deriving DecidableEq

inductive WalSyncMode
  | strict
  | batch (intervalMs : ℕ)
  | async
  deriving DecidableEq

inductive WalOp
  | insert (id : UInt32) (iri : String)
  | upsert (id : UInt32) (iri : String)
  | delete (id : UInt32) (iri : String)
  | metadataUpdate (id : UInt32) (iri : String)
  deriving DecidableEq

namespace WalOp

def variantByte : WalOp → UInt8
  | insert .. => 1
  | upsert .. => 2
  | delete .. => 3
  | metadataUpdate .. => 4

def id : WalOp → UInt32
  | insert id _ | upsert id _ | delete id _ | metadataUpdate id _ => id

/-- The operation as replay hands it on: the IRI is not part of the packet. -/
def withoutIri : WalOp → WalOp
  | insert id _ => insert id ""
  | upsert id _ => upsert id ""
  | delete id _ => delete id ""
  | metadataUpdate id _ => metadataUpdate id ""

/-- The operation an opcode names, if any. -/
def ofVariantByte (opcode : UInt8) (id : UInt32) : Option WalOp :=
  match opcode.toNat with
  | 1 => some (insert id "")
  | 2 => some (upsert id "")
  | 3 => some (delete id "")
  | 4 => some (metadataUpdate id "")
  | _ => none

@[simp] theorem ofVariantByte_variantByte (op : WalOp) : ofVariantByte op.variantByte op.id = some op.withoutIri := by
  cases op <;> rfl

end WalOp

/-- What one `append` is given and one callback of `replay` receives. -/
structure Entry where
  op : WalOp
  clock : UInt64
  data : Bytes
  deriving DecidableEq

namespace Entry

/-- The entry as replay delivers it. -/
def delivered (e : Entry) : Entry := { e with op := e.op.withoutIri }

/-- `[opcode, id, clock, data…]`, the part of the packet the checksum covers. -/
def payload (e : Entry) : Bytes :=
  e.op.variantByte :: (leBytes 4 e.op.id.toNat ++ leBytes 8 e.clock.toNat ++ e.data)

/-- The payload length fits the `u32` length field of the packet. -/
def Fits (e : Entry) : Prop := e.data.length + 13 < 2 ^ 32

instance (e : Entry) : Decidable e.Fits := inferInstanceAs (Decidable (_ < _))

@[simp] theorem length_payload (e : Entry) : e.payload.length = e.data.length + 13 := by
  simp [payload]; omega

end Entry

def magic : UInt8 := 0xFE

def maxSize : ℕ := 512 * 1024 * 1024

def maxIoErrors : ℕ := 3

/-- CRC-32 as `crc32fast` computes it: reflected polynomial `0xEDB88320`. -/
def crc32 (bs : Bytes) : UInt32 :=
  let round (c : UInt32) : UInt32 := if c &&& 1 = 1 then (c >>> 1) ^^^ 0xEDB88320 else c >>> 1
  let update (c : UInt32) (b : UInt8) : UInt32 := round^[8] (c ^^^ b.toUInt32)
  bs.foldl update 0xFFFFFFFF ^^^ 0xFFFFFFFF

-- The check value of CRC-32, the checksum of "123456789".
example : crc32 [49, 50, 51, 52, 53, 54, 55, 56, 57] = 0xCBF43926 := by decide +kernel

section Wal

variable (crc : Bytes → UInt32)

/-- The packet `append` builds. The length is cast to `u32`. -/
def packet (e : Entry) : Bytes :=
  magic :: (leBytes 4 (e.data.length + 13) ++ leBytes 4 (crc e.payload).toNat ++ e.payload)

@[simp] theorem length_packet (e : Entry) : (packet crc e).length = e.data.length + 22 := by
  simp [packet]; omega

/-- The packets of a list of entries, one after the other. -/
def encodeAll (es : List Entry) : Bytes := es.flatMap (packet crc)

@[simp] theorem encodeAll_nil : encodeAll crc [] = [] := rfl

@[simp] theorem encodeAll_cons (e : Entry) (es : List Entry) :
    encodeAll crc (e :: es) = packet crc e ++ encodeAll crc es := rfl

@[simp] theorem encodeAll_append (es es' : List Entry) :
    encodeAll crc (es ++ es') = encodeAll crc es ++ encodeAll crc es' := by
  simp [encodeAll]

/-! ### Append and rotate -/

/-- A rotated segment: the timestamp of its name `frozen.<micros>.wal`, and its bytes. -/
structure Segment where
  timestamp : ℕ
  bytes : Bytes
  deriving DecidableEq

/-- The open log: the files of its directory and the counters of the process.  A missing
`active.wal` is an empty one, since every open creates it. -/
structure EngineWal where
  frozen : List Segment
  active : Bytes
  syncMode : WalSyncMode
  currentSize : ℕ
  ioErrorCount : ℕ
  deriving DecidableEq

/-- How the file-system calls of one `append` go: all succeed; the rotation fails before its
rename; the write fails after `k` bytes of the packet; the write succeeds and the fsync fails. -/
inductive IoFault
  | none
  | rotate (err : String)
  | write (k : ℕ) (err : String)
  | sync (err : String)
  deriving DecidableEq

/-- Opening the log of a directory: the counters start from the file that is there. -/
def EngineWal.openDir (frozen : List Segment) (active : Bytes) (syncMode : WalSyncMode) : EngineWal :=
  { frozen, active, syncMode, currentSize := active.length, ioErrorCount := 0 }

/-- `rotate` at the time `now`.  The rename replaces a segment of the same name. -/
def EngineWal.rotate (w : EngineWal) (now : ℕ) : EngineWal :=
  { w with
    frozen := w.frozen.filter (fun s => s.timestamp != now) ++ [⟨now, w.active⟩]
    active := []
    currentSize := 0 }

/-- The size test under which `append` rotates first. -/
def EngineWal.rotates (w : EngineWal) (e : Entry) : Bool := decide (maxSize < w.currentSize + (packet crc e).length)

/-- The surge-protection test at the head of `append`. -/
def EngineWal.surged (w : EngineWal) : Bool := decide (maxIoErrors ≤ w.ioErrorCount)

/-- `sync_internal`: the error of a failed fsync, in the modes that call it. -/
def WalSyncMode.syncInternal : WalSyncMode → IoFault → Option EngineError
  | .strict, .sync err => some (.storageError s!"WAL fsync: {err}")
  | .batch _, .sync err => some (.storageError s!"WAL batch fsync: {err}")
  | _, _ => .none

/-- The bytes of a packet that reach the file before the write returns. -/
def IoFault.written : IoFault → Bytes → Bytes
  | .write k _, bs => bs.take k
  | _, bs => bs

/-- The write and the fsync of `append`, on a log that has been rotated if need be. -/
def EngineWal.write (w : EngineWal) (e : Entry) (fault : IoFault) : EngineWal × Except EngineError Unit :=
  match fault with
  | .write k err =>
    ({ w with
        active := w.active ++ (packet crc e).take k
        ioErrorCount := w.ioErrorCount + 1 },
      .error <|
        if maxIoErrors ≤ w.ioErrorCount + 1 then
          .storageCritical s!"WAL: {w.ioErrorCount + 1} consecutive IO errors: {err}"
        else .storageError s!"WAL write: {err}")
  | _ =>
    match w.syncMode.syncInternal fault with
    | some err => ({ w with active := w.active ++ packet crc e }, .error err)
    | .none =>
      ({ w with
          active := w.active ++ packet crc e
          ioErrorCount := 0
          currentSize := w.currentSize + (packet crc e).length },
        .ok ())

def EngineWal.append (w : EngineWal) (e : Entry) (now : ℕ) (fault : IoFault) : EngineWal × Except EngineError Unit :=
  if w.surged then
    (w, .error (.storageCritical "WAL: max consecutive IO errors reached, engine must checkpoint"))
  else if w.rotates crc e then
    match fault with
    | .rotate err => (w, .error (.io err))
    | _ => (w.rotate now).write crc e fault
  else w.write crc e fault

/-! ### Replay -/

/-- One packet after its magic byte: the entry, the payload length and the bytes that follow.
`none` is every `break` of the loop: a short read, a checksum that does not match, a payload
too short for its fixed fields, an unknown opcode. -/
def readEntry (bs : Bytes) : Option (Entry × ℕ × Bytes) := do
  let (lenBytes, bs) ← readExact 4 bs
  let payloadLen := ofLe lenBytes
  let (crcBytes, bs) ← readExact 4 bs
  let (payload, bs) ← readExact payloadLen bs
  guard ((crc payload).toNat = ofLe crcBytes)
  let (opcode, cursor) ← readExact 1 payload
  let (idBytes, cursor) ← readExact 4 cursor
  let (clockBytes, _) ← readExact 8 cursor
  let op ← WalOp.ofVariantByte (opcode.headD 0) (UInt32.ofNat (ofLe idBytes))
  pure (⟨op, UInt64.ofNat (ofLe clockBytes), payload.drop 13⟩, payloadLen, bs)

/-- The scan loop: the entries delivered from the bytes `bs` that start at offset `validPos`,
and the final `valid_pos`.  Every turn takes at least one byte, so `fuel` above the number of
bytes left is never used up. -/
def scanFrom : ℕ → Bytes → ℕ → List Entry × ℕ
  | 0, _, validPos => ([], validPos)
  | _, [], validPos => ([], validPos)
  | fuel + 1, b :: bs, validPos =>
    if b ≠ magic then scanFrom fuel bs (validPos + 1)
    else
      match readEntry crc bs with
      | none => ([], validPos)
      | some (e, payloadLen, rest) =>
        let (es, pos) := scanFrom fuel rest (validPos + 1 + 4 + 4 + payloadLen)
        (e :: es, pos)

def scan (file : Bytes) : List Entry × ℕ := scanFrom crc (file.length + 1) file 0

/-- `EngineWal::replay`: the entries handed to the callback, and the file as it is left. -/
def replay (file : Bytes) : List Entry × Bytes :=
  let (es, validPos) := scan crc file
  (es, if validPos < file.length then file.take validPos else file)

/-- `pending_paths`: the frozen segments by name, then the active one.  The timestamps in the
names have the same number of digits, so the order of the names is that of the numbers. -/
def EngineWal.pendingPaths (w : EngineWal) : List Bytes :=
  ((w.frozen.insertionSort fun s t => s.timestamp ≤ t.timestamp).map Segment.bytes) ++ [w.active]

/-- Every entry recovery is handed, over all pending segments. -/
def EngineWal.recovered (w : EngineWal) : List Entry := w.pendingPaths.flatMap fun file => (replay crc file).1

end Wal

end WildAgentOs.Engine
