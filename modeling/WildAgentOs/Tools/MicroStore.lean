import WildAgentOs.Isolation
import WildAgentOs.Json.Value
import WildAgentOs.Lib.Eviction

/-!
# The store of generated result readers

`tools/tool_executor/micro_store.rs`: large results of tools and the readers that serve them, both by their owners.
A result is kept under a text that spells its owner; both tables are pruned after every write.

* `MicroToolOwner.storageKey`, `storageKey_inj`;
* `MicroToolStore`: `storeData`, `registerReader`, `lookup`, `readersFor`, `removeReadersNamed`, `removeRun`;
* `MicroToolStore.Op`, `MicroToolStore.run`: histories, with the time.
-/

namespace WildAgentOs.Tools

open List

/-! ### Owners and their keys -/

@[ext]
structure MicroToolOwner where
  tenantId : String
  projectId : String
  runId : String
  agentId : String
  deriving DecidableEq

/-- The bytes that are left as they are. -/
def isUnescaped (byte : UInt8) : Bool :=
  let n := byte.toNat
  (48 ≤ n && n ≤ 57) || (65 ≤ n && n ≤ 90) || (97 ≤ n && n ≤ 122) || n == 45 || n == 95 || n == 46

def hexDigit (n : ℕ) : Char := (Nat.digitChar n).toUpper

def escapeByte (byte : UInt8) : List Char :=
  if isUnescaped byte then [Char.ofNat byte.toNat] else ['%', hexDigit (byte.toNat / 16), hexDigit (byte.toNat % 16)]

/-- The bytes of a text. -/
def utf8Bytes (value : String) : List UInt8 := value.toUTF8.data.toList

def escapeSegment (value : String) : List Char := (utf8Bytes value).flatMap escapeByte

namespace MicroToolOwner

def new (claims : Option IsolationClaims) (runId agentId : String) : MicroToolOwner :=
  ⟨(claims.map (·.tenantId)).getD "", (claims.map (·.projectId)).getD "", runId, agentId⟩

def storageKey (owner : MicroToolOwner) (callId : String) : String :=
  String.ofList ("iri://tool-result/".toList ++ (escapeSegment owner.tenantId ++ '/' :: (escapeSegment owner.projectId ++
    '/' :: (escapeSegment owner.runId ++ '/' :: (escapeSegment owner.agentId ++ '/' :: escapeSegment callId)))))

end MicroToolOwner

theorem slash_notMem_escapeByte : ∀ n < 256, '/' ∉ escapeByte (UInt8.ofNat n) := by decide +kernel

theorem slash_notMem_escapeSegment (value : String) : '/' ∉ escapeSegment value := by
  intro hmem
  obtain ⟨byte, -, hbyte⟩ := mem_flatMap.1 hmem
  have hall := slash_notMem_escapeByte byte.toNat byte.toNat_lt
  rw [UInt8.ofNat_toNat] at hall
  exact hall hbyte

theorem escapeByte_ne_nil (byte : UInt8) : escapeByte byte ≠ [] := by
  unfold escapeByte
  split_ifs <;> exact cons_ne_nil _ _

theorem toNat_ofNat_byte : ∀ n < 256, (Char.ofNat n).toNat = n := by decide +kernel

theorem hexDigit_inj : ∀ n < 16, ∀ m < 16, hexDigit n = hexDigit m → n = m := by decide +kernel

theorem ofNat_ne_percent {byte : UInt8} (h : isUnescaped byte = true) : Char.ofNat byte.toNat ≠ '%' := by
  intro heq
  have hcode := congrArg Char.toNat heq
  rw [toNat_ofNat_byte _ byte.toNat_lt] at hcode
  unfold isUnescaped at h
  rw [hcode] at h
  exact absurd h (by decide)

/-- The first byte of an escaped text is read off it. -/
theorem escapeByte_append {byte byte' : UInt8} {rest rest' : List Char}
    (h : escapeByte byte ++ rest = escapeByte byte' ++ rest') : byte = byte' := by
  unfold escapeByte at h
  split_ifs at h with hbyte hbyte' hbyte'
  · have hcode := congrArg Char.toNat (cons.inj h).1
    rw [toNat_ofNat_byte _ byte.toNat_lt, toNat_ofNat_byte _ byte'.toNat_lt] at hcode
    exact UInt8.toNat_inj.1 hcode
  · exact absurd (cons.inj h).1 (ofNat_ne_percent hbyte)
  · exact absurd (cons.inj h).1.symm (ofNat_ne_percent hbyte')
  · obtain ⟨-, hdigits⟩ := cons.inj h
    obtain ⟨hhigh, hlow⟩ := cons.inj hdigits
    have hbound := byte.toNat_lt
    have hbound' := byte'.toNat_lt
    have hdiv := hexDigit_inj _ (by omega) _ (by omega) hhigh
    have hmod := hexDigit_inj _ (by omega) _ (by omega) (cons.inj hlow).1
    exact UInt8.toNat_inj.1 (by omega)

theorem escapeSegment_inj {value value' : String} (h : escapeSegment value = escapeSegment value') :
    value = value' := by
  have hbytes := Text.flatMap_injective escapeByte_ne_nil (fun _ _ _ _ => escapeByte_append) h
  exact String.toByteArray_inj.1 (ByteArray.ext (Array.toList_inj.1 hbytes))

/-- **No value can spell another owner's key.** -/
theorem storageKey_inj {owner owner' : MicroToolOwner} {callId callId' : String}
    (h : owner.storageKey callId = owner'.storageKey callId') : owner = owner' ∧ callId = callId' := by
  have hsegments := append_cancel_left (String.ofList_inj.1 h)
  have hsplit : ∀ {value value' : String} {rest rest' : List Char},
      escapeSegment value ++ '/' :: rest = escapeSegment value' ++ '/' :: rest' → value = value' ∧ rest = rest' := by
    intro value value' rest rest' heq
    have hfront := Text.eq_of_append_cons heq (slash_notMem_escapeSegment value) (slash_notMem_escapeSegment value')
    rw [hfront] at heq
    exact ⟨escapeSegment_inj hfront, (cons.inj (append_cancel_left heq)).2⟩
  obtain ⟨htenant, hsegments⟩ := hsplit hsegments
  obtain ⟨hproject, hsegments⟩ := hsplit hsegments
  obtain ⟨hrun, hsegments⟩ := hsplit hsegments
  obtain ⟨hagent, hcall⟩ := hsplit hsegments
  exact ⟨MicroToolOwner.ext htenant hproject hrun hagent, escapeSegment_inj hcall⟩

/-! ### The store -/

structure MicroToolContext where
  callId : String
  storageKey : String
  toolName : String
  entityTypes : List String
  previewSize : ℕ
  owner : MicroToolOwner
  deriving DecidableEq

structure ReaderEntry where
  name : String
  context : MicroToolContext
  seq : ℕ
  created : ℕ
  deriving DecidableEq

structure DataEntry where
  key : String
  owner : MicroToolOwner
  value : Json.Value
  seq : ℕ
  created : ℕ

def readerFields : Eviction.Fields ReaderEntry (MicroToolOwner × String) String :=
  ⟨fun entry => (entry.context.owner, entry.name), fun entry => entry.context.owner.tenantId, fun entry => entry.seq⟩

def dataFields : Eviction.Fields DataEntry String String :=
  ⟨fun entry => entry.key, fun entry => entry.owner.tenantId, fun entry => entry.seq⟩

def maxMicroToolEntries : ℕ := 1024

/-- What the environment sets. -/
structure MicroToolConfig where
  ttlSecs : Option ℕ
  quota : Option ℕ
  deriving DecidableEq

namespace MicroToolConfig

/-- `ttl`, in nanoseconds. -/
def ttl (cfg : MicroToolConfig) : ℕ := ((cfg.ttlSecs.filter (0 < ·)).getD (60 * 60)) * 10 ^ 9

def tenantQuota (cfg : MicroToolConfig) : ℕ :=
  match cfg.quota.filter (0 < ·) with
  | some quota => min (max quota 1) 1024
  | none => 256

theorem ttl_pos (cfg : MicroToolConfig) : 0 < cfg.ttl := by
  unfold ttl
  cases hsecs : cfg.ttlSecs.filter (0 < ·) with
  | none => simp
  | some secs =>
    have hpos := (Option.filter_eq_some_iff.1 hsecs).2
    rw [decide_eq_true_eq] at hpos
    exact Nat.mul_pos hpos (by positivity)

theorem tenantQuota_pos (cfg : MicroToolConfig) : 0 < cfg.tenantQuota := by
  unfold tenantQuota
  split <;> omega

end MicroToolConfig

/-- The searches through the two maps, for a group over its quota. -/
structure Finders where
  readers : Eviction.Finder ReaderEntry String
  data : Eviction.Finder DataEntry String

structure MicroToolStore where
  readers : List ReaderEntry
  data : List DataEntry
  nextSeq : ℕ

namespace MicroToolStore

/-- `default`. -/
def empty : MicroToolStore := ⟨[], [], 0⟩

/-- `prune`, on one table: what is not expired, within the quotas and within the capacity. -/
def pruneTable {α κ : Type*} [DecidableEq κ] (cfg : MicroToolConfig) (fields : Eviction.Fields α κ String)
    (finder : Eviction.Finder α String) (created : α → ℕ) (now : ℕ) (entries : List α) : List α :=
  let live := entries.filter fun entry => decide (now - created entry < cfg.ttl)
  let within := Eviction.evictOverQuota fields finder cfg.tenantQuota live.length live
  Eviction.evictOverCapacity fields maxMicroToolEntries within.length within

def prune (cfg : MicroToolConfig) (finders : Finders) (now : ℕ) (store : MicroToolStore) : MicroToolStore :=
  { store with
    readers := pruneTable cfg readerFields finders.readers (·.created) now store.readers
    data := pruneTable cfg dataFields finders.data (·.created) now store.data }

/-- The insertion of `store_data`. -/
def insertData (store : MicroToolStore) (now : ℕ) (owner : MicroToolOwner) (storageKey : String) (value : Json.Value) :
    MicroToolStore :=
  { store with
    data := ⟨storageKey, owner, value, store.nextSeq + 1, now⟩ :: Eviction.remove dataFields storageKey store.data
    nextSeq := store.nextSeq + 1 }

/-- The insertion of `register_reader`. -/
def insertReader (store : MicroToolStore) (now : ℕ) (toolName : String) (context : MicroToolContext) : MicroToolStore :=
  { store with
    readers := ⟨toolName, context, store.nextSeq + 1, now⟩ ::
      Eviction.remove readerFields (context.owner, toolName) store.readers
    nextSeq := store.nextSeq + 1 }

def storeData (cfg : MicroToolConfig) (finders : Finders) (now : ℕ) (store : MicroToolStore) (owner : MicroToolOwner)
    (storageKey : String) (value : Json.Value) : MicroToolStore :=
  (store.insertData now owner storageKey value).prune cfg finders now

def registerReader (cfg : MicroToolConfig) (finders : Finders) (now : ℕ) (store : MicroToolStore) (toolName : String)
    (context : MicroToolContext) : MicroToolStore :=
  (store.insertReader now toolName context).prune cfg finders now

def lookup (cfg : MicroToolConfig) (now : ℕ) (store : MicroToolStore) (owner : MicroToolOwner) (toolName : String) :
    Option (MicroToolContext × Json.Value) :=
  ((store.readers.find? fun entry => decide (readerFields.key entry = (owner, toolName))).filter fun entry =>
    decide (now - entry.created < cfg.ttl)).bind fun reader =>
    ((store.data.find? fun entry => decide (dataFields.key entry = reader.context.storageKey)).filter fun entry =>
      decide (entry.owner = owner ∧ now - entry.created < cfg.ttl)).map fun data => (reader.context, data.value)

def hasReader (cfg : MicroToolConfig) (now : ℕ) (store : MicroToolStore) (owner : MicroToolOwner) (toolName : String) :
    Bool := (store.lookup cfg now owner toolName).isSome

def readersFor (cfg : MicroToolConfig) (now : ℕ) (store : MicroToolStore) (owner : MicroToolOwner) :
    List (String × MicroToolContext) :=
  ((store.readers.filter fun entry => decide (entry.context.owner = owner ∧ now - entry.created < cfg.ttl)).mergeSort
    fun a b => decide (a.seq ≤ b.seq)).map fun entry => (entry.name, entry.context)

def removeReadersNamed (store : MicroToolStore) (toolName : String) : MicroToolStore :=
  { store with readers := store.readers.filter fun entry => decide (entry.name ≠ toolName) }

def removeRun (store : MicroToolStore) (runId : String) : MicroToolStore :=
  { store with
    readers := store.readers.filter fun entry => decide (entry.context.owner.runId ≠ runId)
    data := store.data.filter fun entry => decide (entry.owner.runId ≠ runId) }

end MicroToolStore

end WildAgentOs.Tools
