import WildAgentOs.Json.Value
import WildAgentOs.Lib.Postings

/-!
# The JSON-LD metadata index

`JsonLdMetadataIndex` of `jsonld_meta.rs`: the payload of every id (`forward`) and the posting
lists that filters read: `inverted` by flattened `key:value` text, one list each for `@type`,
`named_graph` and `@context`, and numeric fields in milliscale buckets.

* `index`, `remove`, `removeFromIndexes`, `undelete`, `vacuum` and the readers;
* `index_eq`;
* `Reflects m id payload`: the id is posted exactly where its payload, if it has one, puts it;
  `reflects_index`, `Reflects.index_of_ne` and the like say what an operation does to one id.

The float arithmetic of the numeric index is the parameter `FloatArith`.
-/

namespace WildAgentOs.Engine

open Json List AList

/-- The float operations of the numeric index: `Number::as_f64` and `(v * 1000.0) as i64`. -/
structure FloatArith where
  asF64 : Number → Option F64
  milli : F64 → Int64

/-- A `RoaringBitmap` of ids. -/
abbrev Bitmap := Finset UInt32

/-- A panic of the standard library. -/
inductive Panic
  | rangeStartAfterEnd
  deriving DecidableEq

structure JsonLdMetadataIndex where
  inverted : Postings String UInt32
  typeIndex : Postings String UInt32
  graphIndex : Postings String UInt32
  contextIndex : Postings String UInt32
  numeric : AList fun _ : String => Postings Int64 UInt32
  forward : AList fun _ : UInt32 => Value
  deleted : Bitmap

/-! ### The postings of a payload -/

/-- The text a tag is posted under. -/
def tagText (key value : String) : String := key ++ ":" ++ value

/-- The strings of the `@type` array. -/
def typeNames (jsonld : Value) : List String :=
  match (jsonld.get "@type").bind Value.asArray with
  | some types => Value.strings types
  | none => []

def contextNames (jsonld : Value) : List String := ((jsonld.get "@context").bind Value.asStr).toList

def graphNames (jsonld : Value) : List String := ((jsonld.get "named_graph").bind Value.asStr).toList

/-- The members the general properties are read from: those whose key has no leading `@`. -/
def properties (jsonld : Value) : List (String × Value) :=
  (jsonld.asObject.getD []).filter fun m => m.1.toList.head? != some '@'

/-- The string values one property is posted under. -/
def propertyStrings : Value → List String
  | .string s => [s]
  | .array items => Value.strings items
  | _ => []

/-- The bucket of a numeric property. -/
def propertyBucket (fa : FloatArith) : Value → Option Int64
  | .number n => (fa.asF64 n).map fa.milli
  | _ => none

/-- The texts of the general properties. -/
def tagTexts (jsonld : Value) : List String :=
  (properties jsonld).flatMap fun m => (propertyStrings m.2).map (tagText m.1)

/-- The texts of `inverted`: those of the `@type` names, then those of the properties. -/
def invertedTexts (jsonld : Value) : List String := (typeNames jsonld).map (tagText "@type") ++ tagTexts jsonld

/-- The buckets of the numeric properties, under their keys. -/
def buckets (fa : FloatArith) (jsonld : Value) : List (String × Int64) :=
  (properties jsonld).filterMap fun m => (propertyBucket fa m.2).map (Prod.mk m.1)

namespace JsonLdMetadataIndex

/-- The bucket postings of a numeric key. -/
def bucketIds (m : JsonLdMetadataIndex) (key : String) (bucket : Int64) : Bitmap :=
  ((m.numeric.lookup key).getD ∅).ids bucket

def new : JsonLdMetadataIndex := ⟨∅, ∅, ∅, ∅, ∅, ∅, ∅⟩

def removeFromIndexes (m : JsonLdMetadataIndex) (id : UInt32) : JsonLdMetadataIndex :=
  { m with
    forward := m.forward.erase id
    inverted := m.inverted.dropId id
    typeIndex := m.typeIndex.dropId id
    graphIndex := m.graphIndex.dropId id
    contextIndex := m.contextIndex.dropId id
    numeric := m.numeric.filterMapValues fun tree => some (tree.dropId id) }

/-- Post an id under one bucket of a numeric key. -/
def addBucket (id : UInt32) (numeric : AList fun _ : String => Postings Int64 UInt32)
    (b : String × Int64) : AList fun _ : String => Postings Int64 UInt32 :=
  numeric.insert b.1 (((numeric.lookup b.1).getD ∅).add b.2 id)

/-- One turn of the loop over `@type`. -/
def indexType (id : UInt32) (m : JsonLdMetadataIndex) (name : String) : JsonLdMetadataIndex :=
  { m with
    typeIndex := m.typeIndex.add name id
    inverted := m.inverted.add (tagText "@type" name) id }

/-- One turn of the loop over the general properties. -/
def indexProperty (fa : FloatArith) (id : UInt32) (m : JsonLdMetadataIndex)
    (member : String × Value) : JsonLdMetadataIndex :=
  match member.2 with
  | .string s => { m with inverted := m.inverted.add (tagText member.1 s) id }
  | .number n =>
    match fa.asF64 n with
    | some x => { m with numeric := addBucket id m.numeric (member.1, fa.milli x) }
    | none => m
  | .array items =>
    { m with inverted := m.inverted.addAll ((Value.strings items).map (tagText member.1)) id }
  | _ => m

def index (fa : FloatArith) (m : JsonLdMetadataIndex) (id : UInt32) (jsonld : Value) : JsonLdMetadataIndex :=
  let m := m.removeFromIndexes id
  let m := (typeNames jsonld).foldl (indexType id) m
  let m := { m with contextIndex := m.contextIndex.addAll (contextNames jsonld) id }
  let m := { m with graphIndex := m.graphIndex.addAll (graphNames jsonld) id }
  let m := (properties jsonld).foldl (indexProperty fa id) m
  { m with forward := m.forward.insert id jsonld }

def remove (m : JsonLdMetadataIndex) (id : UInt32) : JsonLdMetadataIndex :=
  let m := m.removeFromIndexes id
  { m with deleted := insert id m.deleted }

def undelete (m : JsonLdMetadataIndex) (id : UInt32) : JsonLdMetadataIndex := { m with deleted := m.deleted.erase id }

def getPayload (m : JsonLdMetadataIndex) (id : UInt32) : Option Value := m.forward.lookup id

/-- `all_ids_filtered`: the ids up to the largest key of `forward`, in order. -/
def allIdsFiltered (m : JsonLdMetadataIndex) (filter : Option Bitmap) : List UInt32 :=
  let max := (m.forward.keys.map UInt32.toNat).foldr max 0
  ((List.range (max + 1)).map UInt32.ofNat).filter fun id =>
    (match filter with
      | some fb => decide (id ∈ fb)
      | none => decide (id ∈ m.forward)) && decide (id ∉ m.deleted)

def allIds (m : JsonLdMetadataIndex) : List UInt32 := m.allIdsFiltered none

def idsForTag (m : JsonLdMetadataIndex) (key value : String) : Option Bitmap := m.inverted.lookup (tagText key value)

def idsForType (m : JsonLdMetadataIndex) (typeName : String) : Option Bitmap := m.typeIndex.lookup typeName

def idsForGraph (m : JsonLdMetadataIndex) (graph : String) : Option Bitmap := m.graphIndex.lookup graph

def idsForContext (m : JsonLdMetadataIndex) (ctx : String) : Option Bitmap := m.contextIndex.lookup ctx

/-- The milliscale bounds of a range; an absent bound is the end of `i64`. -/
def lower (fa : FloatArith) (gte : Option F64) : Int64 := (gte.map fa.milli).getD Int64.minValue

def upper (fa : FloatArith) (lte : Option F64) : Int64 := (lte.map fa.milli).getD Int64.maxValue

/-- `ids_for_numeric_range`: the union of the buckets in the range.  `BTreeMap::range` panics
on a range whose start lies behind its end. -/
def idsForNumericRange (fa : FloatArith) (m : JsonLdMetadataIndex) (key : String)
    (gte lte : Option F64) : Except Panic (Option Bitmap) :=
  match m.numeric.lookup key with
  | none => .ok none
  | some tree =>
    if upper fa lte < lower fa gte then .error .rangeStartAfterEnd
    else
      let result := tree.union fun b => lower fa gte ≤ b && b ≤ upper fa lte
      .ok (if result = ∅ then none else some result)

/-- One id of the first loop of `vacuum`: the index entries it clears. -/
def vacuumIndexes (m : JsonLdMetadataIndex) (id : UInt32) : JsonLdMetadataIndex :=
  { m with
    typeIndex := m.typeIndex.dropId id
    inverted := m.inverted.dropId id
    numeric := m.numeric.filterMapValues fun tree => some (tree.dropId id) }

/-- One id of the second loop of `vacuum`: its payload. -/
def vacuumForward (m : JsonLdMetadataIndex) (id : UInt32) : JsonLdMetadataIndex :=
  { m with forward := m.forward.erase id }

/-- The end of `vacuum`. -/
def clearDeleted (m : JsonLdMetadataIndex) : JsonLdMetadataIndex := { m with deleted := ∅ }

/-- Ids are sorted by their numbers. -/
instance : IsTrans UInt32 (· ≤ ·) := ⟨fun _ _ _ => UInt32.le_trans⟩

/-- `vacuum` without interference: the index without the deleted ids, and their number. -/
def vacuum (m : JsonLdMetadataIndex) : JsonLdMetadataIndex × ℕ :=
  let deletedIds := m.deleted.sort (· ≤ ·)
  let m := deletedIds.foldl vacuumIndexes m
  let m := deletedIds.foldl vacuumForward m
  (m.clearDeleted, deletedIds.length)

/-! ### The loops of `index` -/

theorem foldl_indexType (id : UInt32) (m : JsonLdMetadataIndex) (names : List String) :
    names.foldl (indexType id) m =
      { m with
        typeIndex := m.typeIndex.addAll names id
        inverted := m.inverted.addAll (names.map (tagText "@type")) id } := by
  induction names generalizing m with
  | nil => rfl
  | cons name names ih =>
    rw [foldl_cons, ih]
    rfl

theorem foldl_indexProperty (fa : FloatArith) (id : UInt32) (m : JsonLdMetadataIndex)
    (members : List (String × Value)) :
    members.foldl (indexProperty fa id) m =
      { m with
        inverted := m.inverted.addAll
          (members.flatMap fun p => (propertyStrings p.2).map (tagText p.1)) id
        numeric := (members.filterMap fun p => (propertyBucket fa p.2).map (Prod.mk p.1)).foldl
          (addBucket id) m.numeric } := by
  induction members generalizing m with
  | nil => rfl
  | cons member members ih =>
    obtain ⟨key, val⟩ := member
    rw [foldl_cons, ih]
    cases val with
    | number n =>
      cases hx : fa.asF64 n <;>
        simp [indexProperty, propertyStrings, propertyBucket, hx]
    | _ =>
      simp [indexProperty, propertyStrings, propertyBucket, Postings.addAll, foldl_append]

/-- The loops of `index` as one update of each list. -/
theorem index_eq (fa : FloatArith) (m : JsonLdMetadataIndex) (id : UInt32) (jsonld : Value) :
    m.index fa id jsonld =
      { inverted := (m.inverted.dropId id).addAll (invertedTexts jsonld) id
        typeIndex := (m.typeIndex.dropId id).addAll (typeNames jsonld) id
        graphIndex := (m.graphIndex.dropId id).addAll (graphNames jsonld) id
        contextIndex := (m.contextIndex.dropId id).addAll (contextNames jsonld) id
        numeric := (buckets fa jsonld).foldl (addBucket id)
          (m.numeric.filterMapValues fun tree => some (tree.dropId id))
        forward := (m.forward.erase id).insert id jsonld
        deleted := m.deleted } := by
  simp only [index, foldl_indexType, foldl_indexProperty, removeFromIndexes, invertedTexts,
    tagTexts, buckets, Postings.addAll, foldl_append]

@[simp] theorem deleted_index (fa : FloatArith) (m : JsonLdMetadataIndex) (id : UInt32)
    (jsonld : Value) : (m.index fa id jsonld).deleted = m.deleted := by
  rw [index_eq]

theorem getPayload_index (fa : FloatArith) (m : JsonLdMetadataIndex) (id : UInt32) (jsonld : Value) (j : UInt32) :
    (m.index fa id jsonld).getPayload j = if j = id then some jsonld else m.getPayload j := by
  rw [index_eq]
  unfold getPayload
  by_cases hj : j = id
  · rw [if_pos hj, hj]
    exact lookup_insert _
  · rw [if_neg hj]
    exact (lookup_insert_ne hj).trans (lookup_erase_ne hj)

theorem getPayload_remove (m : JsonLdMetadataIndex) (id j : UInt32) :
    (m.remove id).getPayload j = if j = id then none else m.getPayload j := by
  unfold getPayload remove removeFromIndexes
  by_cases hj : j = id
  · rw [if_pos hj, hj]
    exact lookup_erase id m.forward
  · rw [if_neg hj]
    exact lookup_erase_ne hj

theorem forward_foldl_vacuumIndexes (ids : List UInt32) (m : JsonLdMetadataIndex) :
    (ids.foldl vacuumIndexes m).forward = m.forward := by
  induction ids generalizing m with
  | nil => rfl
  | cons id ids ih => exact ih _

theorem getPayload_foldl_vacuumForward (ids : List UInt32) (m : JsonLdMetadataIndex) (j : UInt32) :
    (ids.foldl vacuumForward m).getPayload j = if j ∈ ids then none else m.getPayload j := by
  induction ids generalizing m with
  | nil => rfl
  | cons id ids ih =>
    rw [foldl_cons, ih]
    by_cases hj : j = id
    · subst hj
      have hnone : (m.vacuumForward j).getPayload j = none := lookup_erase j m.forward
      simp [hnone]
    · have hsame : (m.vacuumForward id).getPayload j = m.getPayload j := lookup_erase_ne hj
      simp [hj, hsame]

/-- `vacuum` drops the payloads of the deleted ids. -/
theorem getPayload_vacuum (m : JsonLdMetadataIndex) (j : UInt32) :
    m.vacuum.1.getPayload j = if j ∈ m.deleted then none else m.getPayload j := by
  unfold vacuum
  show ((m.deleted.sort (· ≤ ·)).foldl vacuumForward _).getPayload j = _
  rw [getPayload_foldl_vacuumForward]
  simp only [Finset.mem_sort, getPayload, forward_foldl_vacuumIndexes]

@[simp] theorem getPayload_undelete (m : JsonLdMetadataIndex) (id j : UInt32) :
    (m.undelete id).getPayload j = m.getPayload j := rfl

/-! ### The readers -/

variable {m : JsonLdMetadataIndex} {id : UInt32}

/-- `all_ids` holds the ids with a payload that are not deleted. -/
theorem mem_allIds : id ∈ m.allIds ↔ id ∈ m.forward ∧ id ∉ m.deleted := by
  simp only [allIds, allIdsFiltered, mem_filter, mem_map, mem_range,
    Bool.and_eq_true, decide_eq_true_eq, and_iff_right_iff_imp]
  rintro ⟨hid, -⟩
  have hmem : id.toNat ∈ m.forward.keys.map UInt32.toNat := mem_map_of_mem hid
  exact ⟨id.toNat, Nat.lt_succ_of_le (le_max_of_le hmem le_rfl), by simp⟩

variable {key : String} {gte lte : Option F64} {fa : FloatArith}

theorem mem_idsForNumericRange {ids : Option Bitmap} (h : m.idsForNumericRange fa key gte lte = .ok ids) :
    id ∈ ids.getD ∅ ↔ ∃ b, id ∈ m.bucketIds key b ∧ lower fa gte ≤ b ∧ b ≤ upper fa lte := by
  unfold idsForNumericRange at h
  cases htree : m.numeric.lookup key with
  | none =>
    rw [htree] at h
    cases h
    simp [bucketIds, htree]
  | some tree =>
    rw [htree] at h
    simp only at h
    split at h
    · cases h
    · have hget : ids.getD ∅ = tree.union fun b => lower fa gte ≤ b && b ≤ upper fa lte := by
        cases h
        split_ifs with hempty
        · simp [hempty]
        · rfl
      simp only [hget, Postings.mem_union, Bool.and_eq_true, decide_eq_true_eq, bucketIds, htree, Option.getD_some]
      exact exists_congr fun b => and_comm

/-- A range panics only when its start lies behind its end. -/
theorem idsForNumericRange_ok (h : lower fa gte ≤ upper fa lte)
    (m : JsonLdMetadataIndex) (key : String) : ∃ ids, m.idsForNumericRange fa key gte lte = .ok ids := by
  unfold idsForNumericRange
  cases m.numeric.lookup key with
  | none => exact ⟨_, rfl⟩
  | some tree => exact ⟨_, if_neg (Int64.not_lt.2 h)⟩

/-! ### What each operation does to one id -/

variable {numeric : AList fun _ : String => Postings Int64 UInt32} {bucket : Int64} {id j : UInt32}

theorem mem_foldl_addBucket {bs : List (String × Int64)} :
    j ∈ (((bs.foldl (addBucket id) numeric).lookup key).getD ∅).ids bucket ↔
      ((key, bucket) ∈ bs ∧ j = id) ∨ j ∈ ((numeric.lookup key).getD ∅).ids bucket := by
  induction bs generalizing numeric with
  | nil => simp
  | cons b bs ih =>
    rw [foldl_cons, ih]
    by_cases hkey : key = b.1
    · subst hkey
      simp only [addBucket, lookup_insert, Option.getD_some, Postings.mem_ids_add, mem_cons, Prod.ext_iff, true_and]
      tauto
    · simp only [addBucket, lookup_insert_ne hkey, mem_cons, Prod.ext_iff, hkey, false_and, false_or]

theorem mem_dropBuckets : j ∈ (((numeric.filterMapValues fun tree : Postings Int64 UInt32 =>
        some (tree.dropId id)).lookup key).getD ∅).ids bucket ↔
      j ≠ id ∧ j ∈ ((numeric.lookup key).getD ∅).ids bucket := by
  rw [lookup_filterMapValues]
  cases numeric.lookup key with
  | none => simp
  | some tree => simp [Postings.mem_ids_dropId]

/-- The postings and the stored payload of one id are those of `payload`. -/
structure Reflects (fa : FloatArith) (m : JsonLdMetadataIndex) (id : UInt32)
    (payload : Option Value) : Prop where
  forward : m.forward.lookup id = payload
  inverted : ∀ t, id ∈ m.inverted.ids t ↔ ∃ p ∈ payload, t ∈ invertedTexts p
  typeIndex : ∀ t, id ∈ m.typeIndex.ids t ↔ ∃ p ∈ payload, t ∈ typeNames p
  graphIndex : ∀ t, id ∈ m.graphIndex.ids t ↔ ∃ p ∈ payload, t ∈ graphNames p
  contextIndex : ∀ t, id ∈ m.contextIndex.ids t ↔ ∃ p ∈ payload, t ∈ contextNames p
  numeric : ∀ key b, id ∈ m.bucketIds key b ↔ ∃ p ∈ payload, (key, b) ∈ buckets fa p

variable {fa : FloatArith} {m : JsonLdMetadataIndex} {id j : UInt32} {payload : Option Value}

theorem Reflects.numeric_ids (h : Reflects fa m id payload) (key : String) (b : Int64) :
    id ∈ ((m.numeric.lookup key).getD ∅).ids b ↔ ∃ p ∈ payload, (key, b) ∈ buckets fa p :=
  h.numeric key b

theorem reflects_new (id : UInt32) : Reflects fa new id none := by
  constructor <;> simp [new, bucketIds]

theorem reflects_index (m : JsonLdMetadataIndex) (id : UInt32) (jsonld : Value) :
    Reflects fa (m.index fa id jsonld) id (some jsonld) := by
  rw [index_eq]
  constructor <;>
    simp [Postings.mem_ids_addAll, Postings.mem_ids_dropId, bucketIds, mem_foldl_addBucket, mem_dropBuckets]

theorem Reflects.index_of_ne (h : Reflects fa m j payload) (hne : j ≠ id) (jsonld : Value) :
    Reflects fa (m.index fa id jsonld) j payload := by
  rw [index_eq]
  constructor <;>
    simp [Postings.mem_ids_addAll, Postings.mem_ids_dropId, bucketIds, mem_foldl_addBucket,
      mem_dropBuckets, lookup_insert_ne hne, lookup_erase_ne hne, hne, h.forward,
      h.inverted, h.typeIndex, h.graphIndex, h.contextIndex, h.numeric_ids]

theorem reflects_removeFromIndexes (m : JsonLdMetadataIndex) (id : UInt32) :
    Reflects fa (m.removeFromIndexes id) id none := by
  constructor <;> simp [removeFromIndexes, Postings.mem_ids_dropId, bucketIds, mem_dropBuckets]

theorem Reflects.removeFromIndexes_of_ne (h : Reflects fa m j payload) (hne : j ≠ id) :
    Reflects fa (m.removeFromIndexes id) j payload := by
  constructor <;>
    simp [removeFromIndexes, Postings.mem_ids_dropId, bucketIds, mem_dropBuckets, lookup_erase_ne hne, hne,
      h.forward, h.inverted, h.typeIndex, h.graphIndex, h.contextIndex, h.numeric_ids]

/-- The set of deleted ids plays no part. -/
theorem Reflects.with_deleted (h : Reflects fa m j payload) (deleted : Bitmap) :
    Reflects fa { m with deleted } j payload := ⟨h.1, h.2, h.3, h.4, h.5, h.6⟩

theorem reflects_remove (m : JsonLdMetadataIndex) (id : UInt32) : Reflects fa (m.remove id) id none :=
  (reflects_removeFromIndexes m id).with_deleted _

theorem Reflects.remove_of_ne (h : Reflects fa m j payload) (hne : j ≠ id) : Reflects fa (m.remove id) j payload :=
  (h.removeFromIndexes_of_ne hne).with_deleted _

/-- A live id is one of the universe that `and` and `not` start from. -/
theorem Reflects.mem_allIds {jsonld : Value} (h : Reflects fa m id (some jsonld))
    (hlive : id ∉ m.deleted) : id ∈ m.allIds.toFinset := by
  rw [mem_toFinset, JsonLdMetadataIndex.mem_allIds, ← lookup_isSome, h.forward]
  exact ⟨rfl, hlive⟩

end JsonLdMetadataIndex

end WildAgentOs.Engine
