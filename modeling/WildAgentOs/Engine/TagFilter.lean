import WildAgentOs.Engine.Filter

/-!
# Exactness of tag filters

Tenants and knowledge bases are told apart by tag filters, and a tag is posted under the
flattened text `key:value`.  The text does not determine the key: `a:b` with value `c` and `a`
with value `b:c` share one.

* `MetaOp`, `run`, `payloadAfter`, `reflects_run`, `tagExact_iff`.
-/

namespace WildAgentOs.Engine

open Json JsonLdMetadataIndex List

/-- The payload maps the key to the string, or to an array with the string. -/
def MapsTo (payload : Value) (key value : String) : Prop :=
  ∃ v, (key, v) ∈ payload.asObject.getD [] ∧ (v = .string value ∨ ∃ items, v = .array items ∧ .string value ∈ items)

/-- A key of the general properties. -/
def IsProperty (key : String) : Prop := key.toList.head? ≠ some '@'

/-! ### The flattened text -/

theorem tagText_toList (key value : String) : (tagText key value).toList = key.toList ++ ':' :: value.toList := by
  simp [tagText]

theorem tagText_left_inj {key value value' : String} (h : tagText key value = tagText key value') : value = value' := by
  have h := congrArg String.toList h
  rw [tagText_toList, tagText_toList] at h
  exact String.toList_inj.1 (cons.inj (append_cancel_left h)).2

/-- No text of the `@type` names is that of a general property. -/
theorem tagText_type_ne {key : String} (hkey : IsProperty key) (name value : String) :
    tagText "@type" name ≠ tagText key value := by
  intro h
  have h := congrArg (fun s => s.toList.head?) h
  simp only [tagText_toList] at h
  cases hk : key.toList with
  | nil => simp [hk] at h
  | cons c k =>
    rw [hk] at h
    refine hkey ?_
    rw [hk]
    exact h.symm

theorem mem_propertyStrings {v : Value} {s : String} :
    s ∈ propertyStrings v ↔ v = .string s ∨ ∃ items, v = .array items ∧ .string s ∈ items := by
  cases v <;> simp [propertyStrings, eq_comm]

/-- The texts of the general properties are those of the keys and values the payload maps. -/
theorem mem_tagTexts {payload : Value} {t : String} :
    t ∈ tagTexts payload ↔ ∃ key value, IsProperty key ∧ MapsTo payload key value ∧ tagText key value = t := by
  simp only [tagTexts, properties, mem_flatMap, mem_filter, mem_map,
    mem_propertyStrings, MapsTo, IsProperty, bne_iff_ne, Prod.exists]
  constructor
  · rintro ⟨key, v, ⟨hmem, hkey⟩, value, hv, ht⟩
    exact ⟨key, value, hkey, ⟨v, hmem, hv⟩, ht⟩
  · rintro ⟨key, value, hkey, ⟨v, hmem, hv⟩, ht⟩
    exact ⟨key, v, ⟨hmem, hkey⟩, value, hv, ht⟩

theorem mem_invertedTexts {payload : Value} {key value : String} (hkey : IsProperty key) :
    tagText key value ∈ invertedTexts payload ↔ tagText key value ∈ tagTexts payload := by
  simp only [invertedTexts, mem_append, mem_map, or_iff_right_iff_imp]
  rintro ⟨name, -, h⟩
  exact absurd h (tagText_type_ne hkey name value)

/-! ### Runs -/

/-- A call that changes the index. -/
inductive MetaOp
  | index (id : UInt32) (jsonld : Value)
  | remove (id : UInt32)

namespace MetaOp

def apply (fa : FloatArith) (m : JsonLdMetadataIndex) : MetaOp → JsonLdMetadataIndex
  | index id jsonld => m.index fa id jsonld
  | remove id => m.remove id

/-- The payload a call leaves each id. -/
def payload (p : UInt32 → Option Value) : MetaOp → UInt32 → Option Value
  | index id jsonld => Function.update p id (some jsonld)
  | remove id => Function.update p id none

end MetaOp

/-- The index after the calls, from an empty one. -/
def runMeta (fa : FloatArith) (ops : List MetaOp) : JsonLdMetadataIndex := ops.foldl (MetaOp.apply fa) new

/-- The current payload of each id. -/
def payloadAfter (ops : List MetaOp) : UInt32 → Option Value := ops.foldl MetaOp.payload fun _ => none

variable {fa : FloatArith} {p : UInt32 → Option Value} {m : JsonLdMetadataIndex}

theorem reflects_apply (h : ∀ id, Reflects fa m id (p id))
    (op : MetaOp) (id : UInt32) : Reflects fa (op.apply fa m) id (op.payload p id) := by
  cases op with
  | index j jsonld =>
    rcases eq_or_ne id j with rfl | hne
    · simpa [MetaOp.apply, MetaOp.payload] using reflects_index m id jsonld
    · simpa [MetaOp.apply, MetaOp.payload, hne] using (h id).index_of_ne hne jsonld
  | remove j =>
    rcases eq_or_ne id j with rfl | hne
    · simpa [MetaOp.apply, MetaOp.payload] using reflects_remove m id
    · simpa [MetaOp.apply, MetaOp.payload, hne] using (h id).remove_of_ne hne

theorem reflects_foldl {ops : List MetaOp} (h : ∀ id, Reflects fa m id (p id)) (id : UInt32) :
    Reflects fa (ops.foldl (MetaOp.apply fa) m) id (ops.foldl MetaOp.payload p id) := by
  induction ops generalizing m p with
  | nil => exact h id
  | cons op ops ih => exact ih (reflects_apply h op)

/-- After every run each id is posted exactly where its current payload puts it. -/
theorem reflects_run (ops : List MetaOp) (id : UInt32) : Reflects fa (runMeta fa ops) id (payloadAfter ops id) :=
  reflects_foldl reflects_new id

/-! ### Exactness -/

/-- The filter on a tag finds the ids whose current payload maps the key to the value. -/
def TagExact (fa : FloatArith) (ops : List MetaOp) (key value : String) : Prop :=
  ∃ found, (CompiledFilter.matchTag key value).evaluate fa (runMeta fa ops) = .ok (some found) ∧
    ∀ id, id ∈ found ↔ ∃ payload ∈ payloadAfter ops id, MapsTo payload key value

/-- No current payload maps another key to a value with the same flattened text, or it maps the
key to the value as well. -/
def NoCollision (ops : List MetaOp) (key value : String) : Prop :=
  ∀ id, ∀ payload ∈ payloadAfter ops id, ∀ key' value', key' ≠ key → IsProperty key' →
    MapsTo payload key' value' → tagText key' value' = tagText key value → MapsTo payload key value

theorem tagExact_iff_forall (ops : List MetaOp) (key value : String) : TagExact fa ops key value ↔
      ∀ id, (∃ payload ∈ payloadAfter ops id, tagText key value ∈ invertedTexts payload) ↔
        ∃ payload ∈ payloadAfter ops id, MapsTo payload key value := by
  have hmem : ∀ id, id ∈ ((runMeta fa ops).idsForTag key value).getD ∅ ↔ _ :=
    fun id => (reflects_run ops id).inverted (tagText key value)
  constructor
  · rintro ⟨found, hfound, h⟩ id
    cases hfound
    rw [← hmem, h]
  · intro h
    exact ⟨_, rfl, fun id => (hmem id).trans (h id)⟩

/-- **A tag filter is exact after a run if and only if no current payload collides with the
tag.** -/
theorem tagExact_iff (fa : FloatArith) (ops : List MetaOp) {key : String} (hkey : IsProperty key)
    (value : String) : TagExact fa ops key value ↔ NoCollision ops key value := by
  rw [tagExact_iff_forall]
  constructor
  · intro h id payload hp key' value' _ hkey' hmaps htext
    have hposted : tagText key value ∈ invertedTexts payload := by
      rw [mem_invertedTexts hkey, mem_tagTexts]
      exact ⟨key', value', hkey', hmaps, htext⟩
    obtain ⟨payload', hp', hmaps'⟩ := (h id).1 ⟨payload, hp, hposted⟩
    cases hp.symm.trans hp'
    exact hmaps'
  · intro h id
    refine exists_congr fun payload => and_congr_right fun hp => ?_
    rw [mem_invertedTexts hkey, mem_tagTexts]
    constructor
    · rintro ⟨key', value', hkey', hmaps, htext⟩
      rcases eq_or_ne key' key with rfl | hne
      · rwa [← tagText_left_inj htext]
      · exact h id payload hp key' value' hne hkey' hmaps htext
    · exact fun hmaps => ⟨key, value, hkey, hmaps, rfl⟩

/-- The tag of a tenant whose name is a prefix of another's. -/
theorem tagExact_iff_tenant : IsProperty "tenant" ∧ (TagExact ⟨fun _ => none, fun _ => 0⟩
          [.index 1 (.object [("tenant", .string "t:1")]), .index 2 (.object [("tenant", .string "t")])] "tenant" "t" ↔
        NoCollision
          [.index 1 (.object [("tenant", .string "t:1")]),
            .index 2 (.object [("tenant", .string "t")])] "tenant" "t") :=
  ⟨by simp [IsProperty], tagExact_iff ⟨fun _ => none, fun _ => 0⟩ _ (by simp [IsProperty]) _⟩

/-- The filter on the key `a` finds the payload `{"a:b": "c"}`, which has no such key. -/
theorem not_tagExact_colon :
    ¬ ∀ (fa : FloatArith) (ops : List MetaOp) (key value : String), IsProperty key → TagExact fa ops key value := by
  intro h
  have hexact := h ⟨fun _ => none, fun _ => 0⟩ [.index 1 (.object [("a:b", .string "c")])] "a"
    "b:c" (by simp [IsProperty])
  rw [tagExact_iff_forall] at hexact
  obtain ⟨payload, hp, v, hv, -⟩ := (hexact 1).1
    ⟨_, rfl, mem_singleton.2 (by decide)⟩
  cases hp
  simp [Value.asObject] at hv

end WildAgentOs.Engine
