import WildAgentOs.Engine.TagFilter

/-!
# The two evaluators of a filter

Besides `evaluate`, which builds a bitmap from the posting lists, `filter.rs` has `check`, which asks predicates.  Here
they are the predicates of a payload.  `evaluate` knows a number by its bucket of a thousandth, and a tag by its text.

* `CompiledFilter.check`, `CompiledFilter.checkMilli`, `Predicates.of`;
* `finds_iff_checkMilli`: the two agree, if numbers are compared in thousandths.
-/

namespace WildAgentOs.Engine

open Json JsonLdMetadataIndex List

/-- What `check` is called with. -/
structure Predicates where
  hasTag : String → String → Bool
  getNumeric : String → Option F64
  hasType : String → Bool
  hasGraph : String → Bool

namespace CompiledFilter

section
variable (le : F64 → F64 → Bool) (p : Predicates)

/-- The number lies within the bounds, in the order `le`. -/
def within (gte lte : Option F64) (x : F64) : Bool := gte.all (le · x) && lte.all (le x ·)

mutual

/-- `check`, but for the comparison of the numbers. -/
def checkBy : CompiledFilter → Bool
  | matchTag key val => p.hasTag key val
  | matchType typ => p.hasType typ
  | matchGraph graph => p.hasGraph graph
  | matchContext _ => true
  | range key gte lte => (p.getNumeric key).any (within le gte lte)
  | and conds => checkAll conds
  | or conds => checkAny conds
  | not cond => !checkBy cond

def checkAll : List CompiledFilter → Bool
  | [] => true
  | cond :: conds => checkBy cond && checkAll conds

def checkAny : List CompiledFilter → Bool
  | [] => false
  | cond :: conds => checkBy cond || checkAny conds

end

def check (p : Predicates) : CompiledFilter → Bool := checkBy F64.le p

/-- `check`, with all numbers in whole thousandths. -/
def checkMilli (fa : FloatArith) (p : Predicates) : CompiledFilter → Bool :=
  checkBy (fun x y => fa.milli x ≤ fa.milli y) p

end

section
variable (P : CompiledFilter → Prop)

mutual

/-- Every leaf of the filter has the property. -/
def EachLeaf : CompiledFilter → Prop
  | and conds => EachLeafOf conds
  | or conds => EachLeafOf conds
  | not cond => EachLeaf cond
  | leaf => P leaf

def EachLeafOf : List CompiledFilter → Prop
  | [] => True
  | cond :: conds => EachLeaf cond ∧ EachLeafOf conds

end

end

/-- No `matchContext`: `check` has no predicate for it. -/
def IsChecked : CompiledFilter → Prop
  | matchContext _ => False
  | _ => True

end CompiledFilter

/-! ### The predicates of a payload -/

/-- The strings a payload has under a key.  Of the keys with a leading `@` only the types are read. -/
def stringsUnder (payload : Value) (key : String) : List String :=
  if key = "@type" then typeNames payload
  else if key.toList.head? = some '@' then []
  else ((payload.get key).map propertyStrings).getD []

/-- The number a payload has under a key. -/
def numberUnder (fa : FloatArith) (payload : Value) (key : String) : Option F64 :=
  if key.toList.head? = some '@' then none
  else
    match payload.get key with
    | some (.number n) => fa.asF64 n
    | _ => none

/-- What a payload says to the predicates. -/
def Predicates.of (fa : FloatArith) (payload : Value) : Predicates where
  hasTag key value := decide (value ∈ stringsUnder payload key)
  getNumeric := numberUnder fa payload
  hasType name := decide (name ∈ typeNames payload)
  hasGraph graph := decide (graph ∈ graphNames payload)

/-- The keys of an object are distinct. -/
def DistinctKeys (payload : Value) : Prop := ∀ members, payload = .object members → (members.map Prod.fst).Nodup

/-- No other tag of the payload flattens to the text of the filter's, unless the payload has that tag too. -/
def ToldApart (payload : Value) : CompiledFilter → Prop
  | .matchTag key value => ∀ key' value', value' ∈ stringsUnder payload key' →
      tagText key' value' = tagText key value → value ∈ stringsUnder payload key
  | _ => True

variable {fa : FloatArith} {payload : Value}

/-- A key is looked up among distinct keys. -/
theorem get_eq_some (hkeys : DistinctKeys payload) {key : String} {v : Value} :
    payload.get key = some v ↔ (key, v) ∈ payload.asObject.getD [] := by
  cases payload with
  | object members =>
    have hnodup := hkeys members rfl
    show members.lookup key = some v ↔ (key, v) ∈ members
    clear hkeys
    induction members with
    | nil => simp
    | cons member members ih =>
      obtain ⟨name, old⟩ := member
      obtain ⟨hname, hnodup⟩ := nodup_cons.1 hnodup
      by_cases hkey : key = name
      · subst hkey
        have hrest : (key, v) ∉ members := fun hmem => hname (mem_map.2 ⟨(key, v), hmem, rfl⟩)
        simp [hrest, eq_comm]
      · simp [lookup_cons, beq_eq_false_iff_ne.2 hkey, hkey, ih hnodup]
  | _ => simp [Value.get, Value.asObject]

theorem ne_type_of_isProperty {key : String} (h : IsProperty key) : key ≠ "@type" := by
  rintro rfl
  exact h (by decide)

section

variable (hkeys : DistinctKeys payload)
include hkeys

/-- The strings under a key of the general properties. -/
theorem mem_stringsUnder {key value : String} (hkey : IsProperty key) :
    value ∈ stringsUnder payload key ↔ MapsTo payload key value := by
  unfold stringsUnder MapsTo
  rw [if_neg (ne_type_of_isProperty hkey), if_neg hkey]
  constructor
  · intro hvalue
    cases hget : payload.get key with
    | none =>
      rw [hget] at hvalue
      exact absurd hvalue not_mem_nil
    | some v =>
      rw [hget] at hvalue
      exact ⟨v, (get_eq_some hkeys).1 hget, mem_propertyStrings.1 hvalue⟩
  · rintro ⟨v, hmem, hv⟩
    rw [(get_eq_some hkeys).2 hmem]
    exact mem_propertyStrings.2 hv

/-- **The texts a payload is posted under are those of its tags.** -/
theorem mem_invertedTexts_iff {t : String} :
    t ∈ invertedTexts payload ↔ ∃ key value, value ∈ stringsUnder payload key ∧ tagText key value = t := by
  rw [invertedTexts, mem_append, mem_map, mem_tagTexts]
  constructor
  · rintro (⟨name, hname, rfl⟩ | ⟨key, value, hkey, hmaps, rfl⟩)
    · exact ⟨"@type", name, by rwa [stringsUnder, if_pos rfl], rfl⟩
    · exact ⟨key, value, (mem_stringsUnder hkeys hkey).2 hmaps, rfl⟩
  · rintro ⟨key, value, hvalue, rfl⟩
    by_cases htype : key = "@type"
    · rw [stringsUnder, if_pos htype] at hvalue
      exact .inl ⟨value, hvalue, by rw [htype]⟩
    · by_cases hkey : IsProperty key
      · exact .inr ⟨key, value, hkey, (mem_stringsUnder hkeys hkey).1 hvalue, rfl⟩
      · rw [stringsUnder, if_neg htype, if_pos (not_not.1 hkey)] at hvalue
        exact absurd hvalue not_mem_nil

/-- The buckets of a payload are those of its numbers. -/
theorem mem_buckets_iff {key : String} {b : Int64} :
    (key, b) ∈ buckets fa payload ↔ ∃ x, numberUnder fa payload key = some x ∧ fa.milli x = b := by
  have hentry : (key, b) ∈ buckets fa payload ↔
      IsProperty key ∧ ∃ v, payload.get key = some v ∧ propertyBucket fa v = some b := by
    unfold buckets properties
    rw [mem_filterMap]
    constructor
    · rintro ⟨⟨name, v⟩, hmem, hv⟩
      obtain ⟨hmem, hname⟩ := mem_filter.1 hmem
      obtain ⟨bucket, hbucket, heq⟩ := Option.map_eq_some_iff.1 hv
      cases heq
      exact ⟨bne_iff_ne.1 hname, v, (get_eq_some hkeys).2 hmem, hbucket⟩
    · rintro ⟨hkey, v, hget, hbucket⟩
      refine ⟨(key, v), mem_filter.2 ⟨(get_eq_some hkeys).1 hget, bne_iff_ne.2 hkey⟩, ?_⟩
      simp [hbucket]
  rw [hentry]
  unfold numberUnder
  constructor
  · rintro ⟨hkey, v, hget, hbucket⟩
    rw [if_neg hkey, hget]
    cases v with
    | number n => exact Option.map_eq_some_iff.1 hbucket
    | _ => cases hbucket
  · rintro ⟨x, hx, rfl⟩
    split_ifs at hx with hkey
    refine ⟨hkey, ?_⟩
    cases hget : payload.get key with
    | none =>
      rw [hget] at hx
      cases hx
    | some v =>
      rw [hget] at hx
      cases v with
      | number n => exact ⟨_, rfl, Option.map_eq_some_iff.2 ⟨x, hx, rfl⟩⟩
      | _ => cases hx

end

/-- An absent bound bounds nothing. -/
theorem within_milli_iff {gte lte : Option F64} {x : F64} :
    CompiledFilter.within (fun x y => fa.milli x ≤ fa.milli y) gte lte x = true ↔
      lower fa gte ≤ fa.milli x ∧ fa.milli x ≤ upper fa lte := by
  have hmin : Int64.minValue ≤ fa.milli x := Int64.minValue_le _
  have hmax : fa.milli x ≤ Int64.maxValue := Int64.le_maxValue _
  unfold CompiledFilter.within lower upper
  cases gte <;> cases lte <;> simp [hmin, hmax]

namespace CompiledFilter

mutual

/-- **What the filter says of a payload is what `check` finds, in thousandths.** -/
theorem accepts_iff_checkMilli (hkeys : DistinctKeys payload) :
    ∀ {f : CompiledFilter}, f.EachLeaf IsChecked → f.EachLeaf (ToldApart payload) →
      (f.accepts fa payload ↔ f.checkMilli fa (.of fa payload) = true)
  | matchTag key val, _, happart => by
    refine Iff.trans ?_ decide_eq_true_iff.symm
    rw [accepts, mem_invertedTexts_iff hkeys]
    exact ⟨fun ⟨key', val', hval', htext⟩ => happart key' val' hval' htext, fun hval => ⟨key, val, hval, rfl⟩⟩
  | matchType typ, _, _ => by
    rw [accepts]
    exact decide_eq_true_iff.symm
  | matchGraph graph, _, _ => by
    rw [accepts]
    exact decide_eq_true_iff.symm
  | matchContext _, hchecked, _ => hchecked.elim
  | range key gte lte, _, _ => by
    have hany : (range key gte lte).checkMilli fa (.of fa payload) =
      (numberUnder fa payload key).any (within (fun x y => fa.milli x ≤ fa.milli y) gte lte) := rfl
    rw [accepts, hany, Option.any_eq_true]
    constructor
    · rintro ⟨b, hb, hlower, hupper⟩
      obtain ⟨x, hx, rfl⟩ := (mem_buckets_iff hkeys).1 hb
      exact ⟨x, hx, within_milli_iff.2 ⟨hlower, hupper⟩⟩
    · rintro ⟨x, hx, hwithin⟩
      exact ⟨fa.milli x, (mem_buckets_iff hkeys).2 ⟨x, hx, rfl⟩, within_milli_iff.1 hwithin⟩
  | and conds, hchecked, happart => acceptsAll_iff_checkAll hkeys hchecked happart
  | or conds, hchecked, happart => acceptsAny_iff_checkAny hkeys hchecked happart
  | not cond, hchecked, happart => by
    have hcond := accepts_iff_checkMilli hkeys (f := cond) hchecked happart
    have hnot : (not cond).checkMilli fa (.of fa payload) = !cond.checkMilli fa (.of fa payload) := rfl
    rw [accepts, hcond, hnot, Bool.not_eq_true', Bool.not_eq_true]

theorem acceptsAll_iff_checkAll (hkeys : DistinctKeys payload) :
    ∀ {conds : List CompiledFilter}, EachLeafOf IsChecked conds → EachLeafOf (ToldApart payload) conds →
      (acceptsAll fa payload conds ↔ checkAll (fun x y => fa.milli x ≤ fa.milli y) (.of fa payload) conds = true)
  | [], _, _ => by simp [acceptsAll, checkAll]
  | cond :: conds, hchecked, happart => by
    rw [acceptsAll, checkAll, Bool.and_eq_true]
    exact and_congr (accepts_iff_checkMilli hkeys hchecked.1 happart.1)
      (acceptsAll_iff_checkAll hkeys hchecked.2 happart.2)

theorem acceptsAny_iff_checkAny (hkeys : DistinctKeys payload) :
    ∀ {conds : List CompiledFilter}, EachLeafOf IsChecked conds → EachLeafOf (ToldApart payload) conds →
      (acceptsAny fa payload conds ↔ checkAny (fun x y => fa.milli x ≤ fa.milli y) (.of fa payload) conds = true)
  | [], _, _ => by simp [acceptsAny, checkAny]
  | cond :: conds, hchecked, happart => by
    rw [acceptsAny, checkAny, Bool.or_eq_true]
    exact or_congr (accepts_iff_checkMilli hkeys hchecked.1 happart.1)
      (acceptsAny_iff_checkAny hkeys hchecked.2 happart.2)

end

/-- Floats as they are, all of them less than a thousandth. -/
def tinyArith : FloatArith where
  asF64
    | .float x => some x
    | _ => none
  milli _ := 0

/-- `0.0001`. -/
def tinyPayload : Value := .object [("score", .number (.float ⟨0x3F1A36E2EB1C432D⟩)), ("status", .string "final")]

/-- At least `0.0005`, and no draft. -/
def tinyFilter : CompiledFilter :=
  .and [.range "score" (some ⟨0x3F40624DD2F1A9FC⟩) none, .not (.matchTag "status" "draft")]

theorem tinyPayload_distinct : DistinctKeys tinyPayload := by
  rintro members hmembers
  obtain rfl := Value.object.inj hmembers
  decide

theorem tinyFilter_toldApart : tinyFilter.EachLeaf (ToldApart tinyPayload) := by
  refine ⟨trivial, ?_, trivial⟩
  intro key value hvalue htext
  have hposted : tagText "status" "draft" ∈ invertedTexts tinyPayload :=
    (mem_invertedTexts_iff tinyPayload_distinct).2 ⟨key, value, hvalue, htext⟩
  exact absurd hposted (by decide)

end CompiledFilter

end WildAgentOs.Engine
