import WildAgentOs.Engine.TagFilter
import WildAgentOs.Memory.L0Store

/-!
# Search filters

`HybridSearchFilter` of `memory/hyperspace_store.rs`, and the engine filters it is turned into.

* `HybridSearchFilter`, `toJsonldFilters`, `Satisfies`, `accepted_iff`, `accepted_iff_satisfies_iff`.
-/

namespace WildAgentOs.Memory

open Json Engine JsonLdMetadataIndex List CompiledFilter

structure HybridSearchFilter where
  mustTags : List String
  shouldTags : List String
  mustNotTags : List String
  minImportance : Option F32
  jsonldTypes : List String
  namedGraph : Option String
  tenantId : Option String
  createdAfter : Option F64
  createdBefore : Option F64

namespace HybridSearchFilter

def isEmpty (filter : HybridSearchFilter) : Bool :=
  filter.mustTags.isEmpty && filter.shouldTags.isEmpty && filter.mustNotTags.isEmpty &&
    filter.minImportance.isNone && filter.jsonldTypes.isEmpty && filter.namedGraph.isNone &&
    filter.tenantId.isNone && filter.createdAfter.isNone && filter.createdBefore.isNone

-- `min as f64`, which is exact.
variable (widen : F32 → F64)

/-- The children of the `Must` group. -/
def mustChildren (filter : HybridSearchFilter) : List JsonLdFilter :=
  filter.mustTags.map (.tag "tags") ++ filter.jsonldTypes.map .type ++ filter.namedGraph.toList.map .namedGraph ++
    filter.minImportance.toList.map (fun min => .range "importance" (some (widen min)) none) ++
    filter.tenantId.toList.map (fun tid => .tag "tags" ("tenant:" ++ tid)) ++
    filter.createdAfter.toList.map (fun after => .range "stored_at" (some after) none) ++
    filter.createdBefore.toList.map (fun before => .range "stored_at" none (some before))

def toJsonldFilters (filter : HybridSearchFilter) : List JsonLdFilter :=
  if filter.isEmpty then []
  else
    (if (filter.mustChildren widen).isEmpty then [] else [.must (filter.mustChildren widen)]) ++
    (if filter.shouldTags.isEmpty then [] else [.should (filter.shouldTags.map (.tag "tags"))]) ++
    (if filter.mustNotTags.isEmpty then [] else [.mustNot (filter.mustNotTags.map (.tag "tags"))])

/-! ### What a filter says -/

/-- What a filter asks for, the excluded tags apart, by the tags and the bounds of a payload. -/
structure Asks (filter : HybridSearchFilter) (payload : Value) (hasTag : String → Prop)
    (atLeast atMost : String → F64 → Prop) : Prop where
  mustTags : ∀ tag ∈ filter.mustTags, hasTag tag
  tenantId : ∀ tid ∈ filter.tenantId, hasTag ("tenant:" ++ tid)
  jsonldTypes : ∀ name ∈ filter.jsonldTypes, name ∈ typeNames payload
  namedGraph : ∀ graph ∈ filter.namedGraph, graph ∈ graphNames payload
  minImportance : ∀ min ∈ filter.minImportance, atLeast "importance" (widen min)
  createdAfter : ∀ after ∈ filter.createdAfter, atLeast "stored_at" after
  createdBefore : ∀ before ∈ filter.createdBefore, atMost "stored_at" before
  shouldTags : filter.shouldTags ≠ [] → ∃ tag ∈ filter.shouldTags, hasTag tag

/-- The payload has the tag: its `tags` are the string, or an array with it. -/
def HasTag (payload : Value) (tag : String) : Prop := MapsTo payload "tags" tag

/-- The payload has the number. -/
def HasNumber (fa : FloatArith) (payload : Value) (key : String) (x : F64) : Prop :=
  ∃ n, (key, .number n) ∈ payload.asObject.getD [] ∧ fa.asF64 n = some x

variable (fa : FloatArith)

/-- The payload has what the filter asks for. -/
def Meets (filter : HybridSearchFilter) (payload : Value) : Prop :=
  filter.Asks widen payload (HasTag payload)
    (fun key bound => ∃ x, HasNumber fa payload key x ∧ F64.le bound x = true)
    (fun key bound => ∃ x, HasNumber fa payload key x ∧ F64.le x bound = true)

/-- **What the filter says of a payload.** -/
def Satisfies (filter : HybridSearchFilter) (payload : Value) : Prop :=
  filter.Meets widen fa payload ∧ ∀ tag ∈ filter.mustNotTags, ¬HasTag payload tag

/-- The payload is posted under the text of the tag. -/
def PostedTag (payload : Value) (tag : String) : Prop := tagText "tags" tag ∈ invertedTexts payload

/-- The payload is posted where the filter asks for: under the texts of the tags, and in the buckets of the
bounds or beyond. -/
def Posted (filter : HybridSearchFilter) (payload : Value) : Prop :=
  filter.Asks widen payload (PostedTag payload)
    (fun key bound => ∃ b, (key, b) ∈ buckets fa payload ∧ fa.milli bound ≤ b)
    (fun key bound => ∃ b, (key, b) ∈ buckets fa payload ∧ b ≤ fa.milli bound)

/-- The compiled filters let the id pass. -/
def Accepted (m : JsonLdMetadataIndex) (id : UInt32) (filter : HybridSearchFilter) : Prop :=
  ∃ found, evaluateFilters fa m (filter.toJsonldFilters widen) = .ok found ∧ ∀ ids ∈ found, id ∈ ids

variable {widen fa} {filter : HybridSearchFilter} {payload : Value}

/-! ### The compiled filters -/

variable {conds : List CompiledFilter}

theorem acceptsAll_iff : acceptsAll fa payload conds ↔ ∀ cond ∈ conds, cond.accepts fa payload := by
  induction conds with
  | nil => simp [acceptsAll]
  | cons cond conds ih => simp [acceptsAll, ih]

theorem acceptsAny_iff : acceptsAny fa payload conds ↔ ∃ cond ∈ conds, cond.accepts fa payload := by
  induction conds with
  | nil => simp [acceptsAny]
  | cons cond conds ih => simp [acceptsAny, ih]

theorem allRangesOrdered_iff : CompiledFilter.AllRangesOrdered fa conds ↔ ∀ cond ∈ conds, cond.RangesOrdered fa := by
  induction conds with
  | nil => simp [CompiledFilter.AllRangesOrdered]
  | cons cond conds ih => simp [CompiledFilter.AllRangesOrdered, ih]

variable {children : List JsonLdFilter}

theorem accepts_must : (compileFilter (.must children)).accepts fa payload ↔
      ∀ child ∈ children, (compileFilter child).accepts fa payload := by
  rw [compileFilter, accepts, acceptsAll_iff, forall_mem_map]

theorem accepts_should : (compileFilter (.should children)).accepts fa payload ↔
      ∃ child ∈ children, (compileFilter child).accepts fa payload := by
  rw [compileFilter, accepts, acceptsAny_iff]
  simp

/-- **The excluded group lets everything pass that one child does not accept.** -/
theorem accepts_mustNot : (compileFilter (.mustNot children)).accepts fa payload ↔
      ∃ child ∈ children, ¬(compileFilter child).accepts fa payload := by
  rw [compileFilter]
  split
  next inner hone =>
    obtain ⟨child, rfl, rfl⟩ := map_eq_singleton_iff.1 hone
    simp [accepts]
  next =>
    rw [accepts, accepts, acceptsAll_iff, forall_mem_map]
    push Not
    rfl

variable {tag : String}

theorem accepts_tag : (compileFilter (.tag "tags" tag)).accepts fa payload ↔ PostedTag payload tag := by
  rw [compileFilter, accepts]
  rfl

variable {key : String} {bound : F64}

theorem accepts_atLeast : (compileFilter (.range key (some bound) none)).accepts fa payload ↔
      ∃ b, (key, b) ∈ buckets fa payload ∧ fa.milli bound ≤ b := by
  rw [compileFilter, accepts]
  refine exists_congr fun b => and_congr_right fun _ => ?_
  exact and_iff_left (Int64.le_maxValue b)

theorem accepts_atMost : (compileFilter (.range key none (some bound))).accepts fa payload ↔
      ∃ b, (key, b) ∈ buckets fa payload ∧ b ≤ fa.milli bound := by
  rw [compileFilter, accepts]
  refine exists_congr fun b => and_congr_right fun _ => ?_
  exact and_iff_right (Int64.minValue_le b)

theorem accepts_type {name : String} : (compileFilter (.type name)).accepts fa payload ↔ name ∈ typeNames payload := by
  rw [compileFilter, accepts]

theorem accepts_namedGraph {graph : String} :
    (compileFilter (.namedGraph graph)).accepts fa payload ↔ graph ∈ graphNames payload := by
  rw [compileFilter, accepts]

/-- What the groups ask for. -/
theorem posted_iff : filter.Posted widen fa payload ↔
    (∀ child ∈ filter.mustChildren widen, (compileFilter child).accepts fa payload) ∧
      (filter.shouldTags ≠ [] → ∃ tag ∈ filter.shouldTags, PostedTag payload tag) := by
  unfold mustChildren
  simp only [forall_mem_append, forall_mem_map, Option.mem_toList, accepts_tag, accepts_type,
    accepts_namedGraph, accepts_atLeast, accepts_atMost]
  constructor
  · intro h
    exact ⟨⟨⟨⟨⟨⟨⟨h.mustTags, h.jsonldTypes⟩, h.namedGraph⟩, h.minImportance⟩, h.tenantId⟩,
      h.createdAfter⟩, h.createdBefore⟩, h.shouldTags⟩
  · rintro ⟨⟨⟨⟨⟨⟨⟨hmust, htypes⟩, hgraph⟩, himportance⟩, htenant⟩, hafter⟩, hbefore⟩, hshould⟩
    exact ⟨hmust, htenant, htypes, hgraph, himportance, hafter, hbefore, hshould⟩

/-- An empty filter has no groups, and asks for nothing. -/
theorem isEmpty_iff (widen : F32 → F64) : filter.isEmpty = true ↔
    (filter.mustChildren widen).isEmpty = true ∧ filter.shouldTags = [] ∧ filter.mustNotTags = [] := by
  unfold isEmpty mustChildren
  simp only [Bool.and_eq_true, List.isEmpty_iff, Option.isNone_iff_eq_none, append_eq_nil_iff,
    map_eq_nil_iff, Option.toList_eq_nil_iff]
  tauto

/-- **What the compiled groups accept.** -/
theorem accepts_groups : (∀ group ∈ filter.toJsonldFilters widen, (compileFilter group).accepts fa payload) ↔
      filter.Posted widen fa payload ∧
        (filter.mustNotTags ≠ [] → ∃ tag ∈ filter.mustNotTags, ¬PostedTag payload tag) := by
  have hgroups : filter.toJsonldFilters widen =
      (if (filter.mustChildren widen).isEmpty then [] else [.must (filter.mustChildren widen)]) ++
      (if filter.shouldTags.isEmpty then [] else [.should (filter.shouldTags.map (.tag "tags"))]) ++
      (if filter.mustNotTags.isEmpty then []
        else [.mustNot (filter.mustNotTags.map (.tag "tags"))]) := by
    unfold toJsonldFilters
    by_cases hempty : filter.isEmpty = true
    · obtain ⟨hmust, hshould, hexcluded⟩ := (isEmpty_iff widen).1 hempty
      rw [if_pos hempty, hmust, hshould, hexcluded]
      rfl
    · rw [if_neg hempty]
  have hmust : (∀ group ∈ (if (filter.mustChildren widen).isEmpty then []
        else [JsonLdFilter.must (filter.mustChildren widen)]), (compileFilter group).accepts fa payload) ↔
      ∀ child ∈ filter.mustChildren widen, (compileFilter child).accepts fa payload := by
    split_ifs with hempty
    · simp [List.isEmpty_iff.1 hempty]
    · rw [forall_mem_singleton, accepts_must]
  have hshould : (∀ group ∈ (if filter.shouldTags.isEmpty then []
        else [JsonLdFilter.should (filter.shouldTags.map (.tag "tags"))]), (compileFilter group).accepts fa payload) ↔
      (filter.shouldTags ≠ [] → ∃ tag ∈ filter.shouldTags, PostedTag payload tag) := by
    split_ifs with hempty
    · simp [List.isEmpty_iff.1 hempty]
    · rw [forall_mem_singleton, accepts_should]
      simp [accepts_tag, List.isEmpty_iff.not.1 hempty]
  have hexcluded : (∀ group ∈ (if filter.mustNotTags.isEmpty then []
        else [JsonLdFilter.mustNot (filter.mustNotTags.map (.tag "tags"))]), (compileFilter group).accepts fa payload) ↔
      (filter.mustNotTags ≠ [] → ∃ tag ∈ filter.mustNotTags, ¬PostedTag payload tag) := by
    split_ifs with hempty
    · simp [List.isEmpty_iff.1 hempty]
    · rw [forall_mem_singleton, accepts_mustNot]
      simp [accepts_tag, List.isEmpty_iff.not.1 hempty]
  rw [hgroups, forall_mem_append, forall_mem_append, hmust, hshould, hexcluded, posted_iff]

/-- Each range has one bound. -/
theorem rangesOrdered_groups : ∀ group ∈ filter.toJsonldFilters widen, (compileFilter group).RangesOrdered fa := by
  have htag : ∀ tag, (compileFilter (.tag "tags" tag)).RangesOrdered fa := by
    intro tag
    rw [compileFilter]
    trivial
  have hmust : ∀ child ∈ filter.mustChildren widen, (compileFilter child).RangesOrdered fa := by
    unfold mustChildren
    simp only [forall_mem_append, forall_mem_map]
    refine ⟨⟨⟨⟨⟨⟨fun tag _ => htag tag, ?_⟩, ?_⟩, ?_⟩, fun tid _ => htag _⟩, ?_⟩, ?_⟩
    · intro name _
      rw [compileFilter]
      trivial
    · intro graph _
      rw [compileFilter]
      trivial
    · intro min _
      rw [compileFilter, CompiledFilter.RangesOrdered]
      exact Int64.le_maxValue _
    · intro after _
      rw [compileFilter, CompiledFilter.RangesOrdered]
      exact Int64.le_maxValue _
    · intro before _
      rw [compileFilter, CompiledFilter.RangesOrdered]
      exact Int64.minValue_le _
  have htags : ∀ tags : List String, ∀ cond ∈ (tags.map (JsonLdFilter.tag "tags")).map compileFilter,
      cond.RangesOrdered fa := by
    intro tags cond hcond
    obtain ⟨child, hchild, rfl⟩ := mem_map.1 hcond
    obtain ⟨tag, -, rfl⟩ := mem_map.1 hchild
    exact htag tag
  have hgroup : ∀ {c : Prop} [Decidable c] {group : JsonLdFilter},
      (compileFilter group).RangesOrdered fa → ∀ other ∈ (if c then [] else [group]),
        (compileFilter other).RangesOrdered fa := by
    intro c _ group hordered other hother
    split_ifs at hother
    · cases hother
    · exact mem_singleton.1 hother ▸ hordered
  unfold toJsonldFilters
  by_cases hempty : filter.isEmpty = true
  · rw [if_pos hempty]
    exact fun _ h => absurd h not_mem_nil
  · rw [if_neg hempty, forall_mem_append, forall_mem_append]
    refine ⟨⟨hgroup ?_, hgroup ?_⟩, hgroup ?_⟩
    · rw [compileFilter, CompiledFilter.RangesOrdered, allRangesOrdered_iff]
      simpa using hmust
    · rw [compileFilter, CompiledFilter.RangesOrdered, allRangesOrdered_iff]
      exact htags _
    · rw [compileFilter]
      split
      next inner hone => exact htags filter.mustNotTags inner (hone ▸ mem_singleton_self inner)
      next =>
        rw [CompiledFilter.RangesOrdered, CompiledFilter.RangesOrdered, allRangesOrdered_iff]
        exact htags _

variable {m : JsonLdMetadataIndex} {id : UInt32}

/-- **What the translation accepts**: the payload is posted where the filter asks for, and under the text of
not all of the excluded tags. -/
theorem accepted_iff (h : Reflects fa m id (some payload)) (hlive : id ∉ m.deleted) :
    filter.Accepted widen fa m id ↔ filter.Posted widen fa payload ∧
      (filter.mustNotTags ≠ [] → ∃ tag ∈ filter.mustNotTags, ¬PostedTag payload tag) := by
  rw [← accepts_groups]
  unfold Accepted evaluateFilters
  by_cases hempty : (filter.toJsonldFilters widen).isEmpty = true
  · rw [if_pos hempty, List.isEmpty_iff.1 hempty]
    simp
  · rw [if_neg hempty]
    have hordered : (and ((filter.toJsonldFilters widen).map compileFilter)).RangesOrdered
        fa := by
      rw [CompiledFilter.RangesOrdered, allRangesOrdered_iff]
      simpa using rangesOrdered_groups
    obtain ⟨found, hfound⟩ := evaluate_ok m hordered
    obtain ⟨ids, rfl, hids⟩ := mem_evaluate h hlive _ hfound
    rw [accepts, acceptsAll_iff, forall_mem_map] at hids
    rw [← hids, hfound]
    simp

/-! ### When it means the same -/

/-- A number that is no less than another lies in its bucket or in a higher one. -/
def MilliMonotone (fa : FloatArith) : Prop := ∀ x y, F64.le x y = true → fa.milli x ≤ fa.milli y

theorem mem_buckets (hkey : IsProperty key) {b : Int64} :
    (key, b) ∈ buckets fa payload ↔ ∃ x, HasNumber fa payload key x ∧ fa.milli x = b := by
  have hvalue : ∀ v, (propertyBucket fa v).map (Prod.mk key) = some (key, b) ↔
      ∃ n x, v = .number n ∧ fa.asF64 n = some x ∧ fa.milli x = b := by
    intro v
    cases v with
    | number n => simp [propertyBucket]
    | _ => simp [propertyBucket]
  unfold buckets properties HasNumber
  simp only [mem_filterMap, mem_filter, Prod.exists]
  constructor
  · rintro ⟨other, v, ⟨hmem, -⟩, hv⟩
    obtain ⟨bucket, -, hpair⟩ := Option.map_eq_some_iff.1 hv
    obtain rfl := (Prod.mk.inj hpair).1
    obtain ⟨n, x, rfl, hx, rfl⟩ := (hvalue v).1 hv
    exact ⟨x, ⟨n, hmem, hx⟩, rfl⟩
  · rintro ⟨x, ⟨n, hmem, hx⟩, hb⟩
    exact ⟨key, .number n, ⟨hmem, bne_iff_ne.2 hkey⟩, (hvalue _).2 ⟨n, x, rfl, hx, hb⟩⟩

theorem HasTag.posted (h : HasTag payload tag) : PostedTag payload tag := by
  have hkey : IsProperty "tags" := by
    unfold IsProperty
    decide
  exact (mem_invertedTexts hkey).2 (mem_tagTexts.2 ⟨"tags", tag, hkey, h, rfl⟩)

theorem Meets.posted (hmono : MilliMonotone fa) (h : filter.Meets widen fa payload) :
    filter.Posted widen fa payload := by
  have himportance : IsProperty "importance" := by
    unfold IsProperty
    decide
  have hstored : IsProperty "stored_at" := by
    unfold IsProperty
    decide
  constructor
  · exact fun tag htag => (h.mustTags tag htag).posted
  · exact fun tid htid => (h.tenantId tid htid).posted
  · exact h.jsonldTypes
  · exact h.namedGraph
  · intro min hmin
    obtain ⟨x, hx, hle⟩ := h.minImportance min hmin
    exact ⟨fa.milli x, (mem_buckets himportance).2 ⟨x, hx, rfl⟩, hmono _ _ hle⟩
  · intro after hafter
    obtain ⟨x, hx, hle⟩ := h.createdAfter after hafter
    exact ⟨fa.milli x, (mem_buckets hstored).2 ⟨x, hx, rfl⟩, hmono _ _ hle⟩
  · intro before hbefore
    obtain ⟨x, hx, hle⟩ := h.createdBefore before hbefore
    exact ⟨fa.milli x, (mem_buckets hstored).2 ⟨x, hx, rfl⟩, hmono _ _ hle⟩
  · intro hne
    obtain ⟨tag, htag, hhas⟩ := h.shouldTags hne
    exact ⟨tag, htag, hhas.posted⟩

/-- When the translation does what the filter says: a payload that is only posted where the filter asks for
is posted under all of the excluded tags, and there are some; and a payload that has what the filter asks
for has one of the excluded tags exactly if it is posted under all of them, and there are some. -/
structure Faithful (widen : F32 → F64) (fa : FloatArith) (filter : HybridSearchFilter) (payload : Value) : Prop where
  coarse : filter.Posted widen fa payload → ¬filter.Meets widen fa payload →
    filter.mustNotTags ≠ [] ∧ ∀ tag ∈ filter.mustNotTags, PostedTag payload tag
  excluded : filter.Meets widen fa payload → ((∃ tag ∈ filter.mustNotTags, HasTag payload tag) ↔
    filter.mustNotTags ≠ [] ∧ ∀ tag ∈ filter.mustNotTags, PostedTag payload tag)

/-- **When the translation accepts what the filter says.** -/
theorem accepted_iff_satisfies_iff (hmono : MilliMonotone fa) (h : Reflects fa m id (some payload))
    (hlive : id ∉ m.deleted) :
    (filter.Accepted widen fa m id ↔ filter.Satisfies widen fa payload) ↔ filter.Faithful widen fa payload := by
  rw [accepted_iff h hlive]
  -- The excluded tags do not let the payload pass: there are some, and it is posted under all of them.
  have hall : (filter.mustNotTags ≠ [] → ∃ tag ∈ filter.mustNotTags, ¬PostedTag payload tag) ↔
      ¬(filter.mustNotTags ≠ [] ∧ ∀ tag ∈ filter.mustNotTags, PostedTag payload tag) := by
    push Not
    rfl
  have hnone : (∀ tag ∈ filter.mustNotTags, ¬HasTag payload tag) ↔ ¬∃ tag ∈ filter.mustNotTags, HasTag payload tag := by
    push Not
    rfl
  unfold Satisfies
  rw [hall, hnone]
  constructor
  · intro hsame
    refine ⟨fun hposted hmeets => ?_, fun hmeets => ?_⟩
    · by_contra hpass
      exact hmeets (hsame.1 ⟨hposted, hpass⟩).1
    · have hposted := hmeets.posted hmono
      rw [and_iff_right hposted, and_iff_right hmeets] at hsame
      exact (not_iff_not.1 hsame).symm
  · intro hfaithful
    by_cases hmeets : filter.Meets widen fa payload
    · rw [and_iff_right (hmeets.posted hmono), and_iff_right hmeets]
      exact not_congr (hfaithful.excluded hmeets).symm
    · refine iff_of_false (fun haccepted => ?_) fun hsatisfies => hmeets hsatisfies.1
      exact haccepted.2 (hfaithful.coarse haccepted.1 hmeets)

/-! ### Two excluded tags -/

/-- No payload below has a number. -/
def sampleArith : FloatArith := ⟨fun _ => none, fun _ => 0⟩

def sampleWiden (_ : F32) : F64 := ⟨0⟩

def samplePayload : Value :=
  .object [("iri", .string "doc:1"), ("tags", .array [.string "draft"]), ("text", .string "a draft")]

def sampleIndex : JsonLdMetadataIndex := JsonLdMetadataIndex.new.index sampleArith 1 samplePayload

def twoExcluded : HybridSearchFilter where
  mustTags := []
  shouldTags := []
  mustNotTags := ["draft", "archived"]
  minImportance := none
  jsonldTypes := []
  namedGraph := none
  tenantId := none
  createdAfter := none
  createdBefore := none

theorem reflects_sampleIndex : Reflects sampleArith sampleIndex 1 (some samplePayload) := reflects_index _ _ _

theorem live_sampleIndex : 1 ∉ sampleIndex.deleted := by
  unfold sampleIndex
  rw [deleted_index]
  exact Finset.notMem_empty 1

theorem milliMonotone_sampleArith : MilliMonotone sampleArith := fun _ _ _ => Int64.le_refl 0

/-- A draft passes a filter that excludes drafts and archived entries. -/
theorem not_accepted_iff_satisfies_twoExcluded :
    ∃ (widen : F32 → F64) (fa : FloatArith) (m : JsonLdMetadataIndex) (id : UInt32) (payload : Value)
      (filter : HybridSearchFilter), MilliMonotone fa ∧ Reflects fa m id (some payload) ∧
        id ∉ m.deleted ∧ ¬(filter.Accepted widen fa m id ↔ filter.Satisfies widen fa payload) := by
  refine ⟨sampleWiden, sampleArith, sampleIndex, 1, samplePayload, twoExcluded,
    milliMonotone_sampleArith, reflects_sampleIndex, live_sampleIndex, fun hsame => ?_⟩
  have hdraft : HasTag samplePayload "draft" := ⟨_, mem_cons_of_mem _ mem_cons_self, .inr ⟨_, rfl, mem_cons_self⟩⟩
  have hposted : twoExcluded.Posted sampleWiden sampleArith samplePayload :=
    ⟨fun _ h => (nomatch h), fun _ h => (nomatch h), fun _ h => (nomatch h), fun _ h => (nomatch h),
      fun _ h => (nomatch h), fun _ h => (nomatch h), fun _ h => (nomatch h), fun h => absurd rfl h⟩
  have harchived : ¬PostedTag samplePayload "archived" := by
    unfold PostedTag
    decide +kernel
  have haccepted := (accepted_iff reflects_sampleIndex live_sampleIndex).2
    ⟨hposted, fun _ => ⟨"archived", by decide, harchived⟩⟩
  exact (hsame.1 haccepted).2 "draft" (by decide) hdraft

theorem accepted_iff_satisfies_iff_twoExcluded : (twoExcluded.Accepted sampleWiden sampleArith sampleIndex 1 ↔
      twoExcluded.Satisfies sampleWiden sampleArith samplePayload) ↔
        twoExcluded.Faithful sampleWiden sampleArith samplePayload :=
  accepted_iff_satisfies_iff milliMonotone_sampleArith reflects_sampleIndex live_sampleIndex

end HybridSearchFilter

end WildAgentOs.Memory
