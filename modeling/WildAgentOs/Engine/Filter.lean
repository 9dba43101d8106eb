import WildAgentOs.Engine.JsonldMeta
import WildAgentOs.Lib.Result

/-!
# Filters

`filter.rs`: filter expressions, their compiled form, and its evaluation to a bitmap against
the metadata index.

* `CompiledFilter.evaluate`, `compileFilter`, `evaluateFilters`;
* `CompiledFilter.accepts`: what a filter says of a payload;
* `mem_evaluate`: for a live id the two agree, where evaluation does not panic;
* `evaluate_ok`: it panics only on a range whose start lies behind its end.
-/

namespace WildAgentOs.Engine

open Json JsonLdMetadataIndex

inductive JsonLdFilter
  | type (name : String)
  | namedGraph (graph : String)
  | context (ctx : String)
  | tag (key value : String)
  | range (key : String) (gte lte : Option F64)
  | must (children : List JsonLdFilter)
  | should (children : List JsonLdFilter)
  | mustNot (children : List JsonLdFilter)

inductive CompiledFilter
  | matchTag (key val : String)
  | matchType (typ : String)
  | matchGraph (graph : String)
  | matchContext (ctx : String)
  | range (key : String) (gte lte : Option F64)
  | and (conds : List CompiledFilter)
  | or (conds : List CompiledFilter)
  | not (cond : CompiledFilter)

namespace CompiledFilter

section
variable (fa : FloatArith) (m : JsonLdMetadataIndex)

mutual

def evaluate : CompiledFilter → Except Panic (Option Bitmap)
  | matchTag key val => .ok (some ((m.idsForTag key val).getD ∅))
  | matchType typ => .ok (some ((m.idsForType typ).getD ∅))
  | matchGraph graph => .ok (some ((m.idsForGraph graph).getD ∅))
  | matchContext ctx => .ok (some ((m.idsForContext ctx).getD ∅))
  | range key gte lte => do
    let ids ← m.idsForNumericRange fa key gte lte
    return some (ids.getD ∅)
  | and conds => evaluateAnd m.allIds.toFinset conds
  | or conds => evaluateOr ∅ conds
  | not cond => do
    match ← evaluate cond with
    | some matching => return some (m.allIds.toFinset \ matching)
    | none => return some ∅

/-- The loop of a conjunction, which stops at an empty result. -/
def evaluateAnd (result : Bitmap) : List CompiledFilter → Except Panic (Option Bitmap)
  | [] => .ok (some result)
  | cond :: conds => do
    match ← evaluate cond with
    | none => return some ∅
    | some found =>
      if result ∩ found = ∅ then return some ∅ else evaluateAnd (result ∩ found) conds

/-- The loop of a disjunction. -/
def evaluateOr (result : Bitmap) : List CompiledFilter → Except Panic (Option Bitmap)
  | [] => .ok (some result)
  | cond :: conds => do
    match ← evaluate cond with
    | none => evaluateOr result conds
    | some found => evaluateOr (result ∪ found) conds

end

end

/-! ### What a filter says of a payload -/

section
variable (fa : FloatArith) (payload : Value)

mutual

/-- The payload satisfies the filter. -/
def accepts : CompiledFilter → Prop
  | matchTag key val => tagText key val ∈ invertedTexts payload
  | matchType typ => typ ∈ typeNames payload
  | matchGraph graph => graph ∈ graphNames payload
  | matchContext ctx => ctx ∈ contextNames payload
  | range key gte lte => ∃ b, (key, b) ∈ buckets fa payload ∧ lower fa gte ≤ b ∧ b ≤ upper fa lte
  | and conds => acceptsAll conds
  | or conds => acceptsAny conds
  | not cond => ¬ accepts cond

def acceptsAll : List CompiledFilter → Prop
  | [] => True
  | cond :: conds => accepts cond ∧ acceptsAll conds

def acceptsAny : List CompiledFilter → Prop
  | [] => False
  | cond :: conds => accepts cond ∨ acceptsAny conds

end

end

section
variable (fa : FloatArith)

mutual

/-- No range of the filter has its start behind its end. -/
def RangesOrdered : CompiledFilter → Prop
  | range _ gte lte => lower fa gte ≤ upper fa lte
  | and conds => AllRangesOrdered conds
  | or conds => AllRangesOrdered conds
  | not cond => RangesOrdered cond
  | _ => True

def AllRangesOrdered : List CompiledFilter → Prop
  | [] => True
  | cond :: conds => RangesOrdered cond ∧ AllRangesOrdered conds

end

end

end CompiledFilter

/-! ### Evaluation against a live id -/

namespace CompiledFilter

variable {fa : FloatArith} {m : JsonLdMetadataIndex} {id : UInt32} {payload : Value}

mutual

/-- **For an id whose postings reflect its payload and which is not deleted, the bitmap a filter
evaluates to holds the id exactly if the filter accepts the payload.** -/
theorem mem_evaluate (h : Reflects fa m id (some payload)) (hlive : id ∉ m.deleted) :
    ∀ (f : CompiledFilter) {r : Option Bitmap}, f.evaluate fa m = .ok r →
      ∃ found, r = some found ∧ (id ∈ found ↔ f.accepts fa payload)
  | matchTag key val, _, hr => by
    cases hr
    exact ⟨_, rfl, (h.inverted (tagText key val)).trans (by simp [accepts])⟩
  | matchType typ, _, hr => by
    cases hr
    exact ⟨_, rfl, (h.typeIndex typ).trans (by simp [accepts])⟩
  | matchGraph graph, _, hr => by
    cases hr
    exact ⟨_, rfl, (h.graphIndex graph).trans (by simp [accepts])⟩
  | matchContext ctx, _, hr => by
    cases hr
    exact ⟨_, rfl, (h.contextIndex ctx).trans (by simp [accepts])⟩
  | range key gte lte, _, hr => by
    obtain ⟨ids, hids, hr⟩ := Except.bind_eq_ok_iff.1 hr
    cases hr
    refine ⟨_, rfl, ?_⟩
    simp [mem_idsForNumericRange hids, h.numeric, accepts]
  | and conds, _, hr => by
    obtain ⟨found, rfl, hmem⟩ := mem_evaluateAnd h hlive conds hr
    exact ⟨found, rfl, by simp only [hmem, h.mem_allIds hlive, true_and, accepts]⟩
  | or conds, _, hr => by
    obtain ⟨found, rfl, hmem⟩ := mem_evaluateOr h hlive conds hr
    exact ⟨found, rfl, by simp [hmem, accepts]⟩
  | not cond, _, hr => by
    obtain ⟨_, hcond, hr⟩ := Except.bind_eq_ok_iff.1 hr
    obtain ⟨found, rfl, hmem⟩ := mem_evaluate h hlive cond hcond
    cases hr
    exact ⟨_, rfl, by
      simp only [Finset.mem_sdiff, hmem, h.mem_allIds hlive, true_and, accepts]⟩

theorem mem_evaluateAnd (h : Reflects fa m id (some payload)) (hlive : id ∉ m.deleted) :
    ∀ (conds : List CompiledFilter) {result : Bitmap} {r : Option Bitmap},
      evaluateAnd fa m result conds = .ok r →
        ∃ found, r = some found ∧ (id ∈ found ↔ id ∈ result ∧ acceptsAll fa payload conds)
  | [], _, _, hr => by
    cases hr
    exact ⟨_, rfl, by simp [acceptsAll]⟩
  | cond :: conds, result, _, hr => by
    obtain ⟨_, hcond, hr⟩ := Except.bind_eq_ok_iff.1 hr
    obtain ⟨found, rfl, hmem⟩ := mem_evaluate h hlive cond hcond
    simp only at hr
    split_ifs at hr with hempty
    · cases hr
      have hnot : ¬ (id ∈ result ∧ id ∈ found) := by
        rw [← Finset.mem_inter, hempty]
        exact Finset.notMem_empty id
      refine ⟨_, rfl, ?_⟩
      simp only [Finset.notMem_empty, acceptsAll, false_iff]
      exact fun hall => hnot ⟨hall.1, hmem.2 hall.2.1⟩
    · obtain ⟨found', rfl, hmem'⟩ := mem_evaluateAnd h hlive conds hr
      exact ⟨found', rfl, by simp [hmem', hmem, acceptsAll, and_assoc]⟩

theorem mem_evaluateOr (h : Reflects fa m id (some payload)) (hlive : id ∉ m.deleted) :
    ∀ (conds : List CompiledFilter) {result : Bitmap} {r : Option Bitmap},
      evaluateOr fa m result conds = .ok r →
        ∃ found, r = some found ∧ (id ∈ found ↔ id ∈ result ∨ acceptsAny fa payload conds)
  | [], _, _, hr => by
    cases hr
    exact ⟨_, rfl, by simp [acceptsAny]⟩
  | cond :: conds, result, _, hr => by
    obtain ⟨_, hcond, hr⟩ := Except.bind_eq_ok_iff.1 hr
    obtain ⟨found, rfl, hmem⟩ := mem_evaluate h hlive cond hcond
    obtain ⟨found', rfl, hmem'⟩ := mem_evaluateOr h hlive conds hr
    exact ⟨found', rfl, by simp [hmem', hmem, acceptsAny, or_assoc]⟩

end

end CompiledFilter

/-! ### Evaluation without a panic -/

namespace CompiledFilter

variable {fa : FloatArith}

mutual

theorem evaluate_ok (m : JsonLdMetadataIndex) :
    ∀ {f : CompiledFilter}, f.RangesOrdered fa → ∃ r, f.evaluate fa m = .ok r
  | matchTag _ _, _ => ⟨_, rfl⟩
  | matchType _, _ => ⟨_, rfl⟩
  | matchGraph _, _ => ⟨_, rfl⟩
  | matchContext _, _ => ⟨_, rfl⟩
  | range key gte lte, hf => by
    obtain ⟨ids, hids⟩ := idsForNumericRange_ok hf m key
    exact ⟨_, by rw [evaluate, hids]; rfl⟩
  | and _, hf => evaluateAnd_ok m hf
  | or _, hf => evaluateOr_ok m hf
  | not cond, hf => by
    obtain ⟨r, hr⟩ : ∃ r, cond.evaluate fa m = .ok r := evaluate_ok m hf
    cases r <;> exact ⟨_, by rw [evaluate, hr]; rfl⟩

theorem evaluateAnd_ok (m : JsonLdMetadataIndex) :
    ∀ {conds : List CompiledFilter} {result : Bitmap}, AllRangesOrdered fa conds →
      ∃ r, evaluateAnd fa m result conds = .ok r
  | [], _, _ => ⟨_, rfl⟩
  | cond :: conds, result, hf => by
    obtain ⟨r, hr⟩ := evaluate_ok m hf.1
    rw [evaluateAnd, hr]
    cases r with
    | none => exact ⟨_, rfl⟩
    | some found =>
      by_cases hempty : result ∩ found = ∅
      · exact ⟨_, if_pos hempty⟩
      · obtain ⟨r, hr⟩ : ∃ r, evaluateAnd fa m (result ∩ found) conds = .ok r :=
          evaluateAnd_ok m hf.2
        exact ⟨r, (if_neg hempty).trans hr⟩

theorem evaluateOr_ok (m : JsonLdMetadataIndex) :
    ∀ {conds : List CompiledFilter} {result : Bitmap}, AllRangesOrdered fa conds →
      ∃ r, evaluateOr fa m result conds = .ok r
  | [], _, _ => ⟨_, rfl⟩
  | cond :: conds, result, hf => by
    obtain ⟨r, hr⟩ := evaluate_ok m hf.1
    rw [evaluateOr, hr]
    cases r with
    | none => exact evaluateOr_ok m hf.2
    | some found => exact evaluateOr_ok m hf.2

end

/-- The filter evaluates to a bitmap with the id in it. -/
def Finds (fa : FloatArith) (m : JsonLdMetadataIndex) (f : CompiledFilter) (id : UInt32) : Prop :=
  ∃ found, f.evaluate fa m = .ok (some found) ∧ id ∈ found

/-- A live id is found by exactly the filters that accept its payload. -/
theorem finds_iff {m : JsonLdMetadataIndex} {id : UInt32} {payload : Value} {f : CompiledFilter}
    (h : Reflects fa m id (some payload)) (hlive : id ∉ m.deleted) (hf : f.RangesOrdered fa) :
    f.Finds fa m id ↔ f.accepts fa payload := by
  obtain ⟨r, hr⟩ := evaluate_ok m hf
  obtain ⟨found, rfl, hmem⟩ := mem_evaluate h hlive f hr
  rw [← hmem]
  constructor
  · rintro ⟨found', hr', hid⟩
    cases hr.symm.trans hr'
    exact hid
  · exact fun hid => ⟨found, hr, hid⟩

end CompiledFilter

/-! ### Compilation -/

def compileFilter : JsonLdFilter → CompiledFilter
  | .tag key value => .matchTag key value
  | .type name => .matchType name
  | .namedGraph graph => .matchGraph graph
  | .context ctx => .matchContext ctx
  | .range key gte lte => .range key gte lte
  | .must children => .and (children.map compileFilter)
  | .should children => .or (children.map compileFilter)
  | .mustNot children =>
    match children.map compileFilter with
    | [inner] => .not inner
    | inner => .not (.and inner)

/-- `evaluate_filters`: no filter is no restriction. -/
def evaluateFilters (fa : FloatArith) (m : JsonLdMetadataIndex) (filters : List JsonLdFilter) :
    Except Panic (Option Bitmap) :=
  if filters.isEmpty then .ok none
  else (CompiledFilter.and (filters.map compileFilter)).evaluate fa m

end WildAgentOs.Engine
