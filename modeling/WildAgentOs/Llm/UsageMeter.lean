import WildAgentOs.Llm.Sse
import WildAgentOs.Lib.Tally
import Mathlib.Data.String.Basic

/-!
# The usage meter of a run

`RunUsageMeter`, with counters that do not overflow.  The tool calls it keeps beside the usage are left out.

* `record`, `snapshot`, `primaryModel`, `Leads`, `latestLeader`, `Accounts`, `MeterExact`;
* `meterExact_iff`: a tie is told when the last call is of one of the tied models, or by the order of the names.
-/

namespace WildAgentOs.Llm.RunUsageMeter

open List Tally

structure CallUsage where
  model : String
  inputTokens : ℕ
  outputTokens : ℕ
  reportedCostUsd : Option F64
  deriving DecidableEq

structure ModelTokens where
  inputTokens : ℕ
  outputTokens : ℕ
  deriving DecidableEq

def ModelTokens.sum (t : ModelTokens) : ℕ := t.inputTokens + t.outputTokens

/-- The arguments of `record`. -/
structure Call where
  requestedModel : String
  usage : Option CallUsage
  deriving DecidableEq

structure RunUsageSnapshot where
  calls : ℕ
  callsWithoutUsage : ℕ
  callsWithoutCost : ℕ
  inputTokens : ℕ
  outputTokens : ℕ
  reportedCostUsd : F64
  perModel : AList fun _ : String => ModelTokens
  lastModel : Option String

namespace RunUsageSnapshot

def empty : RunUsageSnapshot := ⟨0, 0, 0, 0, 0, ⟨0⟩, ∅, none⟩

def tokensComplete (s : RunUsageSnapshot) : Bool := 0 < s.calls && s.callsWithoutUsage = 0

def gatewayCostComplete (s : RunUsageSnapshot) : Bool := s.tokensComplete && s.callsWithoutCost = 0

/-- The models in the order of `per_model`. -/
def models (s : RunUsageSnapshot) : List String := s.perModel.keys.mergeSort (· ≤ ·)

def primaryModel (s : RunUsageSnapshot) : Option String :=
  let sums := s.models.map (sizeAt ModelTokens.sum s.perModel)
  match s.models.filter fun m => sums.max? = some (sizeAt ModelTokens.sum s.perModel m) with
  | [] => none
  | [first] => some first
  | first :: rest =>
    match s.lastModel with
    | some last => if last = first ∨ last ∈ rest then some last else some first
    | none => some first

end RunUsageSnapshot

/-- The model that a usage counts for. -/
def servedModel (requestedModel : String) (usage : CallUsage) : String :=
  if Text.trim usage.model.toList = [] then requestedModel else usage.model

/-- The cost that a usage adds. -/
def CallUsage.cost (usage : CallUsage) : Option F64 := usage.reportedCostUsd.filter isCost

variable (add : F64 → F64 → F64)

def record (s : RunUsageSnapshot) (call : Call) : RunUsageSnapshot :=
  let s := { s with calls := s.calls + 1 }
  match call.usage with
  | none => { s with callsWithoutUsage := s.callsWithoutUsage + 1 }
  | some usage =>
    let model := servedModel call.requestedModel usage
    let costs := match usage.cost with
      | some cost => (add s.reportedCostUsd cost, s.callsWithoutCost)
      | none => (s.reportedCostUsd, s.callsWithoutCost + 1)
    let entry := (s.perModel.lookup model).getD ⟨0, 0⟩
    { s with
      callsWithoutCost := costs.2
      inputTokens := s.inputTokens + usage.inputTokens
      outputTokens := s.outputTokens + usage.outputTokens
      reportedCostUsd := costs.1
      perModel := s.perModel.insert model
        ⟨entry.inputTokens + usage.inputTokens, entry.outputTokens + usage.outputTokens⟩
      lastModel := some model }

/-- `snapshot`, after the calls. -/
def snapshot (calls : List Call) : RunUsageSnapshot := calls.foldl (record add) .empty

/-! ### What the calls used -/

/-- The reported usages, with the models that they count for. -/
def uses (calls : List Call) : List (String × CallUsage) :=
  calls.filterMap fun call => call.usage.map fun usage => (servedModel call.requestedModel usage, usage)

def usedModels (calls : List Call) : List String := (uses calls).map (·.1)

/-- What the usages of one model sum up to. -/
def tokensOf (calls : List Call) (m : String) : ModelTokens where
  inputTokens := (((uses calls).filter (·.1 = m)).map (·.2.inputTokens)).sum
  outputTokens := (((uses calls).filter (·.1 = m)).map (·.2.outputTokens)).sum

/-- No model used more tokens. -/
def Leads (calls : List Call) (m : String) : Prop :=
  m ∈ usedModels calls ∧ ∀ m' ∈ usedModels calls, (tokensOf calls m').sum ≤ (tokensOf calls m).sum

instance (calls : List Call) (m : String) : Decidable (Leads calls m) := inferInstanceAs (Decidable (_ ∧ _))

/-- The leader that was used most recently. -/
def latestLeader (calls : List Call) : Option String := ((usedModels calls).filter (Leads calls ·)).getLast?

/-- The snapshot is what the calls used. -/
structure Accounts (calls : List Call) (s : RunUsageSnapshot) : Prop where
  count : s.calls = calls.length
  callsWithoutUsage : s.callsWithoutUsage = calls.countP (·.usage.isNone)
  callsWithoutCost : s.callsWithoutCost = (uses calls).countP (·.2.cost.isNone)
  inputTokens : s.inputTokens = ((uses calls).map (·.2.inputTokens)).sum
  outputTokens : s.outputTokens = ((uses calls).map (·.2.outputTokens)).sum
  inputPerModel : s.inputTokens = total ModelTokens.inputTokens s.perModel
  outputPerModel : s.outputTokens = total ModelTokens.outputTokens s.perModel
  reportedCostUsd : s.reportedCostUsd = ((uses calls).filterMap (·.2.cost)).foldl add ⟨0⟩
  perModel : ∀ m, s.perModel.lookup m = if m ∈ usedModels calls then some (tokensOf calls m) else none
  lastModel : s.lastModel = (usedModels calls).getLast?

/-- And it is complete when the calls are, and its primary model is the latest leader. -/
structure MeterExact (calls : List Call) (s : RunUsageSnapshot) : Prop extends Accounts add calls s where
  tokensComplete : s.tokensComplete = true ↔ calls ≠ [] ∧ ∀ call ∈ calls, call.usage ≠ none
  gatewayCostComplete : s.gatewayCostComplete = true ↔
    (calls ≠ [] ∧ ∀ call ∈ calls, call.usage ≠ none) ∧ ∀ use ∈ uses calls, use.2.cost ≠ none
  primaryModel : s.primaryModel = latestLeader calls

/-- The last call is of a leader, or no leader's name is before that of the latest one. -/
def TieIsTold (calls : List Call) : Prop :=
  (∀ last ∈ (usedModels calls).getLast?, Leads calls last) ∨
    ∀ m ∈ latestLeader calls, ∀ m', Leads calls m' → m ≤ m'

/-! ### The accounts of a run -/

variable {add} {calls : List Call} {s : RunUsageSnapshot} {call : Call} {usage : CallUsage}

theorem uses_concat_none (h : call.usage = none) : uses (calls ++ [call]) = uses calls := by simp [uses, h]

theorem uses_concat_some (h : call.usage = some usage) :
    uses (calls ++ [call]) = uses calls ++ [(servedModel call.requestedModel usage, usage)] := by simp [uses, h]

theorem tokensOf_concat_none (h : call.usage = none) : tokensOf (calls ++ [call]) = tokensOf calls := by
  funext m
  unfold tokensOf
  rw [uses_concat_none h]

theorem tokensOf_concat_some (h : call.usage = some usage) (m : String) : tokensOf (calls ++ [call]) m =
      if servedModel call.requestedModel usage = m then
        ⟨(tokensOf calls m).inputTokens + usage.inputTokens, (tokensOf calls m).outputTokens + usage.outputTokens⟩
      else tokensOf calls m := by
  unfold tokensOf
  rw [uses_concat_some h]
  by_cases hm : servedModel call.requestedModel usage = m <;> simp [filter_append, hm]

variable {m : String}

theorem tokensOf_eq_zero (h : m ∉ usedModels calls) : tokensOf calls m = ⟨0, 0⟩ := by
  have hnone : (uses calls).filter (·.1 = m) = [] :=
    filter_eq_nil_iff.2 fun use huse hm => h (mem_map.2 ⟨use, huse, of_decide_eq_true hm⟩)
  unfold tokensOf
  rw [hnone]
  rfl

theorem Accounts.lookup_getD (h : Accounts add calls s) (m : String) :
    (s.perModel.lookup m).getD ⟨0, 0⟩ = tokensOf calls m := by
  rw [h.perModel m]
  split_ifs with hm
  · rfl
  · exact (tokensOf_eq_zero hm).symm

variable {size : ModelTokens → ℕ}

theorem Accounts.sizeAt (h : Accounts add calls s) (hsize : size ⟨0, 0⟩ = 0) (m : String) :
    Tally.sizeAt size s.perModel m = size (tokensOf calls m) := by
  rw [← h.lookup_getD m]
  unfold Tally.sizeAt
  cases s.perModel.lookup m with
  | none => exact hsize.symm
  | some t => rfl

/-- The sums over the models grow with the entry that is written. -/
theorem total_insert_entry (hsize : size ⟨0, 0⟩ = 0) {perModel : AList fun _ : String => ModelTokens}
    {t t' : ModelTokens} {n k : ℕ} (ht : (perModel.lookup m).getD ⟨0, 0⟩ = t) (htotal : n = total size perModel)
    (ht' : size t' = size t + k) : n + k = total size (perModel.insert m t') := by
  have hinsert := total_insert_add size perModel m t'
  have hat : sizeAt size perModel m = size t := by
    rw [← ht]
    unfold sizeAt
    cases perModel.lookup m with
    | none => exact hsize.symm
    | some t => rfl
  omega

/-- **A call keeps the accounts.** -/
theorem Accounts.record (h : Accounts add calls s) (call : Call) :
    Accounts add (calls ++ [call]) (record add s call) := by
  cases husage : call.usage with
  | none =>
    have huses : uses (calls ++ [call]) = uses calls := uses_concat_none husage
    simp only [RunUsageMeter.record, husage]
    constructor <;> simp only [usedModels, huses, tokensOf_concat_none husage]
    · simp [h.count]
    · simp [h.callsWithoutUsage, husage]
    · exact h.callsWithoutCost
    · exact h.inputTokens
    · exact h.outputTokens
    · exact h.inputPerModel
    · exact h.outputPerModel
    · exact h.reportedCostUsd
    · exact h.perModel
    · exact h.lastModel
  | some usage =>
    have huses : uses (calls ++ [call]) = uses calls ++ [(servedModel call.requestedModel usage, usage)] :=
      uses_concat_some husage
    have hmodels : usedModels (calls ++ [call]) = usedModels calls ++ [servedModel call.requestedModel usage] := by
      simp [usedModels, huses]
    simp only [RunUsageMeter.record, husage, h.lookup_getD]
    constructor <;> simp only [huses, hmodels]
    · simp [h.count]
    · simp [h.callsWithoutUsage, husage]
    · cases hcost : usage.cost <;> simp [h.callsWithoutCost, hcost]
    · simp [h.inputTokens]
    · simp [h.outputTokens]
    · exact total_insert_entry rfl (h.lookup_getD _) h.inputPerModel rfl
    · exact total_insert_entry rfl (h.lookup_getD _) h.outputPerModel rfl
    · cases hcost : usage.cost <;> simp [h.reportedCostUsd, hcost]
    · intro m
      rw [tokensOf_concat_some husage]
      by_cases hm : servedModel call.requestedModel usage = m
      · subst hm
        simp
      · rw [AList.lookup_insert_ne (Ne.symm hm), h.perModel m, if_neg hm]
        simp [Ne.symm hm]
    · simp

theorem accounts (calls : List Call) : Accounts add calls (snapshot add calls) := by
  induction calls using reverseRecOn with
  | nil => exact ⟨rfl, rfl, rfl, rfl, rfl, rfl, rfl, rfl, fun _ => rfl, rfl⟩
  | append_singleton calls call ih =>
    unfold snapshot
    rw [foldl_append]
    exact ih.record call

/-! ### The primary model -/

theorem Accounts.mem_models (h : Accounts add calls s) : m ∈ s.models ↔ m ∈ usedModels calls := by
  unfold RunUsageSnapshot.models
  rw [mem_mergeSort, AList.mem_keys.symm, ← AList.lookup_isSome, h.perModel m]
  split_ifs with hm <;> simp [hm]

theorem Accounts.mem_leaders (h : Accounts add calls s) : m ∈ s.models.filter (Leads calls ·) ↔ Leads calls m := by
  rw [mem_filter, h.mem_models, decide_eq_true_iff]
  exact and_iff_right_of_imp And.left

/-- The leaders that the snapshot finds, in the order of their names. -/
theorem Accounts.leaders (h : Accounts add calls s) :
    (s.models.filter fun m => (s.models.map (Tally.sizeAt ModelTokens.sum s.perModel)).max? =
      some (Tally.sizeAt ModelTokens.sum s.perModel m)) = s.models.filter (Leads calls ·) := by
  refine filter_congr fun m hm => decide_eq_decide.2 ?_
  rw [max?_eq_some_iff]
  have hsize : ∀ m, Tally.sizeAt ModelTokens.sum s.perModel m = ModelTokens.sum (tokensOf calls m) := h.sizeAt rfl
  simp only [forall_mem_map, hsize, h.mem_models, Leads]
  exact and_congr_left' (iff_of_true (mem_map.2 ⟨m, hm, hsize m⟩) (h.mem_models.1 hm))

theorem latestLeader_of_leads {last : String} (h : last ∈ (usedModels calls).getLast?) (hleads : Leads calls last) :
    latestLeader calls = some last := by
  obtain ⟨before, hbefore⟩ := getLast?_eq_some_iff.1 h
  have hfilter : (usedModels calls).filter (Leads calls ·) = before.filter (Leads calls ·) ++ [last] := by
    rw [hbefore, filter_append, filter_singleton, decide_eq_true hleads, cond_true]
  unfold latestLeader
  rw [hfilter, getLast?_concat]

theorem mem_latestLeader (h : m ∈ latestLeader calls) : Leads calls m :=
  of_decide_eq_true (mem_filter.1 (mem_of_getLast? h)).2

/-- **The primary model is the last one, where it leads, and the leader of the least name elsewhere.** -/
theorem Accounts.primaryModel (h : Accounts add calls s) :
    (∃ last ∈ (usedModels calls).getLast?, Leads calls last ∧ s.primaryModel = some last) ∨
      (∀ last ∈ (usedModels calls).getLast?, ¬Leads calls last) ∧
        s.primaryModel = (s.models.filter (Leads calls ·)).head? := by
  have hmem : ∀ m, m ∈ s.models.filter (Leads calls ·) ↔ Leads calls m := fun m => h.mem_leaders
  unfold RunUsageSnapshot.primaryModel
  simp only [h.leaders]
  rw [h.lastModel]
  generalize s.models.filter (Leads calls ·) = leaders at hmem
  cases hlast : (usedModels calls).getLast? with
  | none =>
    refine .inr ⟨fun m h => absurd h (Option.not_mem_none m), ?_⟩
    rcases leaders with _ | ⟨first, _ | ⟨second, rest⟩⟩ <;> rfl
  | some last =>
    by_cases hleads : Leads calls last
    · refine .inl ⟨last, rfl, hleads, ?_⟩
      have hin := (hmem last).2 hleads
      rcases leaders with _ | ⟨first, _ | ⟨second, rest⟩⟩
      · exact absurd hin not_mem_nil
      · rw [mem_singleton.1 hin]
      · exact if_pos (mem_cons.1 hin)
    · refine .inr ⟨fun _ h => by cases h; exact hleads, ?_⟩
      have hin := mt (hmem last).1 hleads
      rcases leaders with _ | ⟨first, _ | ⟨second, rest⟩⟩
      · rfl
      · rfl
      · exact if_neg (mt mem_cons.2 hin)

theorem Accounts.head_leaders (h : Accounts add calls s) :
    (s.models.filter (Leads calls ·)).head? = some m ↔ Leads calls m ∧ ∀ m', Leads calls m' → m ≤ m' := by
  have hmem : ∀ m, m ∈ s.models.filter (Leads calls ·) ↔ Leads calls m := fun m => h.mem_leaders
  have hsorted := (pairwise_mergeSort' (· ≤ ·) s.perModel.keys).filter (Leads calls ·)
  change (s.models.filter (Leads calls ·)).Pairwise _ at hsorted
  cases hleaders : s.models.filter (Leads calls ·) with
  | nil => exact iff_of_false (by simp) fun hm => absurd ((hmem m).2 hm.1) (hleaders ▸ not_mem_nil)
  | cons first rest =>
    rw [hleaders] at hmem hsorted
    have hleast : ∀ m', Leads calls m' → first ≤ m' := fun m' hm' => by
      rcases mem_cons.1 ((hmem m').2 hm') with rfl | hrest
      · exact le_rfl
      · exact (pairwise_cons.1 hsorted).1 m' hrest
    rw [head?_cons, Option.some_inj]
    constructor
    · rintro rfl
      exact ⟨(hmem first).1 mem_cons_self, hleast⟩
    · exact fun hm => le_antisymm (hleast m hm.1) (hm.2 first ((hmem first).1 mem_cons_self))

/-- **The meter is exact if the last call is of a leader or the latest leader has the least name, and only then.** -/
theorem meterExact_iff (add : F64 → F64 → F64) (calls : List Call) :
    MeterExact add calls (snapshot add calls) ↔ TieIsTold calls := by
  have h : Accounts add calls _ := accounts calls
  generalize snapshot add calls = s at h
  have hprimary : s.primaryModel = latestLeader calls ↔ TieIsTold calls := by
    obtain ⟨last, hlast, hleads, heq⟩ | ⟨hnot, heq⟩ := h.primaryModel
    · refine iff_of_true (heq.trans (latestLeader_of_leads hlast hleads).symm) (.inl fun m hm => ?_)
      cases Option.mem_unique hm hlast
      exact hleads
    · rw [heq]
      constructor
      · exact fun hsame => .inr fun m hm => (h.head_leaders.1 (hsame.trans hm)).2
      · intro htie
        cases hlatest : latestLeader calls with
        | none =>
          refine Option.eq_none_iff_forall_ne_some.2 fun m hm => ?_
          have hin := (h.head_leaders.1 hm).1
          exact absurd (decide_eq_true hin)
            (filter_eq_nil_iff.1 (getLast?_eq_none_iff.1 hlatest) m hin.1)
        | some m =>
          have hm := mem_latestLeader hlatest
          refine h.head_leaders.2 ⟨hm, ?_⟩
          rcases htie with hleads | hleast
          · have hlast := getLast?_eq_some_getLast (ne_nil_of_mem hm.1)
            exact absurd (hleads _ hlast) (hnot _ hlast)
          · exact hleast m hlatest
  have hcomplete : s.tokensComplete = true ↔ calls ≠ [] ∧ ∀ call ∈ calls, call.usage ≠ none := by
    simp [RunUsageSnapshot.tokensComplete, h.count, h.callsWithoutUsage, length_pos_iff, countP_eq_zero]
  have hcosts : s.gatewayCostComplete = true ↔
      (calls ≠ [] ∧ ∀ call ∈ calls, call.usage ≠ none) ∧ ∀ use ∈ uses calls, use.2.cost ≠ none := by
    rw [RunUsageSnapshot.gatewayCostComplete, Bool.and_eq_true, hcomplete, h.callsWithoutCost, decide_eq_true_iff,
      countP_eq_zero]
    simp
  exact ⟨fun hexact => hprimary.1 hexact.primaryModel, fun htie => ⟨h, hcomplete, hcosts, hprimary.2 htie⟩⟩

/-- Two models with a hundred tokens each, and a last call of a third one. -/
def tiedCalls : List Call :=
  [⟨"a", some ⟨"a", 100, 0, none⟩⟩, ⟨"b", some ⟨"b", 100, 0, none⟩⟩, ⟨"c", some ⟨"c", 1, 0, none⟩⟩]

theorem not_meterExact_tiedCalls : ¬∀ add calls, MeterExact add calls (snapshot add calls) := by
  intro hall
  have h : Accounts (fun x _ => x) tiedCalls _ := accounts tiedCalls
  have hlatest : latestLeader tiedCalls = some "b" := by decide
  have hexact := ((hall (fun x _ => x) tiedCalls).primaryModel).trans hlatest
  obtain ⟨last, hlast, hleads, -⟩ | ⟨-, heq⟩ := h.primaryModel
  · cases hlast
    exact absurd hleads (by decide)
  · exact absurd ((h.head_leaders.1 (heq.symm.trans hexact)).2 "a" (by decide)) (by decide)

end WildAgentOs.Llm.RunUsageMeter
