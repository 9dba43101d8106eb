import WildAgentOs.Invocations.Types

/-!
# Usage and budgets

`validate_usage`, `require_complete_usage_for_succeeded` and `budget_is_exceeded`, with what they
say about a usage: `IsComplete`, `WithinBudget`.
-/

namespace WildAgentOs.Invocations

open Text Option

def TOOL_CALL_TRANSPORTS : List String := ["mcp", "http", "a2a", "local", "unknown"]

def isValidToolTransport (transport : String) : Bool := TOOL_CALL_TRANSPORTS.contains transport

/-- A text of white space alone. -/
def isBlank (s : String) : Bool := trim s.toList = []

/-- `deserialize_tool_transport`: a stored transport outside the closed set reads as unknown. -/
def deserializeToolTransport (transport : Option String) : Option String :=
  transport.map fun t => if isValidToolTransport t then t else "unknown"

def validateUsage (usage : InvocationUsage) : Except String Unit :=
  if usage.toolCalls.any fun calls => calls.any fun call => isBlank call.name then
    .error "tool_calls[].name must not be empty"
  else if usage.toolCalls.any fun calls => calls.any fun call =>
      call.transport.any fun t => !isValidToolTransport t then
    .error "tool_calls[].transport must be mcp, http, a2a, local, or unknown"
  else .ok ()

/-- Reading a usage back from the file. -/
def InvocationUsage.readBack (usage : InvocationUsage) : InvocationUsage :=
  { usage with
    toolCalls := usage.toolCalls.map fun calls =>
      calls.map fun call => { call with transport := deserializeToolTransport call.transport } }

variable {usage : InvocationUsage}

/-- A valid usage is read back as it was written. -/
theorem readBack_of_valid (h : validateUsage usage = .ok ()) : usage.readBack = usage := by
  unfold validateUsage at h
  split_ifs at h with hname htransport
  obtain ⟨provider, model, inputTokens, outputTokens, cost, costSource, toolCalls⟩ := usage
  cases toolCalls with
  | none => rfl
  | some calls =>
    have hsame : ∀ call ∈ calls, { call with transport := deserializeToolTransport call.transport } = call := by
      rintro ⟨name, transport⟩ hcall
      cases transport with
      | none => rfl
      | some t =>
        have hvalid : isValidToolTransport t = true := by
          by_contra hbad
          refine htransport (List.any_eq_true.2 ⟨_, hcall, ?_⟩)
          simpa using hbad
        simp [deserializeToolTransport, hvalid]
    unfold InvocationUsage.readBack
    rw [map_some, List.map_congr_left hsame, List.map_id']

/-! ### What `succeeded` requires -/

def missingUsageFields (usage : InvocationUsage) : List String :=
  (if usage.model.all isBlank then ["model"] else []) ++ (if usage.inputTokens.isNone then ["input_tokens"] else []) ++
    (if usage.outputTokens.isNone then ["output_tokens"] else []) ++
    (if usage.cost.isNone then ["cost"] else []) ++
    (if usage.costSource.isNone then ["cost_source"] else [])

inductive IncompleteUsage
  | missing
  | incompleteFields
  | noCostSource
  | costWithoutSource
  deriving DecidableEq

def INCOMPLETE_USAGE_ERROR_CODE : String := "incomplete_usage"
def INVALID_USAGE_ERROR_CODE : String := "invalid_usage"
def BUDGET_EXCEEDED_ERROR_CODE : String := "budget_exceeded"

def IncompleteUsage.asMessage : IncompleteUsage → String
  | missing => "succeeded requires result.usage"
  | incompleteFields =>
    "succeeded requires result.usage.model, input_tokens, output_tokens, cost and cost_source"
  | noCostSource => "no cost source configured: the gateway reported no cost and no operator " ++
    "price table entry covers the model(s) used"
  | costWithoutSource => "result.usage.cost requires cost_source"

def requireCompleteUsageForSucceeded (result : InvocationResult) : Except IncompleteUsage Unit :=
  match result.usage with
  | none => .error .missing
  | some usage =>
    let missing := missingUsageFields usage
    if missing = [] then .ok ()
    else
      let onlyCost := missing.all fun f => f = "cost" || f = "cost_source"
      if onlyCost && usage.cost.isNone then .error .noCostSource
      else if onlyCost then .error .costWithoutSource
      else .error .incompleteFields

def succeededPatchOrReject (result : InvocationResult) : Except IncompleteUsage InvocationResult :=
  match requireCompleteUsageForSucceeded result with
  | .error e => .error e
  | .ok () => .ok result

def statusIsSuccess (status : String) : Bool := status = "completed" || status = "success" || status = "succeeded"

/-- A model that is not blank, both token counts, and a cost with its source. -/
structure IsComplete (usage : InvocationUsage) : Prop where
  model : ∃ model, usage.model = some model ∧ isBlank model = false
  inputTokens : ∃ n, usage.inputTokens = some n
  outputTokens : ∃ n, usage.outputTokens = some n
  cost : ∃ n, usage.cost = some n
  costSource : ∃ source, usage.costSource = some source

theorem missingUsageFields_eq_nil_iff : missingUsageFields usage = [] ↔ IsComplete usage := by
  have hif : ∀ (b : Bool) (s : String), (if b then [s] else []) = [] ↔ b = false := by
    intro b s
    cases b <;> simp
  unfold missingUsageFields
  simp only [List.append_eq_nil_iff, hif, isNone_eq_false_iff, isSome_iff_exists]
  constructor
  · rintro ⟨⟨⟨⟨hmodel, hinput⟩, houtput⟩, hcost⟩, hsource⟩
    refine ⟨?_, hinput, houtput, hcost, hsource⟩
    cases hm : usage.model with
    | none => simp [hm] at hmodel
    | some model => exact ⟨model, rfl, by simpa [hm] using hmodel⟩
  · rintro ⟨⟨model, hm, hblank⟩, hinput, houtput, hcost, hsource⟩
    exact ⟨⟨⟨⟨by simp [hm, hblank], hinput⟩, houtput⟩, hcost⟩, hsource⟩

/-- **What is accepted as a success is complete**, and is not changed. -/
theorem succeededPatchOrReject_eq_ok_iff {result result' : InvocationResult} :
    succeededPatchOrReject result = .ok result' ↔
      result' = result ∧ ∃ usage, result.usage = some usage ∧ IsComplete usage := by
  unfold succeededPatchOrReject requireCompleteUsageForSucceeded
  cases husage : result.usage with
  | none =>
    simp only
    constructor
    · intro h
      cases h
    · rintro ⟨-, usage, h, -⟩
      cases h
  | some usage =>
    simp only
    by_cases hmissing : missingUsageFields usage = []
    · rw [if_pos hmissing]
      simp only [Except.ok.injEq, some.injEq, exists_eq_left', missingUsageFields_eq_nil_iff.1 hmissing, and_true]
      exact eq_comm
    · rw [if_neg hmissing]
      constructor
      · intro h
        split_ifs at h
      · rintro ⟨-, usage', h, hcomplete⟩
        rw [some.inj h] at hmissing
        exact absurd (missingUsageFields_eq_nil_iff.2 hcomplete) hmissing

/-! ### Budgets -/

def saturatingAdd (a b : UInt64) : UInt64 := if a.toNat + b.toNat < UInt64.size then a + b else 0xFFFFFFFFFFFFFFFF

def budgetIsExceeded (budget : InvocationBudget) (usage : InvocationUsage) : Bool :=
  (budget.maxTokens.any fun maxTokens =>
    (usage.inputTokens.isSome || usage.outputTokens.isSome) &&
      decide (maxTokens < saturatingAdd (usage.inputTokens.getD 0) (usage.outputTokens.getD 0))) ||
  (budget.maxToolCalls.any fun maxToolCalls =>
    usage.toolCalls.any fun calls => decide (maxToolCalls.toNat < calls.length)) ||
  (budget.maxCost.any fun maxCost => usage.cost.any fun cost => decide (maxCost < cost))

/-- No present member of the budget is exceeded; token counts are added with saturation. -/
structure WithinBudget (budget : InvocationBudget) (usage : InvocationUsage) : Prop where
  tokens : ∀ maxTokens, budget.maxTokens = some maxTokens →
    ∀ input output, usage.inputTokens = some input → usage.outputTokens = some output →
      min (input.toNat + output.toNat) (2 ^ 64 - 1) ≤ maxTokens.toNat
  toolCalls : ∀ maxToolCalls, budget.maxToolCalls = some maxToolCalls →
    ∀ calls, usage.toolCalls = some calls → calls.length ≤ maxToolCalls.toNat
  cost : ∀ maxCost, budget.maxCost = some maxCost → ∀ cost, usage.cost = some cost → cost.toNat ≤ maxCost.toNat

theorem toNat_saturatingAdd (a b : UInt64) : (saturatingAdd a b).toNat = min (a.toNat + b.toNat) (2 ^ 64 - 1) := by
  unfold saturatingAdd
  split_ifs with h
  · rw [UInt64.toNat_add, Nat.mod_eq_of_lt (by simpa [UInt64.size] using h)]
    have : a.toNat + b.toNat < 2 ^ 64 := by simpa [UInt64.size] using h
    omega
  · have : 2 ^ 64 ≤ a.toNat + b.toNat := by simpa [UInt64.size] using h
    have hmax : (0xFFFFFFFFFFFFFFFF : UInt64).toNat = 2 ^ 64 - 1 := rfl
    omega

/-- A usage that is not found over the budget is within it. -/
theorem withinBudget_of_not_exceeded {budget : InvocationBudget}
    (h : budgetIsExceeded budget usage = false) : WithinBudget budget usage := by
  unfold budgetIsExceeded at h
  simp only [Bool.or_eq_false_iff] at h
  obtain ⟨⟨htokens, hcalls⟩, hcost⟩ := h
  refine ⟨?_, ?_, ?_⟩
  · intro maxTokens hmax input output hinput houtput
    simp only [hmax, hinput, houtput, any_some, isSome_some, Bool.or_self,
      Bool.true_and, getD_some, decide_eq_false_iff_not, UInt64.not_lt] at htokens
    rw [← toNat_saturatingAdd]
    exact UInt64.le_iff_toNat_le.1 htokens
  · intro maxToolCalls hmax calls hlist
    simpa only [hmax, hlist, any_some, decide_eq_false_iff_not, not_lt] using hcalls
  · intro maxCost hmax cost hvalue
    simp only [hmax, hvalue, any_some, decide_eq_false_iff_not, UInt64.not_lt] at hcost
    exact UInt64.le_iff_toNat_le.1 hcost

end WildAgentOs.Invocations
