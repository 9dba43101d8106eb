import WildAgentOs.Json.Value
import WildAgentOs.Lib.Text

/-!
# The permission policy

`tools/builtin/permissions.rs`: a call is measured against the rules that deny, ask and allow, the decision of a hook,
and the mode that the tool requires.  `Prompt` stands above the modes that a tool can require, so a comparison of
modes is always in its favour.

* `PermissionRule.parse`, `PermissionRule.applies`;
* `PermissionPolicy.authorizeWithContext`: the outcome, and the requests that were put to the prompter;
* `HasAuthority`, `Justified`, `NothingWithoutAuthority`, `nothingWithoutAuthority_iff`.
-/

namespace WildAgentOs.Tools

open Json Text List

/-- The order is that of the declaration. -/
inductive PermissionMode
  | readOnly
  | workspaceWrite
  | dangerFullAccess
  | prompt
  | allow
  deriving DecidableEq

variable {mode : PermissionMode}

namespace PermissionMode

def asStr : PermissionMode → String
  | readOnly => "read-only"
  | workspaceWrite => "workspace-write"
  | dangerFullAccess => "danger-full-access"
  | prompt => "prompt"
  | allow => "allow"

def rank : PermissionMode → ℕ
  | readOnly => 0
  | workspaceWrite => 1
  | dangerFullAccess => 2
  | prompt => 3
  | allow => 4

instance : LE PermissionMode := ⟨fun a b => a.rank ≤ b.rank⟩

instance (a b : PermissionMode) : Decidable (a ≤ b) := inferInstanceAs (Decidable (a.rank ≤ b.rank))

/-- The modes that a tool can require. -/
def IsLevel (mode : PermissionMode) : Prop := mode ∈ [readOnly, workspaceWrite, dangerFullAccess]

theorem IsLevel.le_prompt (h : mode.IsLevel) : mode ≤ prompt := by
  simp only [IsLevel, mem_cons, not_mem_nil, or_false] at h
  rcases h with rfl | rfl | rfl <;> decide

end PermissionMode

inductive PermissionOverride
  | allow
  | deny
  | ask
  deriving DecidableEq

structure PermissionContext where
  overrideDecision : Option PermissionOverride
  overrideReason : Option String
  deriving DecidableEq

structure PermissionRequest where
  toolName : String
  input : String
  currentMode : PermissionMode
  requiredMode : PermissionMode
  reason : Option String
  deriving DecidableEq

inductive PermissionPromptDecision
  | allow
  | deny (reason : String)
  deriving DecidableEq

inductive PermissionOutcome
  | allow
  | deny (reason : String)
  deriving DecidableEq

/-- A prompter, in the state that it has at the call. -/
def PermissionPrompter := PermissionRequest → PermissionPromptDecision

/-! ### Rules -/

inductive PermissionRuleMatcher
  | any
  | exact (expected : String)
  | startsWith (start : String)
  deriving DecidableEq

structure PermissionRule where
  raw : String
  toolName : String
  matcher : PermissionRuleMatcher
  deriving DecidableEq

def unescapeRuleContent (content : List Char) : List Char :=
  replace ['\\', '\\'] ['\\'] (replace ['\\', ')'] [')'] (replace ['\\', '('] ['('] content))

def parseRuleMatcher (content : List Char) : PermissionRuleMatcher :=
  let unescaped := unescapeRuleContent (trim content)
  if unescaped = [] ∨ unescaped = ['*'] then .any
  else if [':', '*'] <:+ unescaped then .startsWith (String.ofList (unescaped.take (unescaped.length - 2)))
  else .exact (String.ofList unescaped)

/-- `find_first_unescaped`, from a position. -/
def findFirstUnescaped (needle : Char) (escaped : Bool) (i : ℕ) : List Char → Option ℕ
  | [] => none
  | c :: value =>
    if c = '\\' then findFirstUnescaped needle (!escaped) (i + 1) value
    else if c = needle ∧ escaped = false then some i
    else findFirstUnescaped needle false (i + 1) value

/-- `find_last_unescaped`: the last needle after an even number of backslashes. -/
def findLastUnescaped (value : List Char) (needle : Char) : Option ℕ :=
  (List.range value.length).reverse.find? fun i =>
    decide (value[i]? = some needle ∧ ((value.take i).reverse.takeWhile (· = '\\')).length % 2 = 0)

namespace PermissionRule

def parse (raw : String) : PermissionRule :=
  let trimmed := trim raw.toList
  let whole : PermissionRule := ⟨String.ofList trimmed, String.ofList trimmed, .any⟩
  match findFirstUnescaped '(' false 0 trimmed, findLastUnescaped trimmed ')' with
  | some first, some last =>
    if last = trimmed.length - 1 ∧ first < last then
      let toolName := trim (trimmed.take first)
      if toolName = [] then whole
      else ⟨String.ofList trimmed, String.ofList toolName, parseRuleMatcher ((trimmed.take last).drop (first + 1))⟩
    else whole
  | _, _ => whole

end PermissionRule

/-- The members that `extract_permission_subject` looks for. -/
def subjectKeys : List String :=
  ["command", "path", "file_path", "filePath", "notebook_path", "notebookPath", "url", "pattern", "code", "message"]

section

variable (fromStr : String → Except String Value)

def extractPermissionSubject (input : String) : Option String :=
  let found := match fromStr input with
    | .ok (.object members) => subjectKeys.findSome? fun key => ((Value.object members).get key).bind Value.asStr
    | _ => none
  match found with
  | some value => some value
  | none => if trim input.toList = [] then none else some input

/-- `matches`. -/
def PermissionRule.applies (rule : PermissionRule) (toolName input : String) : Bool :=
  decide (rule.toolName = toolName) &&
    match rule.matcher with
    | .any => true
    | .exact expected => (extractPermissionSubject fromStr input).any (· = expected)
    | .startsWith start => (extractPermissionSubject fromStr input).any fun s => decide (start.toList <+: s.toList)

def findMatchingRule (rules : List PermissionRule) (toolName input : String) : Option PermissionRule :=
  rules.find? fun rule => rule.applies fromStr toolName input

end

/-! ### The policy -/

structure PermissionPolicy where
  activeMode : PermissionMode
  toolRequirements : List (String × PermissionMode)
  allowRules : List PermissionRule
  denyRules : List PermissionRule
  askRules : List PermissionRule
  deriving DecidableEq

namespace PermissionPolicy

def new (activeMode : PermissionMode) : PermissionPolicy := ⟨activeMode, [], [], [], []⟩

def withToolRequirement (policy : PermissionPolicy) (toolName : String) (requiredMode : PermissionMode) :
    PermissionPolicy :=
  { policy with toolRequirements := (toolName, requiredMode) :: policy.toolRequirements }

def withPermissionRules (policy : PermissionPolicy) (allow deny ask : List String) : PermissionPolicy :=
  { policy with
    allowRules := allow.map PermissionRule.parse
    denyRules := deny.map PermissionRule.parse
    askRules := ask.map PermissionRule.parse }

def requiredModeFor (policy : PermissionPolicy) (toolName : String) : PermissionMode :=
  (policy.toolRequirements.lookup toolName).getD .dangerFullAccess

/-- `prompt_or_deny`, with the requests that are put to the prompter. -/
def promptOrDeny (toolName input : String) (currentMode requiredMode : PermissionMode) (reason : Option String)
    (prompter : Option PermissionPrompter) : PermissionOutcome × List PermissionRequest :=
  let request : PermissionRequest := ⟨toolName, input, currentMode, requiredMode, reason⟩
  match prompter with
  | some decide =>
    match decide request with
    | .allow => (.allow, [request])
    | .deny reason => (.deny reason, [request])
  | none => (.deny (reason.getD
      ("tool '" ++ toolName ++ "' requires approval to run while mode is " ++ currentMode.asStr)), [])

variable (fromStr : String → Except String Value)

/-- The prompt for an ask rule. -/
def promptForRule (policy : PermissionPolicy) (toolName input : String) (rule : PermissionRule)
    (prompter : Option PermissionPrompter) : PermissionOutcome × List PermissionRequest :=
  promptOrDeny toolName input policy.activeMode (policy.requiredModeFor toolName)
    (some ("tool '" ++ toolName ++ "' requires approval due to ask rule '" ++ rule.raw ++ "'")) prompter

/-- The test for an answer without a prompt. -/
def isCovered (policy : PermissionPolicy) (toolName input : String) : Bool :=
  (findMatchingRule fromStr policy.allowRules toolName input).isSome || decide (policy.activeMode = .allow) ||
    decide (policy.requiredModeFor toolName ≤ policy.activeMode)

/-- `authorize_with_context`, after the match on the decision of the hook. -/
def authorizeStandard (policy : PermissionPolicy) (toolName input : String) (prompter : Option PermissionPrompter) :
    PermissionOutcome × List PermissionRequest :=
  let currentMode := policy.activeMode
  let requiredMode := policy.requiredModeFor toolName
  match findMatchingRule fromStr policy.askRules toolName input with
  | some rule => policy.promptForRule toolName input rule prompter
  | none =>
    if policy.isCovered fromStr toolName input then (.allow, [])
    else if currentMode = .prompt ∨ currentMode = .workspaceWrite ∧ requiredMode = .dangerFullAccess then
      promptOrDeny toolName input currentMode requiredMode (some ("tool '" ++ toolName ++
        "' requires approval to escalate from " ++ currentMode.asStr ++ " to " ++ requiredMode.asStr)) prompter
    else (.deny ("tool '" ++ toolName ++ "' requires " ++ requiredMode.asStr ++
      " permission; current mode is " ++ currentMode.asStr), [])

def authorizeWithContext (policy : PermissionPolicy) (toolName input : String) (context : PermissionContext)
    (prompter : Option PermissionPrompter) : PermissionOutcome × List PermissionRequest :=
  match findMatchingRule fromStr policy.denyRules toolName input with
  | some rule => (.deny ("Permission to use " ++ toolName ++ " has been denied by rule '" ++ rule.raw ++ "'"), [])
  | none =>
    match context.overrideDecision with
    | some .deny => (.deny (context.overrideReason.getD ("tool '" ++ toolName ++ "' denied by hook")), [])
    | some .ask =>
      promptOrDeny toolName input policy.activeMode (policy.requiredModeFor toolName) (some
        (context.overrideReason.getD ("tool '" ++ toolName ++ "' requires approval due to hook guidance"))) prompter
    | some .allow =>
      match findMatchingRule fromStr policy.askRules toolName input with
      | some rule => policy.promptForRule toolName input rule prompter
      | none =>
        if policy.isCovered fromStr toolName input then (.allow, [])
        else policy.authorizeStandard fromStr toolName input prompter
    | none => policy.authorizeStandard fromStr toolName input prompter

def authorize (policy : PermissionPolicy) (toolName input : String) (prompter : Option PermissionPrompter) :
    PermissionOutcome × List PermissionRequest :=
  policy.authorizeWithContext fromStr toolName input ⟨none, none⟩ prompter

/-! ### Authority -/

variable {fromStr}

/-- The hook and the rules leave the decision to the mode, which is `Prompt`. -/
def Unasked (fromStr : String → Except String Value) (policy : PermissionPolicy) (toolName input : String)
    (context : PermissionContext) : Prop :=
  policy.activeMode = .prompt ∧ findMatchingRule fromStr policy.denyRules toolName input = none ∧
    findMatchingRule fromStr policy.askRules toolName input = none ∧
    findMatchingRule fromStr policy.allowRules toolName input = none ∧
    context.overrideDecision ≠ some .deny ∧ context.overrideDecision ≠ some .ask

/-- What gives a call its authority without a prompt. -/
def HasAuthority (fromStr : String → Except String Value) (policy : PermissionPolicy) (toolName input : String) :
    Prop :=
  findMatchingRule fromStr policy.allowRules toolName input ≠ none ∨ policy.activeMode = .allow ∨
    policy.activeMode.IsLevel ∧ policy.requiredModeFor toolName ≤ policy.activeMode

/-- **An allowed call is justified**: nothing denies it, and the prompter was asked and approved, or nothing asks for
a prompt and the call has authority. -/
structure Justified (fromStr : String → Except String Value) (policy : PermissionPolicy) (toolName input : String)
    (context : PermissionContext) (prompter : Option PermissionPrompter) (asked : List PermissionRequest) : Prop where
  not_denied : findMatchingRule fromStr policy.denyRules toolName input = none
  override_ne_deny : context.overrideDecision ≠ some .deny
  approved_or : (∃ decide, prompter = some decide ∧ ∃ request ∈ asked, decide request = .allow) ∨
    findMatchingRule fromStr policy.askRules toolName input = none ∧ context.overrideDecision ≠ some .ask ∧
      HasAuthority fromStr policy toolName input

/-- **Nothing runs without authority**: an allowed call is justified, and in the mode `Prompt` a call that no rule
allows and nothing denies is put to the prompter, and is denied if there is none. -/
structure NothingWithoutAuthority (fromStr : String → Except String Value) (policy : PermissionPolicy)
    (toolName input : String) (context : PermissionContext) (prompter : Option PermissionPrompter) : Prop where
  justified : (policy.authorizeWithContext fromStr toolName input context prompter).1 = .allow →
    Justified fromStr policy toolName input context prompter
      (policy.authorizeWithContext fromStr toolName input context prompter).2
  prompted : policy.activeMode = .prompt → findMatchingRule fromStr policy.allowRules toolName input = none →
    findMatchingRule fromStr policy.denyRules toolName input = none → context.overrideDecision ≠ some .deny →
      if prompter.isSome then (policy.authorizeWithContext fromStr toolName input context prompter).2 ≠ []
      else (policy.authorizeWithContext fromStr toolName input context prompter).1 ≠ .allow

variable {policy : PermissionPolicy} {toolName input : String} {context : PermissionContext}
  {prompter : Option PermissionPrompter}

/-- What a prompt can end in. -/
inductive Prompts (prompter : Option PermissionPrompter) : PermissionOutcome × List PermissionRequest → Prop
  | approved (decide : PermissionPrompter) (request : PermissionRequest) (hsome : prompter = some decide)
      (h : decide request = .allow) : Prompts prompter (.allow, [request])
  | refused (request : PermissionRequest) (reason : String) (hsome : prompter ≠ none) :
      Prompts prompter (.deny reason, [request])
  | unanswered (reason : String) (hnone : prompter = none) : Prompts prompter (.deny reason, [])

theorem prompts_promptOrDeny (currentMode requiredMode : PermissionMode) (reason : Option String) :
    Prompts prompter (promptOrDeny toolName input currentMode requiredMode reason prompter) := by
  unfold promptOrDeny
  cases prompter with
  | none => exact .unanswered _ rfl
  | some decide =>
    simp only
    cases hdecision : decide ⟨toolName, input, currentMode, requiredMode, reason⟩ with
    | allow => exact .approved decide _ rfl hdecision
    | deny reason => exact .refused _ reason (Option.some_ne_none decide)

theorem isCovered_iff : policy.isCovered fromStr toolName input = true ↔
    findMatchingRule fromStr policy.allowRules toolName input ≠ none ∨ policy.activeMode = .allow ∨
      policy.requiredModeFor toolName ≤ policy.activeMode := by
  unfold isCovered
  simp only [Bool.or_eq_true, decide_eq_true_eq, or_assoc, Option.isSome_iff_ne_none]

/-- **What a call can end in**: a denial by a rule or by the hook, a prompt, an answer without one, or a denial for
want of authority. -/
inductive Authorizes (fromStr : String → Except String Value) (policy : PermissionPolicy) (toolName input : String)
    (context : PermissionContext) (prompter : Option PermissionPrompter) :
    PermissionOutcome × List PermissionRequest → Prop
  | denied (reason : String) (h : findMatchingRule fromStr policy.denyRules toolName input ≠ none ∨
      context.overrideDecision = some .deny) : Authorizes fromStr policy toolName input context prompter (.deny reason, [])
  | prompts {result : PermissionOutcome × List PermissionRequest}
      (hrule : findMatchingRule fromStr policy.denyRules toolName input = none)
      (hhook : context.overrideDecision ≠ some .deny) (hprompts : Prompts prompter result)
      (h : context.overrideDecision = some .ask ∨ findMatchingRule fromStr policy.askRules toolName input ≠ none ∨
        policy.isCovered fromStr toolName input = false) :
      Authorizes fromStr policy toolName input context prompter result
  | covered (hrule : findMatchingRule fromStr policy.denyRules toolName input = none)
      (hhook : context.overrideDecision ≠ some .deny) (hask : context.overrideDecision ≠ some .ask)
      (hnone : findMatchingRule fromStr policy.askRules toolName input = none)
      (h : policy.isCovered fromStr toolName input = true) :
      Authorizes fromStr policy toolName input context prompter (.allow, [])
  | lacking (reason : String) (h : policy.isCovered fromStr toolName input = false) :
      Authorizes fromStr policy toolName input context prompter (.deny reason, [])

theorem authorizes_authorizeStandard (hdeny : findMatchingRule fromStr policy.denyRules toolName input = none)
    (hhook : context.overrideDecision ≠ some .deny) (hask : context.overrideDecision ≠ some .ask) :
    Authorizes fromStr policy toolName input context prompter
      (policy.authorizeStandard fromStr toolName input prompter) := by
  unfold authorizeStandard
  cases hrule : findMatchingRule fromStr policy.askRules toolName input with
  | some rule =>
    exact .prompts hdeny hhook (prompts_promptOrDeny _ _ _) (.inr (.inl (hrule ▸ Option.some_ne_none rule)))
  | none =>
    simp only
    split_ifs with hcovered hescalates
    · exact .covered hdeny hhook hask hrule hcovered
    · exact .prompts hdeny hhook (prompts_promptOrDeny _ _ _) (.inr (.inr (Bool.not_eq_true _ ▸ hcovered)))
    · exact .lacking _ (Bool.not_eq_true _ ▸ hcovered)

theorem authorizes_authorizeWithContext : Authorizes fromStr policy toolName input context prompter
    (policy.authorizeWithContext fromStr toolName input context prompter) := by
  unfold authorizeWithContext
  cases hdeny : findMatchingRule fromStr policy.denyRules toolName input with
  | some rule => exact .denied _ (.inl (hdeny ▸ Option.some_ne_none rule))
  | none =>
    simp only
    cases hoverride : context.overrideDecision with
    | none => exact authorizes_authorizeStandard hdeny (by simp [hoverride]) (by simp [hoverride])
    | some decision =>
      cases decision with
      | deny => exact .denied _ (.inr hoverride)
      | ask => exact .prompts hdeny (by simp [hoverride]) (prompts_promptOrDeny _ _ _) (.inl hoverride)
      | allow =>
        simp only
        have hhook : context.overrideDecision ≠ some .deny := by simp [hoverride]
        have hask : context.overrideDecision ≠ some .ask := by simp [hoverride]
        cases hrule : findMatchingRule fromStr policy.askRules toolName input with
        | some rule =>
          exact .prompts hdeny hhook (prompts_promptOrDeny _ _ _) (.inr (.inl (hrule ▸ Option.some_ne_none rule)))
        | none =>
          simp only
          split_ifs with hcovered
          · exact .covered hdeny hhook hask hrule hcovered
          · exact authorizes_authorizeStandard hdeny hhook hask

theorem requiredModeFor_isLevel (hlevels : ∀ entry ∈ policy.toolRequirements, entry.2.IsLevel) (toolName : String) :
    (policy.requiredModeFor toolName).IsLevel := by
  unfold requiredModeFor
  cases hlookup : policy.toolRequirements.lookup toolName with
  | none => simp [PermissionMode.IsLevel]
  | some mode =>
    obtain ⟨before, after, hsplit, -⟩ := lookup_eq_some_iff.1 hlookup
    exact hlevels (toolName, mode) (hsplit ▸ mem_append_right before mem_cons_self)

/-- A mode that is no level and not `Allow` is `Prompt`. -/
theorem eq_prompt_of_not_isLevel (hlevel : ¬mode.IsLevel) (hallow : mode ≠ .allow) : mode = .prompt := by
  cases mode with
  | prompt => rfl
  | allow => exact absurd rfl hallow
  | readOnly | workspaceWrite | dangerFullAccess => exact absurd (by simp [PermissionMode.IsLevel]) hlevel

/-- **Nothing runs without authority exactly where the decision is not left to the mode `Prompt`**, for tools that
require one of the three levels. -/
theorem nothingWithoutAuthority_iff (hlevels : ∀ entry ∈ policy.toolRequirements, entry.2.IsLevel) :
    NothingWithoutAuthority fromStr policy toolName input context prompter ↔
      ¬Unasked fromStr policy toolName input context := by
  have hresult := @authorizes_authorizeWithContext fromStr policy toolName input context prompter
  constructor
  · rintro h ⟨hmode, hdeny, hask, hallow, hhook, hoverride⟩
    -- `Prompt` is above what the tool requires, so the call is allowed without a prompt.
    have hcovered : policy.isCovered fromStr toolName input = true :=
      isCovered_iff.2 (.inr (.inr (hmode ▸ (requiredModeFor_isLevel hlevels toolName).le_prompt)))
    have hallowed : policy.authorizeWithContext fromStr toolName input context prompter = (.allow, []) := by
      generalize policy.authorizeWithContext fromStr toolName input context prompter = result at hresult
      cases hresult with
      | denied reason h => exact absurd hdeny (h.resolve_right hhook)
      | prompts hrule hhook' hprompts h =>
        rcases h with h | h | h
        · exact absurd h hoverride
        · exact absurd hask h
        · cases hcovered.symm.trans h
      | covered => rfl
      | lacking reason h => cases hcovered.symm.trans h
    have hprompted := h.prompted hmode hallow hdeny hhook
    rw [hallowed] at hprompted
    split_ifs at hprompted
    · exact hprompted rfl
    · exact hprompted rfl
  · intro hasked
    generalize hauthorize : policy.authorizeWithContext fromStr toolName input context prompter = result at hresult
    refine ⟨fun hallowed => ?_, fun hmode hallow hdeny hhook => ?_⟩
    · rw [hauthorize] at hallowed ⊢
      cases hresult with
      | denied reason h => cases hallowed
      | prompts hrule hhook hprompts h =>
        refine ⟨hrule, hhook, .inl ?_⟩
        cases hprompts with
        | approved decide request hsome happroves => exact ⟨decide, hsome, request, mem_cons_self, happroves⟩
        | refused request reason hsome => cases hallowed
        | unanswered reason hnone => cases hallowed
      | covered hrule hhook hask hnone h =>
        refine ⟨hrule, hhook, .inr ⟨hnone, hask, ?_⟩⟩
        rcases isCovered_iff.1 h with hallow | hmode | hle
        · exact .inl hallow
        · exact .inr (.inl hmode)
        · by_contra hlacks
          unfold HasAuthority at hlacks
          rw [not_or, not_or, not_not, not_and'] at hlacks
          obtain ⟨hallow, hmode, hlevel⟩ := hlacks
          exact hasked ⟨eq_prompt_of_not_isLevel (hlevel hle) hmode, hrule, hnone, hallow, hhook, hask⟩
      | lacking reason h => cases hallowed
    · rw [hauthorize]
      cases hresult with
      | denied reason h => exact absurd hdeny (h.resolve_right hhook)
      | prompts hrule hhook hprompts h =>
        cases hprompts with
        | approved decide request hsome happroves => simp [hsome]
        | refused request reason hsome => simp [Option.isSome_iff_ne_none.2 hsome]
        | unanswered reason hnone => simp [hnone]
      | covered hrule hhook hask hnone h => exact absurd ⟨hmode, hrule, hnone, hallow, hhook, hask⟩ hasked
      | lacking reason h =>
        have hcovered : policy.isCovered fromStr toolName input = true :=
          isCovered_iff.2 (.inr (.inr (hmode ▸ (requiredModeFor_isLevel hlevels toolName).le_prompt)))
        cases hcovered.symm.trans h

/-- A workspace policy with a deny rule and a tool of its own: the read of a file is justified. -/
theorem nothingWithoutAuthority_workspaceWrite : NothingWithoutAuthority (fun _ => .ok (.object []))
    (((new .workspaceWrite).withToolRequirement "read_file" .readOnly).withPermissionRules [] ["bash(rm:*)"] [])
    "read_file" "\x7b\x7d" ⟨none, none⟩ none :=
  (nothingWithoutAuthority_iff fun entry hentry => by
    rw [mem_singleton.1 hentry]
    exact mem_cons_self).2 fun h => nomatch h.1

/-- In the mode `Prompt`, without rules, a shell command runs without a prompt. -/
theorem not_nothingWithoutAuthority_prompt : ¬NothingWithoutAuthority (fun _ => .ok (.object []))
    (new .prompt) "bash" "\x7b\x7d" ⟨none, none⟩ none := by
  intro h
  exact h.prompted rfl rfl rfl (fun h => nomatch h) rfl

end PermissionPolicy

end WildAgentOs.Tools
