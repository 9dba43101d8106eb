import WildAgentOs.Tools.Permissions
import WildAgentOs.Tools.ToolExecutor

/-!
# The gates of a tool call

`ToolExecutor::execute_guarded` and `execute_inner`: a call passes what the model was shown, the security engine, the
policy of the run, the permission policy, the hook before the tool and the syscall gate, and then its handler runs.
The outcome names the gate that refused, beside the value, and in it.

* `GuardedExecutor.executeInner`, `GuardedExecutor.executeGuarded`: the outcome, and the handlers that ran;
* `Accepts`, `Reaches`, `Refuses`: the gates one by one;
* `Guarded`, `guarded_executeGuarded`.
-/

namespace WildAgentOs.Tools

open Json Core Memory List

/-! ### Outcomes -/

inductive PolicyGate
  | permissionPolicy
  | preToolHook
  | syscallGate
  | advertisedGate
  | securityEngine
  | rolePolicy
  deriving DecidableEq

def PolicyGate.asStr : PolicyGate → String
  | permissionPolicy => "permission_policy"
  | preToolHook => "pre_tool_hook"
  | syscallGate => "syscall_gate"
  | advertisedGate => "advertised_gate"
  | securityEngine => "security_engine"
  | rolePolicy => "role_policy"

structure ToolOutcome where
  value : Value
  policyDeniedBy : Option PolicyGate

namespace ToolOutcome

def allowed (value : Value) : ToolOutcome := ⟨value, none⟩

def denied (gate : PolicyGate) (value : Value) : ToolOutcome :=
  ⟨setMember value "denied_by" (.string gate.asStr), some gate⟩

end ToolOutcome

def stripDeniedBy : Value → Value
  | .object members => .object (members.filter fun member => decide (member.1 ≠ "denied_by"))
  | other => other

inductive ToolExecutionError
  | notFound (name : String)
  | executionFailed (name message : String)
  deriving DecidableEq

/-! ### What surrounds the tools -/

structure HookRunResult where
  denied : Bool
  failed : Bool
  cancelled : Bool
  messages : List String
  deriving DecidableEq

/-- The hooks around a tool, with what they answer at this call. -/
structure HookRunner where
  runPreToolUse : String → String → HookRunResult
  runPostToolUse : String → String → String → HookRunResult

structure SecurityContext where
  agentId : String
  agentRole : String
  taskIri : Option String
  requestedPermissions : List String
  timestamp : ℤ
  deriving DecidableEq

inductive SecurityDecision
  | allowed
  | denied (reasons : List String)
  | requiresApproval (approver reason : String)
  deriving DecidableEq

/-- The security engine, with what it answers at this call. -/
structure SecurityEngine where
  checkExecution : String → SecurityContext → Except String SecurityDecision

structure SkillRegistry where
  skillIriForToolName : String → Option String

/-- What a call takes from outside: the reader and the printer of JSON, the result readers, and the search for
tools. -/
structure GuardEnv where
  reader : ReaderEnv
  fromStr : String → Except String Value
  toString : Value → String
  searchTools : ToolExecutor → String → String → ToolPolicy → Value → Except String Value
  ontologyFeature : Bool

structure GuardedExecutor where
  exe : ToolExecutor
  permissionPolicy : Option PermissionPolicy
  hookRunner : Option HookRunner
  /-- The syscall gate is set; what it decides for a run does not depend on its own lists. -/
  syscallGate : Bool
  securityEngine : Option SecurityEngine
  sharedSkillRegistry : Option SkillRegistry

def builtinSecuritySkillIri (name : String) : Option String :=
  if name ∈ ["tool_search", "glob_search", "grep_search", "file_read", "file_list", "workspace_status", "rag_search",
    "kg_search", "kb_vector_search", "knowledge_list", "knowledge_search", "knowledge_extract_code",
    "knowledge_query", "knowledge_neighbors", "read_agent_output", "read_full_result", "get_entity_details",
    "expand_relation", "ontology_lint_turtle", "ontology_diff_turtle", "ontology_validate_turtle",
    "ontology_validate_shacl", "ontology_reason"] then some "iri://skills/file_read"
  else if name ∈ ["bash", "powershell", "file_write", "file_edit", "rag_index", "rag_chunk", "knowledge_extract",
    "knowledge_update", "knowledge_delete", "knowledge_bridge", "knowledge_import_file",
    "knowledge_import_directory", "knowledge_import_json", "ontology_register"] then some "iri://skills/file_write"
  else if name ∈ ["web_search", "web_fetch", "http_request", "knowledge_import_url"] then
    some "iri://skills/http_request"
  else if name = "llm_chat" then some "iri://skills/llm_chat"
  else none

/-- `SyscallGate::validate_tool_for_run`, which is asked without a 5W2H snapshot here. -/
def validateToolForRun (toolName agentRole agentId : String) (runPolicy : Option ToolPolicy)
    (internalMicroTool : Bool) : Except String Unit :=
  match parseAgentRole agentRole with
  | none => .error ("Internal error: Tool '" ++ toolName ++ "' denied: no trusted caller role (got '" ++ agentRole ++ "')")
  | some role =>
    match runPolicy with
    | none => .error ("Internal error: Tool '" ++ toolName ++ "' denied: no run-local tool policy for this caller")
    | some policy =>
      if policy.isExecutable role agentId toolName ||
          (internalMicroTool && policy.isInternalMicroToolExecutable role agentId toolName) then .ok ()
      else .error ("Internal error: Role '" ++ agentRole ++ "' is not allowed to use tool '" ++ toolName ++ "'")

/-- The task-local values of a call. -/
structure CallLocals where
  callerContext : Option SecurityContext
  runPolicy : Option ToolPolicy
  searchCallerRole : Option String
  microOwner : Option MicroToolOwner

/-- A handler that ran, with its input. -/
structure HandlerRun where
  name : String
  input : Value

namespace GuardedExecutor

variable (env : GuardEnv) (cfg : MicroToolConfig) (now : ℕ) (g : GuardedExecutor)

def errorValue (message : String) : Value := .object [("error", .string message)]

/-- The permission policy and the hook before the tool: an outcome that ends the call. -/
def checkPermission (name inputStr : String) : Option ToolOutcome :=
  match g.permissionPolicy with
  | none => none
  | some policy =>
    match (policy.authorize env.fromStr name inputStr none).1 with
    | .deny reason => some (.denied .permissionPolicy (errorValue ("Permission denied: " ++ reason)))
    | .allow => none

def checkPreHook (name inputStr : String) : Option ToolOutcome :=
  match g.hookRunner with
  | none => none
  | some runner =>
    let result := runner.runPreToolUse name inputStr
    if result.denied then
      some (.denied .preToolHook (errorValue ("Pre-tool hook denied: " ++ "; ".intercalate result.messages)))
    else if result.failed then
      some (.allowed (errorValue ("Pre-tool hook failed: " ++ "; ".intercalate result.messages)))
    else if result.cancelled then some (.allowed (errorValue "Pre-tool hook was cancelled"))
    else none

def checkSyscallGate (locals : CallLocals) (name : String) : Option ToolOutcome :=
  if g.syscallGate then
    match validateToolForRun name ((locals.callerContext.map (·.agentRole)).getD "")
        ((locals.callerContext.map (·.agentId)).getD "") locals.runPolicy
        (g.exe.isInternalMicroTool cfg now locals.microOwner name) with
    | .error message => some (.denied .syscallGate (errorValue ("SyscallGate rejected: " ++ message)))
    | .ok () => none
  else none

/-- The call of the handler, or the search for tools, with what ran; an early end of the call is a left. -/
def invoke (locals : CallLocals) (name : String) (input : Value) :
    (ToolExecutionError ⊕ Except ToolExecutionError Value) × List HandlerRun :=
  if name = "tool_search" then
    match locals.searchCallerRole with
    | none => (.inl (.executionFailed name "tool_search requires a verified runtime role"), [])
    | some role =>
      match env.searchTools g.exe role ((locals.callerContext.map (·.agentId)).getD "")
          (locals.runPolicy.getD (.default env.ontologyFeature)) input with
      | .ok output => (.inr (.ok output), [⟨name, input⟩])
      | .error message => (.inr (.error (.executionFailed name message)), [⟨name, input⟩])
  else
    match g.exe.tryGetHandler cfg now locals.microOwner env.reader name with
    | none => (.inl (.notFound name), [])
    | some handler =>
      match handler input with
      | .ok output => (.inr (.ok output), [⟨name, input⟩])
      | .error message => (.inr (.error (.executionFailed name message)), [⟨name, input⟩])

/-- The hook after the tool. -/
def finish (name inputStr : String) (result : Except ToolExecutionError Value) :
    Except ToolExecutionError ToolOutcome :=
  match result with
  | .error error => .error error
  | .ok output =>
    match g.hookRunner with
    | none => .ok (.allowed output)
    | some runner =>
      let result := runner.runPostToolUse name inputStr (env.toString output)
      if result.denied then
        .ok (.allowed (.object [("error", .string ("Post-tool hook denied: " ++ "; ".intercalate result.messages)),
          ("original_output", output)]))
      else .ok (.allowed output)

def executeInner (locals : CallLocals) (name : String) (input : Value) :
    Except ToolExecutionError ToolOutcome × List HandlerRun :=
  let inputStr := env.toString input
  match g.checkPermission env name inputStr with
  | some outcome => (.ok outcome, [])
  | none =>
    match g.checkPreHook name inputStr with
    | some outcome => (.ok outcome, [])
    | none =>
      match g.checkSyscallGate cfg now locals name with
      | some outcome => (.ok outcome, [])
      | none =>
        match g.invoke env cfg now locals name input with
        | (.inl error, runs) => (.error error, runs)
        -- what a tool returns never carries the name of a gate
        | (.inr result, runs) => (g.finish env name inputStr (result.map stripDeniedBy), runs)

/-- The skill of a tool. -/
def resolveSkill (owner : Option MicroToolOwner) (name : String) : Option String :=
  ((g.sharedSkillRegistry.bind fun registry => registry.skillIriForToolName name).or (builtinSecuritySkillIri name)).or
    (if g.exe.isInternalMicroTool cfg now owner name then some "iri://skills/file_read" else none)

def checkSecurity (owner : Option MicroToolOwner) (context : SecurityContext) (name : String) : Option ToolOutcome :=
  match g.securityEngine with
  | none => none
  | some engine =>
    match g.resolveSkill cfg now owner name with
    | none => some (.denied .securityEngine (.object
        [("error", .string "Security denied: tool has no registered executable skill"), ("tool", .string name)]))
    | some skillIri =>
      match engine.checkExecution skillIri context with
      | .ok .allowed => none
      | .ok (.denied reasons) => some (.denied .securityEngine (.object [("error", .string "Security denied"),
          ("tool", .string name), ("skill_iri", .string skillIri), ("reasons", .array (reasons.map .string))]))
      | .ok (.requiresApproval approver reason) => some (.denied .securityEngine (.object
          [("error", .string "Security approval required"), ("tool", .string name), ("skill_iri", .string skillIri),
            ("approver", .string approver), ("reason", .string reason)]))
      | .error error => some (.denied .securityEngine (.object [("error", .string ("Security denied: " ++ error)),
          ("tool", .string name), ("skill_iri", .string skillIri)]))

def executeGuarded (name : String) (input : Value) (context : SecurityContext) (advertisedTools : List String)
    (policy : ToolPolicy) (owner : Option MicroToolOwner) :
    Except ToolExecutionError ToolOutcome × List HandlerRun :=
  if name ∉ advertisedTools then
    (.ok (.denied .advertisedGate (.object
      [("error", .string ("Tool not advertised for this turn: " ++ name)), ("tool", .string name)])), [])
  else
    match parseAgentRole context.agentRole with
    | none => (.error (.executionFailed name "runtime security context has an unknown role"), [])
    | some role =>
      match g.checkSecurity cfg now owner context name with
      | some outcome => (.ok outcome, [])
      | none =>
        if g.exe.policyAllows cfg now owner policy role context.agentId name then
          g.executeInner env cfg now ⟨some context, some policy, some context.agentRole, owner⟩ name input
        else
          (.ok (.denied .rolePolicy (.object [("error", .string "Tool not allowed for role"), ("tool", .string name),
            ("role", .string context.agentRole)])), [])

end GuardedExecutor

/-! ### The gates one by one -/

/-- What a guarded call is made with. -/
structure GuardedCall where
  name : String
  input : Value
  context : SecurityContext
  advertisedTools : List String
  policy : ToolPolicy
  owner : Option MicroToolOwner

namespace GuardedCall

/-- `execute_guarded`, of the call. -/
def execute (env : GuardEnv) (cfg : MicroToolConfig) (now : ℕ) (g : GuardedExecutor) (call : GuardedCall) :
    Except ToolExecutionError ToolOutcome × List HandlerRun :=
  g.executeGuarded env cfg now call.name call.input call.context call.advertisedTools call.policy call.owner

variable (env : GuardEnv) (cfg : MicroToolConfig) (now : ℕ) (g : GuardedExecutor) (call : GuardedCall)

/-- A gate's own answer. -/
def Accepts : PolicyGate → Prop
  | .advertisedGate => call.name ∈ call.advertisedTools
  | .securityEngine => ∀ engine, g.securityEngine = some engine → ∃ skillIri,
      g.resolveSkill cfg now call.owner call.name = some skillIri ∧
        engine.checkExecution skillIri call.context = .ok .allowed
  | .rolePolicy => ∃ role, parseAgentRole call.context.agentRole = some role ∧
      g.exe.policyAllows cfg now call.owner call.policy role call.context.agentId call.name = true
  | .permissionPolicy => ∀ permission, g.permissionPolicy = some permission →
      (permission.authorize env.fromStr call.name (env.toString call.input) none).1 = .allow
  | .preToolHook => ∀ runner, g.hookRunner = some runner →
      (runner.runPreToolUse call.name (env.toString call.input)).denied = false
  | .syscallGate => g.syscallGate = true →
      validateToolForRun call.name call.context.agentRole call.context.agentId (some call.policy)
        (g.exe.isInternalMicroTool cfg now call.owner call.name) = .ok ()

/-- The hook before the tool neither failed nor was cancelled. -/
def HookClear : Prop :=
  ∀ runner, g.hookRunner = some runner → (runner.runPreToolUse call.name (env.toString call.input)).failed = false ∧
    (runner.runPreToolUse call.name (env.toString call.input)).cancelled = false

/-- The role of the caller is known. -/
def RoleKnown : Prop := (parseAgentRole call.context.agentRole).isSome

/-- The gates that come before a gate. -/
def gatesBefore : PolicyGate → List PolicyGate
  | .advertisedGate => []
  | .securityEngine => [.advertisedGate]
  | .rolePolicy => [.advertisedGate, .securityEngine]
  | .permissionPolicy => [.advertisedGate, .securityEngine, .rolePolicy]
  | .preToolHook => [.advertisedGate, .securityEngine, .rolePolicy, .permissionPolicy]
  | .syscallGate => [.advertisedGate, .securityEngine, .rolePolicy, .permissionPolicy, .preToolHook]

/-- A gate refuses a call that comes to it. -/
structure Refuses (gate : PolicyGate) : Prop where
  reaches : ∀ earlier ∈ gatesBefore gate, call.Accepts env cfg now g earlier
  roleKnown : gate ≠ .advertisedGate → call.RoleKnown
  hookClear : gate = .syscallGate → call.HookClear env g
  not_accepts : ¬call.Accepts env cfg now g gate

/-- **No handler runs past a gate, and a denial names the gate that refused**: a handler that runs is that of the
call, every gate accepts it, the role is known and the hook is clear; the outcome is denied by a gate exactly if the
gate refuses, and then nothing ran; and the value of an outcome names the gate that denied it, or none. -/
structure Guarded (out : Except ToolExecutionError ToolOutcome × List HandlerRun) : Prop where
  ran : ∀ run ∈ out.2, run = ⟨call.name, call.input⟩ ∧ call.RoleKnown ∧ call.HookClear env g ∧
    ∀ gate, call.Accepts env cfg now g gate
  denied_iff : ∀ gate, (∃ value, out.1 = .ok ⟨value, some gate⟩) ↔ call.Refuses env cfg now g gate
  denied_not_ran : ∀ value gate, out.1 = .ok ⟨value, some gate⟩ → out.2 = []
  denied_by : ∀ outcome, out.1 = .ok outcome →
    outcome.value.get "denied_by" = outcome.policyDeniedBy.map fun gate => .string gate.asStr

variable {env cfg now g call}

/-! ### What a call ends in -/

theorem get_denied_by (gate : PolicyGate) (members : List (String × Value)) :
    (ToolOutcome.denied gate (.object members)).value.get "denied_by" = some (.string gate.asStr) := by
  obtain ⟨members', heq, hlookup⟩ := @get_setMember members "denied_by" "denied_by" (.string gate.asStr)
  have hvalue : (ToolOutcome.denied gate (.object members)).value = .object members' := heq
  rw [hvalue]
  exact hlookup.trans (if_pos rfl)

theorem get_stripDeniedBy (value : Value) : (stripDeniedBy value).get "denied_by" = none := by
  cases value with
  | object members =>
    refine lookup_eq_none_iff.2 fun member hmember => ?_
    have hne := of_decide_eq_true (mem_filter.1 hmember).2
    exact bne_iff_ne.2 (Ne.symm hne)
  | null | bool | number | string | array => rfl

theorem Refuses.unique {gate gate' : PolicyGate} (h : call.Refuses env cfg now g gate)
    (h' : call.Refuses env cfg now g gate') : gate = gate' := by
  by_contra hne
  have hbefore : gate ∈ gatesBefore gate' ∨ gate' ∈ gatesBefore gate := by
    cases gate <;> cases gate' <;> first | exact absurd rfl hne | decide
  rcases hbefore with hbefore | hbefore
  · exact h.not_accepts (h'.reaches gate hbefore)
  · exact h'.not_accepts (h.reaches gate' hbefore)

theorem guarded_of_refuses {gate : PolicyGate} (h : call.Refuses env cfg now g gate) (members : List (String × Value)) :
    Guarded env cfg now g call (.ok (.denied gate (.object members)), []) where
  ran := fun _ h => absurd h not_mem_nil
  denied_iff := fun gate' => by
    constructor
    · rintro ⟨value, heq⟩
      obtain ⟨-, hgate⟩ := ToolOutcome.mk.inj (Except.ok.inj heq)
      exact Option.some.inj hgate ▸ h
    · intro h'
      obtain rfl := h.unique h'
      exact ⟨_, rfl⟩
  denied_not_ran := fun _ _ _ => rfl
  denied_by := fun outcome heq => by
    cases heq
    exact get_denied_by gate members

theorem guarded_of_not_refuses {out : Except ToolExecutionError ToolOutcome × List HandlerRun}
    (h : ∀ gate, ¬call.Refuses env cfg now g gate)
    (hran : ∀ run ∈ out.2, run = ⟨call.name, call.input⟩ ∧ call.RoleKnown ∧ call.HookClear env g ∧
      ∀ gate, call.Accepts env cfg now g gate)
    (hvalue : ∀ outcome, out.1 = .ok outcome → outcome.policyDeniedBy = none ∧ outcome.value.get "denied_by" = none) :
    Guarded env cfg now g call out where
  ran := hran
  denied_iff := fun gate => by
    constructor
    · rintro ⟨value, heq⟩
      cases (hvalue _ heq).1
    · exact fun hgate => absurd hgate (h gate)
  denied_not_ran := fun value gate heq => by cases (hvalue _ heq).1
  denied_by := fun outcome heq => by
    obtain ⟨hnone, hget⟩ := hvalue outcome heq
    rw [hnone, hget]
    rfl

theorem checkSecurity_cases :
    (g.checkSecurity cfg now call.owner call.context call.name = none ∧ call.Accepts env cfg now g .securityEngine) ∨
      (∃ members, g.checkSecurity cfg now call.owner call.context call.name =
        some (.denied .securityEngine (.object members))) ∧ ¬call.Accepts env cfg now g .securityEngine := by
  unfold GuardedExecutor.checkSecurity
  cases hengine : g.securityEngine with
  | none => exact .inl ⟨rfl, fun engine h => (by cases hengine.symm.trans h)⟩
  | some engine =>
    simp only
    cases hskill : g.resolveSkill cfg now call.owner call.name with
    | none =>
      refine .inr ⟨⟨_, rfl⟩, fun h => ?_⟩
      obtain ⟨skillIri, hsome, -⟩ := h engine hengine
      cases hskill.symm.trans hsome
    | some skillIri =>
      simp only
      have hrefuses : ∀ {answer : Except String SecurityDecision},
          engine.checkExecution skillIri call.context = answer → answer ≠ .ok .allowed →
            ¬call.Accepts env cfg now g .securityEngine := by
        intro answer hanswer hne h
        obtain ⟨skillIri', hsome, hallowed⟩ := h engine hengine
        cases hskill.symm.trans hsome
        exact hne (hanswer.symm.trans hallowed)
      cases hanswer : engine.checkExecution skillIri call.context with
      | error error => exact .inr ⟨⟨_, rfl⟩, hrefuses hanswer (fun h => nomatch h)⟩
      | ok decision =>
        cases decision with
        | allowed =>
          refine .inl ⟨rfl, fun engine' h => ?_⟩
          cases hengine.symm.trans h
          exact ⟨skillIri, hskill, hanswer⟩
        | denied reasons => exact .inr ⟨⟨_, rfl⟩, hrefuses hanswer (fun h => nomatch h)⟩
        | requiresApproval approver reason => exact .inr ⟨⟨_, rfl⟩, hrefuses hanswer (fun h => nomatch h)⟩

theorem checkPermission_cases : (g.checkPermission env call.name (env.toString call.input) = none ∧
        call.Accepts env cfg now g .permissionPolicy) ∨
      (∃ members, g.checkPermission env call.name (env.toString call.input) =
        some (.denied .permissionPolicy (.object members))) ∧ ¬call.Accepts env cfg now g .permissionPolicy := by
  unfold GuardedExecutor.checkPermission
  cases hpolicy : g.permissionPolicy with
  | none => exact .inl ⟨rfl, fun policy h => (by cases hpolicy.symm.trans h)⟩
  | some policy =>
    simp only
    cases houtcome : (policy.authorize env.fromStr call.name (env.toString call.input) none).1 with
    | allow =>
      refine .inl ⟨rfl, fun policy' h => ?_⟩
      cases hpolicy.symm.trans h
      exact houtcome
    | deny reason =>
      refine .inr ⟨⟨_, rfl⟩, fun h => ?_⟩
      cases houtcome.symm.trans (h policy hpolicy)

/-- The hook before the tool refuses the call, lets it pass, or ends it without a refusal. -/
theorem checkPreHook_cases :
    (g.checkPreHook call.name (env.toString call.input) = none ∧ call.Accepts env cfg now g .preToolHook ∧
        call.HookClear env g) ∨
      ((∃ members, g.checkPreHook call.name (env.toString call.input) =
        some (.denied .preToolHook (.object members))) ∧ ¬call.Accepts env cfg now g .preToolHook) ∨
      (∃ message, g.checkPreHook call.name (env.toString call.input) =
        some (.allowed (GuardedExecutor.errorValue message))) ∧ call.Accepts env cfg now g .preToolHook ∧
          ¬call.HookClear env g := by
  unfold GuardedExecutor.checkPreHook
  cases hrunner : g.hookRunner with
  | none =>
    exact .inl ⟨rfl, fun runner h => (by cases hrunner.symm.trans h), fun runner h => (by cases hrunner.symm.trans h)⟩
  | some runner =>
    simp only
    have hown : ∀ runner', g.hookRunner = some runner' → runner' = runner := fun runner' h =>
      Option.some.inj (h.symm.trans hrunner)
    split_ifs with hdenied hfailed hcancelled
    · refine .inr (.inl ⟨⟨_, rfl⟩, fun h => ?_⟩)
      rw [h runner hrunner] at hdenied
      cases hdenied
    · refine .inr (.inr ⟨⟨_, rfl⟩, fun runner' h => hown runner' h ▸ Bool.eq_false_of_not_eq_true hdenied, fun h => ?_⟩)
      rw [(h runner hrunner).1] at hfailed
      cases hfailed
    · refine .inr (.inr ⟨⟨_, rfl⟩, fun runner' h => hown runner' h ▸ Bool.eq_false_of_not_eq_true hdenied, fun h => ?_⟩)
      rw [(h runner hrunner).2] at hcancelled
      cases hcancelled
    · exact .inl ⟨rfl, fun runner' h => hown runner' h ▸ Bool.eq_false_of_not_eq_true hdenied,
        fun runner' h => hown runner' h ▸
          ⟨Bool.eq_false_of_not_eq_true hfailed, Bool.eq_false_of_not_eq_true hcancelled⟩⟩

/-- The task-local values inside the call. -/
def locals (call : GuardedCall) : CallLocals :=
  ⟨some call.context, some call.policy, some call.context.agentRole, call.owner⟩

theorem checkSyscallGate_cases :
    (g.checkSyscallGate cfg now call.locals call.name = none ∧ call.Accepts env cfg now g .syscallGate) ∨
      (∃ members, g.checkSyscallGate cfg now call.locals call.name =
        some (.denied .syscallGate (.object members))) ∧ ¬call.Accepts env cfg now g .syscallGate := by
  unfold GuardedExecutor.checkSyscallGate
  cases hgate : g.syscallGate with
  | false => exact .inl ⟨rfl, fun h => (by cases hgate.symm.trans h)⟩
  | true =>
    simp only [if_true]
    cases hanswer : validateToolForRun call.name ((call.locals.callerContext.map (·.agentRole)).getD "")
        ((call.locals.callerContext.map (·.agentId)).getD "") call.locals.runPolicy
        (g.exe.isInternalMicroTool cfg now call.locals.microOwner call.name) with
    | error message =>
      refine .inr ⟨⟨_, rfl⟩, fun h => ?_⟩
      cases hanswer.symm.trans (h hgate)
    | ok _ => exact .inl ⟨rfl, fun _ => hanswer⟩

/-- What runs is the handler of the call. -/
theorem mem_invoke {locals : CallLocals} {name : String} {input : Value} {run : HandlerRun}
    (h : run ∈ (g.invoke env cfg now locals name input).2) : run = ⟨name, input⟩ := by
  unfold GuardedExecutor.invoke at h
  split_ifs at h
  · split at h
    · exact absurd h not_mem_nil
    · split at h <;> exact mem_singleton.1 h
  · split at h
    · exact absurd h not_mem_nil
    · split at h <;> exact mem_singleton.1 h

/-- What a tool returns names no gate. -/
theorem finish_eq_ok {name inputStr : String} {result : Except ToolExecutionError Value} {outcome : ToolOutcome}
    (h : g.finish env name inputStr (result.map stripDeniedBy) = .ok outcome) :
    outcome.policyDeniedBy = none ∧ outcome.value.get "denied_by" = none := by
  unfold GuardedExecutor.finish at h
  cases result with
  | error error => cases h
  | ok output =>
    have hstripped := get_stripDeniedBy output
    simp only [Except.map] at h
    split at h
    · cases h
      exact ⟨rfl, hstripped⟩
    · split_ifs at h
      · cases h
        exact ⟨rfl, rfl⟩
      · cases h
        exact ⟨rfl, hstripped⟩

/-- `execute_inner`, in a call that the gates before it accept. -/
theorem guarded_executeInner (hrole : call.RoleKnown)
    (h : ∀ gate ∈ gatesBefore .permissionPolicy, call.Accepts env cfg now g gate) :
    Guarded env cfg now g call (g.executeInner env cfg now call.locals call.name call.input) := by
  have hadvertised : call.Accepts env cfg now g .advertisedGate := h _ (by decide)
  have hsecurity : call.Accepts env cfg now g .securityEngine := h _ (by decide)
  have hrolePolicy : call.Accepts env cfg now g .rolePolicy := h _ (by decide)
  unfold GuardedExecutor.executeInner
  simp only
  rcases @checkPermission_cases env cfg now g call with ⟨hcheck, hpermission⟩ | ⟨⟨members, hcheck⟩, hrefused⟩
  swap
  · rw [hcheck]
    exact guarded_of_refuses ⟨h, fun _ => hrole, fun hgate => (nomatch hgate), hrefused⟩ members
  rw [hcheck]
  simp only
  have hbeforeHook : ∀ gate ∈ gatesBefore .preToolHook, call.Accepts env cfg now g gate := by
    intro gate hgate
    simp only [gatesBefore, mem_cons, not_mem_nil, or_false] at hgate
    rcases hgate with rfl | rfl | rfl | rfl <;> assumption
  rcases @checkPreHook_cases env cfg now g call with
    ⟨hcheck, hhook, hclear⟩ | ⟨⟨members, hcheck⟩, hrefused⟩ | ⟨⟨message, hcheck⟩, hhook, hstopped⟩
  · rw [hcheck]
    simp only
    have hbeforeSyscall : ∀ gate ∈ gatesBefore .syscallGate, call.Accepts env cfg now g gate := by
      intro gate hgate
      simp only [gatesBefore, mem_cons, not_mem_nil, or_false] at hgate
      rcases hgate with rfl | rfl | rfl | rfl | rfl <;> assumption
    rcases @checkSyscallGate_cases env cfg now g call with ⟨hcheck, hsyscall⟩ | ⟨⟨members, hcheck⟩, hrefused⟩
    · rw [hcheck]
      simp only
      have hall : ∀ gate, call.Accepts env cfg now g gate := by
        intro gate
        cases gate <;> assumption
      refine guarded_of_not_refuses (fun gate hrefuses => hrefuses.not_accepts (hall gate)) (fun run hrun => ?_)
        fun outcome houtcome => ?_
      · refine ⟨@mem_invoke env cfg now g call.locals call.name call.input run ?_, hrole, hclear, hall⟩
        split at hrun <;> next hinvoke => exact hinvoke ▸ hrun
      · split at houtcome
        · cases houtcome
        · exact finish_eq_ok houtcome
    · rw [hcheck]
      exact guarded_of_refuses ⟨hbeforeSyscall, fun _ => hrole, fun _ => hclear, hrefused⟩ members
  · rw [hcheck]
    exact guarded_of_refuses ⟨hbeforeHook, fun _ => hrole, fun hgate => (nomatch hgate), hrefused⟩ members
  · rw [hcheck]
    refine guarded_of_not_refuses (fun gate hrefuses => ?_) (fun run hrun => absurd hrun not_mem_nil)
      fun outcome houtcome => ?_
    · by_cases hgate : gate = .syscallGate
      · exact hstopped (hrefuses.hookClear hgate)
      · refine hrefuses.not_accepts ?_
        cases gate with
        | syscallGate => exact absurd rfl hgate
        | permissionPolicy | preToolHook | advertisedGate | securityEngine | rolePolicy => assumption
    · cases houtcome
      exact ⟨rfl, rfl⟩

/-- **No tool handler runs past a gate, and denials are attributed honestly**, for every configuration of the
executor and every call. -/
theorem guarded_execute (env : GuardEnv) (cfg : MicroToolConfig) (now : ℕ) (g : GuardedExecutor) (call : GuardedCall) :
    Guarded env cfg now g call (call.execute env cfg now g) := by
  unfold execute GuardedExecutor.executeGuarded
  by_cases hadvertised : call.name ∈ call.advertisedTools
  swap
  · rw [if_pos hadvertised]
    exact guarded_of_refuses ⟨fun _ h => absurd h not_mem_nil, fun h => absurd rfl h, fun h => (nomatch h),
      hadvertised⟩ _
  rw [if_neg (not_not.2 hadvertised)]
  cases hparse : parseAgentRole call.context.agentRole with
  | none =>
    -- no gate after the first is reached without a role
    refine guarded_of_not_refuses (fun gate hrefuses => ?_) (fun run hrun => absurd hrun not_mem_nil)
      fun outcome houtcome => (nomatch houtcome)
    by_cases hgate : gate = .advertisedGate
    · exact hrefuses.not_accepts (hgate ▸ hadvertised)
    · have hrole := hrefuses.roleKnown hgate
      rw [RoleKnown, hparse] at hrole
      cases hrole
  | some role =>
    have hrole : call.RoleKnown := by rw [RoleKnown, hparse]; rfl
    simp only
    rcases @checkSecurity_cases env cfg now g call with ⟨hcheck, hsecurity⟩ | ⟨⟨members, hcheck⟩, hrefused⟩
    · rw [hcheck]
      simp only
      split_ifs with hallows
      · refine guarded_executeInner hrole fun gate hgate => ?_
        simp only [gatesBefore, mem_cons, not_mem_nil, or_false] at hgate
        rcases hgate with rfl | rfl | rfl
        · exact hadvertised
        · exact hsecurity
        · exact ⟨role, hparse, hallows⟩
      · have hrefuses : call.Refuses env cfg now g .rolePolicy := by
          refine ⟨fun gate hgate => ?_, fun _ => hrole, fun h => (nomatch h), ?_⟩
          · simp only [gatesBefore, mem_cons, not_mem_nil, or_false] at hgate
            rcases hgate with rfl | rfl
            · exact hadvertised
            · exact hsecurity
          · rintro ⟨role', hparse', hallows'⟩
            cases hparse.symm.trans hparse'
            exact hallows hallows'
        exact guarded_of_refuses hrefuses _
    · rw [hcheck]
      have hrefuses : call.Refuses env cfg now g .securityEngine := by
        refine ⟨fun gate hgate => ?_, fun _ => hrole, fun h => (nomatch h), hrefused⟩
        rw [mem_singleton.1 hgate]
        exact hadvertised
      exact guarded_of_refuses hrefuses members

end GuardedCall

end WildAgentOs.Tools
