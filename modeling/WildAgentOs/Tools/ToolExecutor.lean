import WildAgentOs.Tools.MicroStore
import WildAgentOs.Tools.ToolPolicy

/-!
# The tool executor

`tools/tool_executor/mod.rs`: the table of tools with their descriptions, what is advertised for a turn of a run, and
which handler a name has.

* `ToolExecutor.register`, `ToolExecutor.registerHandler`: the descriptions of micro-tools are capped;
* `ToolExecutor.policyAllows`, `ToolExecutor.tryGetHandler`;
* `ToolExecutor.toolDefinitionsForTurnWithPolicy`, `ToolExecutor.toolDefinitionsForRun`.
-/

namespace WildAgentOs.Tools

open Json Core Memory Function

abbrev ToolFn := Value → Except String Value

structure ToolDescription where
  name : String
  description : String
  parameters : Value
  allowedRoles : List String

/-- What the executor takes from outside: the text of a list of strings, and the answer of a result reader. -/
structure ReaderEnv where
  debugList : List String → String
  readStoredResult : String → MicroToolContext → Value → Value → Value

structure ToolExecutor where
  tools : String → Option ToolFn
  toolDescriptions : List ToolDescription
  descriptionIndices : String → Option ℕ
  microDescriptionOrder : List String
  toolGroupManager : Option ToolGroupManager
  microTools : MicroToolStore

/-- `MAX_MICRO_TOOL_DESCRIPTIONS`. -/
def maxMicroToolDescriptions : ℕ := 5

namespace ToolExecutor

/-- An executor without tools. -/
def empty (manager : Option ToolGroupManager) : ToolExecutor := ⟨fun _ => none, [], fun _ => none, [], manager, .empty⟩

/-! ### Registration -/

/-- The repair of the indices from a position on. -/
def reindexFrom (pos : ℕ) (descriptions : List ToolDescription) (indices : String → Option ℕ) : String → Option ℕ :=
  (descriptions.zipIdx.drop pos).foldl
    (fun indices entry => update indices entry.1.name (some entry.2)) indices

/-- The removal of the oldest description of a micro-tool. -/
def retireOldest (exe : ToolExecutor) : ToolExecutor :=
  match exe.microDescriptionOrder with
  | [] => exe
  | oldest :: order =>
    match exe.descriptionIndices oldest with
    | none => { exe with microDescriptionOrder := order }
    | some pos =>
      { exe with
        microDescriptionOrder := order
        toolDescriptions := exe.toolDescriptions.eraseIdx pos
        descriptionIndices := reindexFrom pos (exe.toolDescriptions.eraseIdx pos)
          (update exe.descriptionIndices oldest none) }

def registerHandler (exe : ToolExecutor) (tool : ToolDescription) (handler : ToolFn) : ToolExecutor :=
  let exe := { exe with tools := update exe.tools tool.name (some handler) }
  match exe.descriptionIndices tool.name with
  | some index => { exe with toolDescriptions := exe.toolDescriptions.set index tool }
  | none =>
    let exe := { exe with
      descriptionIndices := update exe.descriptionIndices tool.name (some exe.toolDescriptions.length)
      toolDescriptions := exe.toolDescriptions ++ [tool] }
    if isMicroToolName tool.name then
      let exe := { exe with microDescriptionOrder := exe.microDescriptionOrder ++ [tool.name] }
      if maxMicroToolDescriptions < exe.microDescriptionOrder.length then exe.retireOldest else exe
    else exe

def register (exe : ToolExecutor) (tool : ToolDescription) (handler : ToolFn) : ToolExecutor :=
  { exe with microTools := exe.microTools.removeReadersNamed tool.name }.registerHandler tool handler

def registerMicroTool (cfg : MicroToolConfig) (finders : Finders) (now : ℕ) (exe : ToolExecutor) (toolName : String)
    (context : MicroToolContext) : ToolExecutor :=
  { exe with microTools := exe.microTools.registerReader cfg finders now toolName context }

def storeMicroToolData (cfg : MicroToolConfig) (finders : Finders) (now : ℕ) (exe : ToolExecutor)
    (owner : MicroToolOwner) (storageKey : String) (data : Value) : ToolExecutor :=
  { exe with microTools := exe.microTools.storeData cfg finders now owner storageKey data }

def removeRun (exe : ToolExecutor) (runId : String) : ToolExecutor :=
  { exe with microTools := exe.microTools.removeRun runId }

/-! ### Policy and handlers -/

section

variable (cfg : MicroToolConfig) (now : ℕ) (exe : ToolExecutor) (owner : Option MicroToolOwner)

/-- `is_internal_micro_tool`, in the scope of an owner. -/
def isInternalMicroTool (name : String) : Bool :=
  hasInternalMicroToolStart name && (exe.tools name).isNone &&
    owner.any fun owner => exe.microTools.hasReader cfg now owner name

/-- `policy_allows`, in the scope of an owner. -/
def policyAllows (policy : ToolPolicy) (role : AgentRole) (agentId name : String) : Bool :=
  policy.isExecutable role agentId name ||
    (exe.isInternalMicroTool cfg now owner name && policy.isInternalMicroToolExecutable role agentId name)

/-- `try_get_handler`, in the scope of an owner. -/
def tryGetHandler (env : ReaderEnv) (name : String) : Option ToolFn :=
  match exe.tools name with
  | some handler => some handler
  | none =>
    if isMicroToolName name then
      owner.bind fun owner => (exe.microTools.lookup cfg now owner name).map fun found =>
        fun input => .ok (env.readStoredResult name found.1 found.2 input)
    else none

end

/-! ### What is advertised -/

/-- The canonical name of a role. -/
def roleNameOf (role : String) : String :=
  if role = "PA" ∨ role = "Plan" then "Plan"
  else if role = "DA" ∨ role = "Do" then "Do"
  else if role = "CA" ∨ role = "Check" then "Check"
  else if role = "AA" ∨ role = "Act" then "Act"
  else role

/-- What `Act` has without groups. -/
def actTools : List String :=
  ["file_read", "file_list", "tool_search", "grep_search", "glob_search", "rag_search", "kg_search",
    "codebase_search", "knowledge_list", "knowledge_search", "knowledge_extract_code"]

/-- The resident tools of a role, and those on demand. -/
def groupsFor (exe : ToolExecutor) (role : String) : List String × List String :=
  match exe.toolGroupManager.filter (·.settings.enabled) with
  | some manager => manager.getToolNamesForRole (roleNameOf role)
  | none =>
    if role = "Plan" ∨ role = "PA" then (readonlyTools, [])
    else if role = "Act" ∨ role = "AA" then (actTools, [])
    else (exe.toolDescriptions.map (·.name), [])

/-- The role that a text stands for, or `Act`. -/
def agentRoleOf (role : String) : AgentRole := (parseAgentRole role).getD .act

def residentTools (exe : ToolExecutor) (role : String) (activated : ActivatedTools) : List String :=
  if agentRoleOf role = .check ∧ activated.policy.checkBashEnabled = true then "bash" :: (exe.groupsFor role).1
  else (exe.groupsFor role).1

def roleIsAllowed (role : String) (tool : ToolDescription) : Bool :=
  tool.allowedRoles.isEmpty || tool.allowedRoles.any fun allowed =>
    decide (allowed = role ∨
      (allowed, roleNameOf role) ∈ [("PA", "Plan"), ("DA", "Do"), ("CA", "Check"), ("AA", "Act")])

/-- The parameters with a `type`; there is none to be set in a value that is neither an object nor `null`. -/
def typedParameters (parameters : Value) : Option Value :=
  match parameters.get "type" with
  | some _ => some parameters
  | none =>
    match parameters with
    | .object members => some (.object (members ++ [("type", .string "object")]))
    | .null => some (.object [("type", .string "object")])
    | _ => none

def functionValue (name description : String) (parameters : Value) : Value :=
  .object [("type", .string "function"), ("function",
    .object [("name", .string name), ("description", .string description), ("parameters", parameters)])]

/-- `definition`; `none` where the process panics. -/
def definition (tool : ToolDescription) : Option Value :=
  (typedParameters tool.parameters).map (functionValue tool.name tool.description)

/-- `v["function"]["name"]`. -/
def definitionName (value : Value) : Option String :=
  ((value.get "function").bind fun function => function.get "name").bind Value.asStr

section

variable (cfg : MicroToolConfig) (now : ℕ) (exe : ToolExecutor) (current : Option MicroToolOwner)
  (role agentId : String) (activated : ActivatedTools)

/-- A tool that the role and the policy allow. -/
def isAllowed (tool : ToolDescription) : Bool :=
  roleIsAllowed role tool && exe.policyAllows cfg now current activated.policy (agentRoleOf role) agentId tool.name

/-- The resident tools that are shown, in the order of registration. -/
def shownResident : List ToolDescription :=
  exe.toolDescriptions.filter fun tool => !isMicroToolName tool.name &&
    (decide (tool.name ∈ exe.residentTools role activated) && exe.isAllowed cfg now current role agentId activated tool)

/-- The tools that are shown on demand, in the order of activation. -/
def shownOnDemand : List ToolDescription :=
  activated.tools.filterMap fun name =>
    if name ∈ (exe.groupsFor role).2 then
      exe.toolDescriptions.find? fun tool => decide (tool.name = name) && (!isMicroToolName tool.name &&
        exe.isAllowed cfg now current role agentId activated tool)
    else none

/-- The registered micro-tools that are shown. -/
def shownMicro : List ToolDescription :=
  exe.toolDescriptions.filter fun tool => isMicroToolName tool.name &&
    exe.isAllowed cfg now current role agentId activated tool

def toolDefinitionsForTurnWithPolicy : Option (List Value) :=
  (exe.shownResident cfg now current role agentId activated ++ exe.shownOnDemand cfg now current role agentId activated ++
    exe.shownMicro cfg now current role agentId activated).mapM definition

def readerDescription (env : ReaderEnv) (toolName : String) (context : MicroToolContext) : String :=
  if "read_full_result_".toList <+: toolName.toList then "Read full tool result. call_id: " ++ context.callId
  else if "query_".toList <+: toolName.toList then
    "Query entity types: " ++ env.debugList context.entityTypes ++ ". call_id: " ++ context.callId
  else if "get_entity_details_".toList <+: toolName.toList then "Get entity details. call_id: " ++ context.callId
  else "Micro-tool: " ++ toolName

def readerParameters : Value :=
  .object [("type", .string "object"), ("properties", .object
    [("offset", .object [("type", .string "integer"), ("description", .string "Starting offset")]),
      ("limit", .object [("type", .string "integer"), ("description", .string "Max results to return")])])]

/-- The newest readers of an owner. -/
def newestReaders (owner : MicroToolOwner) : List (String × MicroToolContext) :=
  (exe.microTools.readersFor cfg now owner).drop
    ((exe.microTools.readersFor cfg now owner).length - maxMicroToolDescriptions)

/-- A reader that is shown. -/
def showsReader (name : String) : Bool :=
  (exe.tools name).isNone && hasInternalMicroToolStart name &&
    (activated.policy.isExecutable (agentRoleOf role) agentId name ||
      activated.policy.isInternalMicroToolExecutable (agentRoleOf role) agentId name)

def toolDefinitionsForRun (env : ReaderEnv) (owner : Option MicroToolOwner) : Option (List Value) :=
  (exe.toolDefinitionsForTurnWithPolicy cfg now current role agentId activated).map fun result =>
    match owner with
    | none => result
    | some owner => result ++
      ((exe.newestReaders cfg now owner).filter fun reader => exe.showsReader role agentId activated reader.1).map
        fun reader => functionValue reader.1 (readerDescription env reader.1 reader.2) readerParameters

end

end ToolExecutor

end WildAgentOs.Tools
