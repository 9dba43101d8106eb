import WildAgentOs.Memory.Blackboard

/-!
# Groups of tools and the policy of a run

`tools/tool_groups.rs` and `core/tool_policy.rs`: the groups that the tools of a role come from, what a run has
activated of those on demand, and the policy that a run executes tools under.

* `ToolGroupManager.getToolNamesForRole`, `ToolPolicy.isExecutable`, `ToolPolicy.isInternalMicroToolExecutable`;
* `ActivatedTools.activate`: names are activated once;
* `ToolPolicy.isMicroToolName_of_isExecutable`: no policy has a tool with the name of a result reader.
-/

namespace WildAgentOs.Tools

open Core Memory List

/-! ### Groups -/

inductive ToolGroup
  | core
  | workspace
  | write
  | search
  | web
  | knowledgeRead
  | knowledgePlan
  | knowledgeWrite
  | ingest
  | skill
  | ontology
  | system
  deriving DecidableEq

namespace ToolGroup

/-- `from_str`. -/
def parse (s : String) : Option ToolGroup :=
  let lower := String.ofList (Text.toLowercase s.toList)
  if lower = "core" then some core
  else if lower = "workspace" then some workspace
  else if lower = "write" then some write
  else if lower = "search" then some search
  else if lower = "web" then some web
  else if lower = "knowledgeread" ∨ lower = "knowledge_read" then some knowledgeRead
  else if lower = "knowledgeplan" ∨ lower = "knowledge_plan" then some knowledgePlan
  else if lower = "knowledgewrite" ∨ lower = "knowledge_write" then some knowledgeWrite
  else if lower = "ingest" then some ingest
  else if lower = "skill" then some skill
  else if lower = "ontology" then some ontology
  else if lower = "system" then some system
  else none

/-- `build_group_tools`, with the feature `ontology` or without it. -/
def tools (ontologyFeature : Bool) : ToolGroup → List String
  | core => ["file_read", "file_list"]
  | workspace => ["workspace_status", "read_agent_output"]
  | write => ["file_write", "bash", "powershell", "file_edit"]
  | web => ["web_search", "web_fetch"]
  | search => ["grep_search", "glob_search", "rag_search", "kg_search"]
  | knowledgeRead => ["knowledge_query", "knowledge_neighbors", "kb_vector_search"]
  | knowledgePlan => ["knowledge_list", "knowledge_search", "knowledge_extract_code"]
  | knowledgeWrite => ["knowledge_update", "knowledge_delete", "knowledge_extract", "knowledge_bridge"]
  | ingest => ["rag_index", "rag_chunk", "knowledge_import_file", "knowledge_import_url",
    "knowledge_import_directory", "knowledge_import_json"]
  | skill => ["create_skill", "convert_skill"]
  | system => ["tool_search"]
  | ontology =>
    if ontologyFeature then ["ontology_register", "ontology_validate_turtle", "ontology_lint_turtle",
      "ontology_diff_turtle", "ontology_validate_shacl", "ontology_reason"]
    else ["ontology_register"]

end ToolGroup

structure RoleToolConfig where
  default : List String
  onDemand : List String
  deriving DecidableEq

structure ToolGroupSettings where
  enabled : Bool
  roles : List (String × RoleToolConfig)
  maxToolsPerActivation : ℕ
  maxActivatedTools : ℕ
  checkBashEnabled : Bool
  deriving DecidableEq

def ToolGroupSettings.default : ToolGroupSettings :=
  ⟨true, [("Plan", ⟨["Core", "Search", "KnowledgePlan", "System"], ["Web"]⟩),
    ("Do", ⟨["Core", "Workspace", "Write", "Search", "System"],
      ["Web", "KnowledgePlan", "KnowledgeRead", "KnowledgeWrite", "Ingest", "Skill", "Ontology"]⟩),
    ("Check", ⟨["Core", "Search", "System"], ["Workspace", "Web", "KnowledgePlan", "KnowledgeRead"]⟩),
    ("Act", ⟨["Core", "System"], ["Search", "KnowledgePlan", "KnowledgeRead"]⟩)], 5, 20, false⟩

structure ToolGroupManager where
  settings : ToolGroupSettings
  ontologyFeature : Bool
  deriving DecidableEq

namespace ToolGroupManager

def new (settings : Option ToolGroupSettings) (ontologyFeature : Bool) : ToolGroupManager :=
  ⟨settings.getD .default, ontologyFeature⟩

def getGroupsForRole (manager : ToolGroupManager) (role : String) : List ToolGroup × List ToolGroup :=
  match manager.settings.roles.lookup role with
  | some config => (config.default.filterMap ToolGroup.parse, config.onDemand.filterMap ToolGroup.parse)
  | none => ([.core, .system], [])

def getToolsForGroups (manager : ToolGroupManager) (groups : List ToolGroup) : List String :=
  groups.flatMap (ToolGroup.tools manager.ontologyFeature)

/-- `get_tool_names_for_role`: what is resident, and what is there on demand. -/
def getToolNamesForRole (manager : ToolGroupManager) (role : String) : List String × List String :=
  (manager.getToolsForGroups (manager.getGroupsForRole role).1,
    manager.getToolsForGroups (manager.getGroupsForRole role).2)

end ToolGroupManager

/-! ### The policy of a run -/

structure ToolPolicy where
  groups : ToolGroupManager
  checkBashEnabled : Bool
  agentRestrictions : String → Option (List String)

def readonlyTools : List String :=
  ["file_read", "file_list", "workspace_status", "read_agent_output", "glob_search", "grep_search", "web_search",
    "web_fetch", "tool_search", "rag_search", "knowledge_list", "knowledge_search", "kg_search",
    "knowledge_extract_code", "knowledge_query", "knowledge_neighbors", "kb_vector_search"]

def planReadonlyTools : List String :=
  ["file_read", "file_list", "glob_search", "grep_search", "web_search", "web_fetch", "tool_search", "rag_search",
    "knowledge_list", "knowledge_search", "kg_search", "knowledge_extract_code"]

/-- `internal_micro_tool_prefixes`. -/
def internalMicroToolStarts : List String := ["read_full_result_", "query_", "get_entity_details_", "expand_relation_"]

/-- `has_internal_micro_tool_prefix`. -/
def hasInternalMicroToolStart (name : String) : Bool :=
  internalMicroToolStarts.any fun start => decide (start.toList <+: name.toList)

namespace ToolPolicy

/-- `new`. -/
def default (ontologyFeature : Bool) : ToolPolicy := ⟨.new none ontologyFeature, false, fun _ => none⟩

def roleCap (policy : ToolPolicy) (role : AgentRole) : List String :=
  let names := policy.groups.getToolNamesForRole role.debug
  let cap := names.1 ++ names.2
  let cap := match role with
    | .plan => cap.filter (· ∈ planReadonlyTools)
    | .act => cap.filter (· ∈ readonlyTools)
    | .check => (if policy.checkBashEnabled then ["bash"] else []) ++ cap.filter (· ∈ readonlyTools)
    | .doing => cap
  cap.filter fun name => decide (name ≠ "knowledge_delete" ∧ name ≠ "ontology_register")

def visibleTools (policy : ToolPolicy) (role : AgentRole) (agentId : String) : List String :=
  ((match policy.agentRestrictions agentId with
    | some restriction => (policy.roleCap role).filter (· ∈ restriction)
    | none => policy.roleCap role).dedup).mergeSort fun a b => decide (a ≤ b)

/-- `is_executable`, which is `is_visible`. -/
def isExecutable (policy : ToolPolicy) (role : AgentRole) (agentId name : String) : Bool :=
  decide (name ∈ policy.visibleTools role agentId)

def isInternalMicroToolExecutable (policy : ToolPolicy) (role : AgentRole) (agentId name : String) : Bool :=
  decide (role ≠ .plan) && hasInternalMicroToolStart name && decide ("file_read" ∈ policy.visibleTools role agentId)

def restrictTools (policy : ToolPolicy) (agentId : String) (tools : List String) : ToolPolicy :=
  { policy with
    agentRestrictions := Function.update policy.agentRestrictions agentId
      (some (match policy.agentRestrictions agentId with
        | some current => current.filter (· ∈ tools)
        | none => tools)) }

end ToolPolicy

/-! ### What a run has activated -/

/-- The names are activated once. -/
structure ActivatedTools where
  tools : List String
  maxPerActivation : ℕ
  maxTotal : ℕ
  activationEvents : ℕ
  policy : ToolPolicy
  nodup : tools.Nodup

namespace ActivatedTools

/-- One candidate of `activate`, with what is activated and what is skipped so far. -/
def activateOne (allowed : List String) (state : ActivatedTools × List String × List String) (name : String) :
    ActivatedTools × List String × List String :=
  if h : name ∉ allowed ∨ name ∈ state.1.tools then state
  else if state.2.1.length = state.1.maxPerActivation ∨ state.1.tools.length = state.1.maxTotal then
    (state.1, state.2.1, state.2.2 ++ [name])
  else
    ({ state.1 with
        tools := state.1.tools ++ [name]
        nodup := List.Nodup.append state.1.nodup (nodup_singleton name)
          (disjoint_singleton.2 fun hmem => h (.inr hmem)) }, state.2.1 ++ [name], state.2.2)

/-- `activate`: the activated names, and the skipped ones. -/
def activate (activated : ActivatedTools) (candidates allowed : List String) :
    ActivatedTools × List String × List String :=
  let result := candidates.foldl (activateOne allowed) (activated, [], [])
  if result.2.1 = [] then result
  else ({ result.1 with activationEvents := result.1.activationEvents + 1 }, result.2)

end ActivatedTools

/-! ### Names of result readers -/

/-- `MICRO_TOOL_PREFIXES`. -/
def microToolStarts : List String := ["read_full_result_", "query_", "get_entity_details", "expand_relation"]

def isMicroToolName (name : String) : Bool := microToolStarts.any fun start => decide (start.toList <+: name.toList)

variable {name : String}

/-- The readers of the policy are micro-tools of the executor. -/
theorem isMicroToolName_of_internal (h : hasInternalMicroToolStart name = true) : isMicroToolName name = true := by
  unfold hasInternalMicroToolStart isMicroToolName at *
  rw [any_eq_true] at *
  obtain ⟨start, hmem, hstart⟩ := h
  rw [decide_eq_true_eq] at hstart
  have hshorter : ∀ start ∈ internalMicroToolStarts, ∃ short ∈ microToolStarts, short.toList <+: start.toList := by
    decide +kernel
  obtain ⟨short, hshort, hle⟩ := hshorter start hmem
  exact ⟨short, hshort, decide_eq_true (hle.trans hstart)⟩

/-- The tools of the groups are no micro-tools. -/
theorem isMicroToolName_of_mem_tools {ontologyFeature : Bool} {group : ToolGroup}
    (h : name ∈ group.tools ontologyFeature) : isMicroToolName name = false := by
  have hall : ∀ name ∈ group.tools ontologyFeature, isMicroToolName name = false := by
    cases ontologyFeature <;> cases group <;> decide +kernel
  exact hall name h

namespace ToolPolicy

variable {policy : ToolPolicy} {role : AgentRole} {agentId name : String}

theorem mem_getToolsForGroups {manager : ToolGroupManager} {groups : List ToolGroup}
    (h : name ∈ manager.getToolsForGroups groups) : ∃ group, name ∈ ToolGroup.tools manager.ontologyFeature group := by
  obtain ⟨group, -, hgroup⟩ := mem_flatMap.1 h
  exact ⟨group, hgroup⟩

/-- What a role can be granted are tools of the groups. -/
theorem exists_group_of_mem_roleCap (h : name ∈ policy.roleCap role) :
    ∃ group, name ∈ ToolGroup.tools policy.groups.ontologyFeature group := by
  have hnames : name ∈ (policy.groups.getToolNamesForRole role.debug).1 ++
      (policy.groups.getToolNamesForRole role.debug).2 ∨ name = "bash" := by
    have hcap := (mem_filter.1 h).1
    cases role with
    | plan => exact .inl (mem_filter.1 hcap).1
    | act => exact .inl (mem_filter.1 hcap).1
    | doing => exact .inl hcap
    | check =>
      rcases mem_append.1 hcap with hbash | hcap
      · split_ifs at hbash
        · exact .inr (mem_singleton.1 hbash)
        · exact absurd hbash not_mem_nil
      · exact .inl (mem_filter.1 hcap).1
  rcases hnames with hnames | rfl
  · rcases mem_append.1 hnames with h | h <;> exact mem_getToolsForGroups h
  · exact ⟨.write, by simp [ToolGroup.tools]⟩

theorem mem_visibleTools_of_isExecutable (h : policy.isExecutable role agentId name = true) :
    name ∈ policy.roleCap role := by
  have hmem := of_decide_eq_true h
  unfold visibleTools at hmem
  rw [mem_mergeSort, mem_dedup] at hmem
  split at hmem
  · exact (mem_filter.1 hmem).1
  · exact hmem

/-- **No policy has a tool with the name of a result reader.** -/
theorem isMicroToolName_of_isExecutable (h : policy.isExecutable role agentId name = true) :
    isMicroToolName name = false := by
  obtain ⟨group, hgroup⟩ := exists_group_of_mem_roleCap (mem_visibleTools_of_isExecutable h)
  exact isMicroToolName_of_mem_tools hgroup

end ToolPolicy

end WildAgentOs.Tools
