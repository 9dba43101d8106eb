import WildAgentOs.Tools.ToolPolicy

/-!
# A run's policy only narrows

`core/tool_policy.rs`, under calls of `restrict_tools` for any agents in any order.  What an agent may use is the
cap of its role, met with all its restrictions; the caps of the roles that do not act on the world are lists of
readers, whatever the settings put in their groups.

* `ToolPolicy.ofSettings`, `ToolPolicy.restrictAll`: a policy as it is built, and as it is after calls;
* `ToolPolicy.permits`: what the restrictions leave to an agent, and `permits_restrictTools` how a call changes it;
* `policy_never_escalates`.
-/

namespace WildAgentOs.Tools

open Core Memory List

namespace ToolPolicy

def withToolGroupManager (policy : ToolPolicy) (groups : ToolGroupManager) : ToolPolicy :=
  { policy with checkBashEnabled := groups.settings.checkBashEnabled, groups := groups }

def withCheckBashEnabled (policy : ToolPolicy) (enabled : Bool) : ToolPolicy :=
  { policy with checkBashEnabled := enabled }

/-- The policy of settings: `new`, then `with_tool_group_manager`, and `with_check_bash_enabled` where the server
asks for it. -/
def ofSettings (settings : ToolGroupSettings) (ontologyFeature : Bool) (optIn : Option Bool) : ToolPolicy :=
  let policy := (default ontologyFeature).withToolGroupManager (.new (some settings) ontologyFeature)
  match optIn with
  | some enabled => policy.withCheckBashEnabled enabled
  | none => policy

/-- Calls of `restrict_tools`, the first one first. -/
def restrictAll (policy : ToolPolicy) (calls : List (String × List String)) : ToolPolicy :=
  calls.foldl (fun policy call => policy.restrictTools call.1 call.2) policy

/-- The restrictions leave the name to the agent. -/
def permits (policy : ToolPolicy) (agentId name : String) : Prop :=
  ∀ restriction, policy.agentRestrictions agentId = some restriction → name ∈ restriction

variable {policy : ToolPolicy} {role : AgentRole} {agentId name : String}

@[simp] theorem ofSettings_agentRestrictions (settings : ToolGroupSettings) (ontologyFeature : Bool)
    (optIn : Option Bool) (agentId : String) :
    (ofSettings settings ontologyFeature optIn).agentRestrictions agentId = none := by
  cases optIn <;> rfl

@[simp] theorem ofSettings_checkBashEnabled (settings : ToolGroupSettings) (ontologyFeature : Bool)
    (optIn : Option Bool) :
    (ofSettings settings ontologyFeature optIn).checkBashEnabled = optIn.getD settings.checkBashEnabled := by
  cases optIn <;> rfl

@[simp] theorem roleCap_restrictTools (policy : ToolPolicy) (agentId : String) (tools : List String)
    (role : AgentRole) : (policy.restrictTools agentId tools).roleCap role = policy.roleCap role := rfl

/-- **A visible tool** is one of the cap that the restrictions leave. -/
theorem mem_visibleTools :
    name ∈ policy.visibleTools role agentId ↔ name ∈ policy.roleCap role ∧ policy.permits agentId name := by
  unfold visibleTools permits
  rw [mem_mergeSort, mem_dedup]
  cases policy.agentRestrictions agentId with
  | none => simp
  | some restriction => simp [mem_filter]

/-- A call narrows one agent, and leaves the others as they were. -/
theorem permits_restrictTools (policy : ToolPolicy) (agent : String) (tools : List String) :
    (policy.restrictTools agent tools).permits agentId name ↔
      policy.permits agentId name ∧ (agent = agentId → name ∈ tools) := by
  unfold permits restrictTools
  by_cases hagent : agent = agentId
  · subst hagent
    cases policy.agentRestrictions agent with
    | none => simp
    | some current => simp [mem_filter]
  · simp [Function.update_of_ne (Ne.symm hagent), hagent]

theorem roleCap_restrictAll (policy : ToolPolicy) (calls : List (String × List String)) (role : AgentRole) :
    (policy.restrictAll calls).roleCap role = policy.roleCap role := by
  induction calls generalizing policy with
  | nil => rfl
  | cons call calls ih =>
    show ((policy.restrictTools call.1 call.2).restrictAll calls).roleCap role = _
    rw [ih, roleCap_restrictTools]

/-- What is left to an agent after calls: what all the calls for it name. -/
theorem permits_restrictAll (policy : ToolPolicy) (calls : List (String × List String)) :
    (policy.restrictAll calls).permits agentId name ↔
      policy.permits agentId name ∧ ∀ call ∈ calls, call.1 = agentId → name ∈ call.2 := by
  induction calls generalizing policy with
  | nil => simp [restrictAll]
  | cons call calls ih =>
    show ((policy.restrictTools call.1 call.2).restrictAll calls).permits agentId name ↔ _
    rw [ih, permits_restrictTools, forall_mem_cons, and_assoc]

theorem permits_ofSettings (settings : ToolGroupSettings) (ontologyFeature : Bool) (optIn : Option Bool) :
    (ofSettings settings ontologyFeature optIn).permits agentId name := by
  intro restriction hsome
  simp at hsome

/-! ### The caps of the roles -/

/-- The cap of a planner is a list of readers, whatever the groups. -/
theorem mem_planReadonlyTools_of_mem_roleCap (h : name ∈ policy.roleCap .plan) : name ∈ planReadonlyTools := by
  have hcap := (mem_filter.1 h).1
  simpa using (mem_filter.1 hcap).2

theorem mem_readonlyTools_of_mem_roleCap_act (h : name ∈ policy.roleCap .act) : name ∈ readonlyTools := by
  have hcap := (mem_filter.1 h).1
  simpa using (mem_filter.1 hcap).2

theorem mem_readonlyTools_of_mem_roleCap_check (h : name ∈ policy.roleCap .check) :
    name ∈ readonlyTools ∨ name = "bash" ∧ policy.checkBashEnabled = true := by
  have hcap := (mem_filter.1 h).1
  rcases mem_append.1 hcap with hbash | hread
  · right
    split_ifs at hbash with henabled
    · exact ⟨mem_singleton.1 hbash, henabled⟩
    · simp at hbash
  · left
    simpa using (mem_filter.1 hread).2

/-- Deletion of knowledge and registration of ontologies are in no cap. -/
theorem ne_of_mem_roleCap (h : name ∈ policy.roleCap role) :
    name ≠ "knowledge_delete" ∧ name ≠ "ontology_register" := by
  simpa using (mem_filter.1 h).2

/-- A result reader is executable by its own rule alone. -/
theorem reader_executable_iff (hreader : hasInternalMicroToolStart name = true) :
    (policy.isExecutable role agentId name = true ∨ policy.isInternalMicroToolExecutable role agentId name = true) ↔
      role ≠ .plan ∧ "file_read" ∈ policy.visibleTools role agentId := by
  have hnot : ¬ policy.isExecutable role agentId name = true := by
    intro hexec
    have := isMicroToolName_of_isExecutable hexec
    rw [isMicroToolName_of_internal hreader] at this
    cases this
  simp [hnot, isInternalMicroToolExecutable, hreader]

end ToolPolicy

/-! ### Every sequence of calls -/

/-- **The policy of a run never escalates**: for all settings and all calls of `restrict_tools`, a further call leaves
every set of visible tools inside what it was, the set of an agent is the cap of its role met with all its
restrictions, and the caps of the roles are bounded. -/
theorem policy_never_escalates (settings : ToolGroupSettings) (ontologyFeature : Bool) (optIn : Option Bool)
    (calls : List (String × List String)) (role : AgentRole) (agentId : String) :
    let built := ToolPolicy.ofSettings settings ontologyFeature optIn
    let policy := built.restrictAll calls
    (∀ agent tools, (policy.restrictTools agent tools).visibleTools role agentId ⊆ policy.visibleTools role agentId) ∧
      (∀ name, name ∈ policy.visibleTools role agentId ↔
        name ∈ built.roleCap role ∧ ∀ call ∈ calls, call.1 = agentId → name ∈ call.2) ∧
      (role = .plan → policy.visibleTools role agentId ⊆ planReadonlyTools) ∧
      (role = .act → policy.visibleTools role agentId ⊆ readonlyTools) ∧
      (role = .check → ∀ name ∈ policy.visibleTools role agentId,
        name ∈ readonlyTools ∨ name = "bash" ∧ optIn.getD settings.checkBashEnabled = true) ∧
      "knowledge_delete" ∉ policy.visibleTools role agentId ∧
      "ontology_register" ∉ policy.visibleTools role agentId ∧
      ∀ name, hasInternalMicroToolStart name = true →
        (policy.isExecutable role agentId name = true ∨ policy.isInternalMicroToolExecutable role agentId name = true) →
        "file_read" ∈ policy.visibleTools role agentId ∧ role ≠ .plan := by
  intro built policy
  have hvisible : ∀ name, name ∈ policy.visibleTools role agentId ↔
      name ∈ built.roleCap role ∧ ∀ call ∈ calls, call.1 = agentId → name ∈ call.2 := by
    intro name
    rw [ToolPolicy.mem_visibleTools, ToolPolicy.roleCap_restrictAll, ToolPolicy.permits_restrictAll]
    simp [built, ToolPolicy.permits_ofSettings]
  have hcap : ∀ name ∈ policy.visibleTools role agentId, name ∈ built.roleCap role :=
    fun name h => ((hvisible name).1 h).1
  refine ⟨?_, hvisible, ?_, ?_, ?_, ?_, ?_, ?_⟩
  · intro agent tools name h
    rw [ToolPolicy.mem_visibleTools, ToolPolicy.roleCap_restrictTools, ToolPolicy.permits_restrictTools] at h
    exact ToolPolicy.mem_visibleTools.2 ⟨h.1, h.2.1⟩
  · rintro rfl name h
    exact ToolPolicy.mem_planReadonlyTools_of_mem_roleCap (hcap name h)
  · rintro rfl name h
    exact ToolPolicy.mem_readonlyTools_of_mem_roleCap_act (hcap name h)
  · rintro rfl name h
    have hname := ToolPolicy.mem_readonlyTools_of_mem_roleCap_check (hcap name h)
    simpa [built] using hname
  · intro h
    exact (ToolPolicy.ne_of_mem_roleCap (hcap _ h)).1 rfl
  · intro h
    exact (ToolPolicy.ne_of_mem_roleCap (hcap _ h)).2 rfl
  · intro name hreader hexec
    exact ((ToolPolicy.reader_executable_iff hreader).1 hexec).symm

end WildAgentOs.Tools
