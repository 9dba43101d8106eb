import WildAgentOs.Lib.IndexedList
import WildAgentOs.Tools.ToolExecutor

/-!
# What is advertised can be called

The executor over its history: registrations of tools and of result readers, stored results, removals of runs, and the
passing of time. The descriptions keep an index of their names, and the oldest description of a micro-tool gives way
to the newest; what was registered last under a name is kept beside the state.

* `ToolExecutor.Describes`: the descriptions are those of the tools registered last;
* `ExecutorRun`, `ExecutorRun.keeps_run`: so they are after every history;
* `ExecutorRun.Advertised`: every advertised name has a handler and passes the policy, and every tool that is to be
  seen is advertised once;
* `ExecutorRun.advertised_iff`: this is so exactly when every reader that is shown has its result.
-/

namespace WildAgentOs.Tools

open Json Core Memory IndexedList List Function Option ToolExecutor

/-! ### The descriptions -/

namespace ToolExecutor

/-- The descriptions are known ones, and all of them but those of micro-tools. -/
structure Describes (exe : ToolExecutor) (known : ToolDescription → Prop) : Prop where
  indexed : Indexed ToolDescription.name exe.toolDescriptions exe.descriptionIndices
  sound : ∀ tool ∈ exe.toolDescriptions, known tool
  complete : ∀ tool, known tool → isMicroToolName tool.name = false → tool ∈ exe.toolDescriptions
  order : ∀ name ∈ exe.microDescriptionOrder, isMicroToolName name = true

variable {exe : ToolExecutor} {known : ToolDescription → Prop} {tool : ToolDescription} {handler : ToolFn}

theorem describes_empty (manager : Option ToolGroupManager) : (empty manager).Describes fun _ => False where
  indexed := .nil
  sound := fun _ h => absurd h not_mem_nil
  complete := fun _ h => absurd h not_false
  order := fun _ h => absurd h not_mem_nil

theorem Describes.retireOldest (h : exe.Describes known) : exe.retireOldest.Describes known := by
  unfold ToolExecutor.retireOldest
  cases horder : exe.microDescriptionOrder with
  | nil => exact h
  | cons oldest order =>
    have hmicro : isMicroToolName oldest = true := h.order oldest (horder ▸ mem_cons_self)
    have horder' : ∀ name ∈ order, isMicroToolName name = true :=
      fun name hname => h.order name (horder ▸ mem_cons_of_mem _ hname)
    simp only
    cases hpos : exe.descriptionIndices oldest with
    | none => exact ⟨h.indexed, h.sound, h.complete, horder'⟩
    | some pos =>
      refine ⟨h.indexed.eraseIdx hpos, fun tool hmem => ?_, fun tool htool hname => ?_, horder'⟩
      · exact h.sound tool (h.indexed.mem_eraseIdx hpos |>.1 hmem).1
      · refine (h.indexed.mem_eraseIdx hpos).2 ⟨h.complete tool htool hname, fun heq => ?_⟩
        rw [heq, hmicro] at hname
        cases hname

/-- A registration takes the place of what was registered under the name. -/
theorem Describes.registerHandler (h : exe.Describes known) :
    (exe.registerHandler tool handler).Describes fun other => other = tool ∨ known other ∧ other.name ≠ tool.name := by
  unfold ToolExecutor.registerHandler
  simp only
  cases hindex : exe.descriptionIndices tool.name with
  | some index =>
    refine ⟨h.indexed.set hindex, fun other hmem => ?_, fun other hother hname => ?_, h.order⟩
    · exact (h.indexed.mem_set hindex |>.1 hmem).imp_right fun hold => ⟨h.sound other hold.1, hold.2⟩
    · exact h.indexed.mem_set hindex |>.2 (hother.imp_right fun hold => ⟨h.complete other hold.1 hname, hold.2⟩)
  | none =>
    have hsound : ∀ other ∈ exe.toolDescriptions ++ [tool], other = tool ∨ known other ∧ other.name ≠ tool.name := by
      intro other hmem
      rcases mem_append.1 hmem with hmem | hmem
      · refine .inr ⟨h.sound other hmem, fun hname => h.indexed.notMem_of_index hindex ?_⟩
        exact hname ▸ List.mem_map_of_mem hmem
      · exact .inl (mem_singleton.1 hmem)
    have hcomplete : ∀ other, (other = tool ∨ known other ∧ other.name ≠ tool.name) →
        isMicroToolName other.name = false → other ∈ exe.toolDescriptions ++ [tool] := by
      rintro other (rfl | ⟨hknown, -⟩) hname
      · exact mem_append_right _ (mem_singleton_self _)
      · exact mem_append_left _ (h.complete other hknown hname)
    simp only
    split_ifs with hmicro hfull
    · refine Describes.retireOldest ⟨h.indexed.append hindex, hsound, hcomplete, fun name hname => ?_⟩
      rcases mem_append.1 hname with hname | hname
      · exact h.order name hname
      · exact mem_singleton.1 hname ▸ hmicro
    · refine ⟨h.indexed.append hindex, hsound, hcomplete, fun name hname => ?_⟩
      rcases mem_append.1 hname with hname | hname
      · exact h.order name hname
      · exact mem_singleton.1 hname ▸ hmicro
    · exact ⟨h.indexed.append hindex, hsound, hcomplete, h.order⟩

theorem tools_retireOldest (exe : ToolExecutor) : exe.retireOldest.tools = exe.tools := by
  unfold retireOldest
  split
  · rfl
  · split <;> rfl

theorem tools_registerHandler :
    (exe.registerHandler tool handler).tools = update exe.tools tool.name (some handler) := by
  unfold registerHandler
  simp only
  split
  · rfl
  · split_ifs
    · exact tools_retireOldest _
    · rfl
    · rfl

/-- The store of the result readers has no part in the descriptions. -/
theorem Describes.microTools (h : exe.Describes known) (store : MicroToolStore) :
    { exe with microTools := store }.Describes known :=
  ⟨h.indexed, h.sound, h.complete, h.order⟩

theorem Describes.register (h : exe.Describes known) :
    (exe.register tool handler).Describes fun other => other = tool ∨ known other ∧ other.name ≠ tool.name :=
  (h.microTools _).registerHandler

theorem tools_register : (exe.register tool handler).tools = update exe.tools tool.name (some handler) :=
  tools_registerHandler

end ToolExecutor

/-! ### Histories -/

/-- What changes an executor. -/
inductive ExecutorOp
  | register (tool : ToolDescription) (handler : ToolFn)
  | registerMicroTool (finders : Finders) (toolName : String) (context : MicroToolContext)
  | storeMicroToolData (finders : Finders) (owner : MicroToolOwner) (storageKey : String) (data : Value)
  | removeRun (runId : String)
  | advance (nanos : ℕ)

/-- The executor, the time, and what was registered last under each name. -/
structure ExecutorRun where
  exe : ToolExecutor
  now : ℕ
  registered : String → Option ToolDescription

namespace ExecutorRun

def start (manager : Option ToolGroupManager) : ExecutorRun := ⟨.empty manager, 0, fun _ => none⟩

def step (cfg : MicroToolConfig) (σ : ExecutorRun) : ExecutorOp → ExecutorRun
  | .register tool handler =>
    { σ with
      exe := σ.exe.register tool handler
      registered := update σ.registered tool.name (some tool) }
  | .registerMicroTool finders toolName context =>
    { σ with exe := σ.exe.registerMicroTool cfg finders σ.now toolName context }
  | .storeMicroToolData finders owner storageKey data =>
    { σ with exe := σ.exe.storeMicroToolData cfg finders σ.now owner storageKey data }
  | .removeRun runId => { σ with exe := σ.exe.removeRun runId }
  | .advance nanos => { σ with now := σ.now + nanos }

def run (cfg : MicroToolConfig) (manager : Option ToolGroupManager) (ops : List ExecutorOp) : ExecutorRun :=
  ops.foldl (step cfg) (start manager)

/-- The descriptions are those of the tools registered last, and these have handlers. -/
structure Keeps (σ : ExecutorRun) : Prop where
  describes : σ.exe.Describes fun tool => σ.registered tool.name = some tool
  handlers : ∀ name tool, σ.registered name = some tool → (σ.exe.tools name).isSome

variable {cfg : MicroToolConfig} {σ : ExecutorRun}

theorem Keeps.step (h : σ.Keeps) (op : ExecutorOp) : (σ.step cfg op).Keeps := by
  cases op with
  | register tool handler =>
    refine ⟨?_, fun name other hother => ?_⟩
    · have hknown : (fun other : ToolDescription => update σ.registered tool.name (some tool) other.name =
          some other) = fun other => other = tool ∨ σ.registered other.name = some other ∧ other.name ≠ tool.name := by
        funext other
        by_cases hname : other.name = tool.name
        · simp only [hname, update_self, some.injEq, ne_eq, not_true_eq_false, and_false, or_false]
          exact propext eq_comm
        · have hne : other ≠ tool := fun heq => hname (heq ▸ rfl)
          simp only [update_of_ne hname, hne, hname, ne_eq, not_false_eq_true, and_true, false_or]
      show (σ.exe.register tool handler).Describes fun other =>
        update σ.registered tool.name (some tool) other.name = some other
      rw [hknown]
      exact h.describes.register
    · show ((σ.exe.register tool handler).tools name).isSome
      rw [tools_register]
      by_cases hname : name = tool.name
      · rw [hname, update_self]
        rfl
      · rw [update_of_ne hname]
        exact h.handlers name other ((update_of_ne hname _ _).symm.trans hother)
  | registerMicroTool | storeMicroToolData | removeRun => exact ⟨h.describes.microTools _, h.handlers⟩
  | advance => exact ⟨h.describes, h.handlers⟩

/-- **After every history the descriptions are those of the tools registered last.** -/
theorem keeps_run (cfg : MicroToolConfig) (manager : Option ToolGroupManager) (ops : List ExecutorOp) :
    (run cfg manager ops).Keeps := by
  induction ops using reverseRecOn with
  | nil =>
    have hknown : (fun tool : ToolDescription => (start manager).registered tool.name = some tool) =
        fun _ => False := funext fun _ => propext ⟨fun h => (nomatch h), False.elim⟩
    refine ⟨?_, fun _ _ h => (nomatch h)⟩
    show (empty manager).Describes fun tool => (start manager).registered tool.name = some tool
    rw [hknown]
    exact describes_empty manager
  | append_singleton ops op ih =>
    rw [run, foldl_concat]
    exact ih.step op

end ExecutorRun

/-! ### Definitions and their names -/

variable {defs : List Value}

namespace ToolExecutor

/-- Parameters that a `type` can be set in. -/
def Typable (parameters : Value) : Prop := parameters = .null ∨ ∃ members, parameters = .object members

theorem typedParameters_isSome {parameters : Value} : (typedParameters parameters).isSome ↔ Typable parameters := by
  unfold typedParameters Typable
  cases parameters with
  | null => simp [Value.get, Value.asObject]
  | object members =>
    simp only [reduceCtorEq, Value.object.injEq, exists_eq', or_true, iff_true]
    split <;> rfl
  | _ => simp [Value.get, Value.asObject]

theorem definitionName_functionValue (name description : String) (parameters : Value) :
    definitionName (functionValue name description parameters) = some name := by
  simp [definitionName, functionValue, Value.get, Value.asObject, Value.asStr, lookup_cons]

variable {tools : List ToolDescription}

/-- The definitions of tools name them in their order. -/
theorem filterMap_definitionName : ∀ {defs : List Value}, tools.mapM definition = some defs →
      defs.filterMap definitionName = tools.map (·.name) ∧ ∀ tool ∈ tools, Typable tool.parameters := by
  induction tools with
  | nil =>
    intro defs h
    cases h
    exact ⟨rfl, fun _ h => absurd h not_mem_nil⟩
  | cons tool tools ih =>
    intro defs h
    rw [mapM_cons, bind_eq_bind, bind_eq_some_iff] at h
    obtain ⟨first, hfirst, h⟩ := h
    rw [bind_eq_bind, bind_eq_some_iff] at h
    obtain ⟨rest, hrest, h⟩ := h
    cases h
    obtain ⟨parameters, hparameters, rfl⟩ := map_eq_some_iff.1 hfirst
    obtain ⟨hnames, htypable⟩ := ih hrest
    refine ⟨?_, fun other hother => ?_⟩
    · rw [filterMap_cons_some (definitionName_functionValue _ _ _), hnames, map_cons]
    · rcases mem_cons.1 hother with rfl | hother
      · exact typedParameters_isSome.1 (hparameters ▸ rfl)
      · exact htypable other hother

theorem exists_definitions (h : ∀ tool ∈ tools, Typable tool.parameters) :
    ∃ defs, tools.mapM definition = some defs := by
  induction tools with
  | nil => exact ⟨[], rfl⟩
  | cons tool tools ih =>
    obtain ⟨parameters, hparameters⟩ := isSome_iff_exists.1 (typedParameters_isSome.2 (h tool mem_cons_self))
    obtain ⟨rest, hrest⟩ := ih fun other hother => h other (mem_cons_of_mem _ hother)
    refine ⟨functionValue tool.name tool.description parameters :: rest, ?_⟩
    have hfirst : definition tool = some (functionValue tool.name tool.description parameters) := by
      rw [definition, hparameters]
      rfl
    rw [mapM_cons, hfirst, hrest]
    rfl

variable {cfg : MicroToolConfig} {now : ℕ} {exe : ToolExecutor} {current owner : Option MicroToolOwner}
  {policy : ToolPolicy} {agentRole : AgentRole} {role agentId name : String} {activated : ActivatedTools}
  {env : ReaderEnv}

/-- A registered name is that of no result reader; the policy alone decides. -/
theorem policyAllows_of_registered (h : (exe.tools name).isSome) :
    exe.policyAllows cfg now owner policy agentRole agentId name = policy.isExecutable agentRole agentId name := by
  obtain ⟨handler, hhandler⟩ := isSome_iff_exists.1 h
  unfold policyAllows isInternalMicroTool
  rw [hhandler]
  simp

theorem tryGetHandler_of_registered (h : (exe.tools name).isSome) :
    (exe.tryGetHandler cfg now owner env name).isSome := by
  obtain ⟨handler, hhandler⟩ := isSome_iff_exists.1 h
  unfold tryGetHandler
  rw [hhandler]
  rfl

/-- The readers of an owner that are shown. -/
def shownReaders (cfg : MicroToolConfig) (now : ℕ) (exe : ToolExecutor) (role agentId : String)
    (activated : ActivatedTools) : Option MicroToolOwner → List (String × MicroToolContext)
  | none => []
  | some owner => (exe.newestReaders cfg now owner).filter fun reader => exe.showsReader role agentId activated reader.1

/-- The names of what is advertised, of the tools and then of the readers. -/
theorem toolDefinitionsForRun_names
    (h : exe.toolDefinitionsForRun cfg now current role agentId activated env owner = some defs) :
    defs.filterMap definitionName =
        (exe.shownResident cfg now current role agentId activated ++
          exe.shownOnDemand cfg now current role agentId activated ++
          exe.shownMicro cfg now current role agentId activated).map (·.name) ++
          (exe.shownReaders cfg now role agentId activated owner).map Prod.fst ∧
      ∀ tool ∈ exe.shownResident cfg now current role agentId activated ++
          exe.shownOnDemand cfg now current role agentId activated ++
          exe.shownMicro cfg now current role agentId activated, Typable tool.parameters := by
  obtain ⟨result, hresult, rfl⟩ := map_eq_some_iff.1 h
  obtain ⟨hnames, htypable⟩ := filterMap_definitionName hresult
  refine ⟨?_, htypable⟩
  cases owner with
  | none =>
    show result.filterMap definitionName = _ ++ []
    rw [hnames, append_nil]
  | some owner =>
    show (result ++ (exe.shownReaders cfg now role agentId activated (some owner)).map _).filterMap definitionName = _
    rw [filterMap_append, hnames, filterMap_map]
    congr 1
    rw [← filterMap_eq_map]
    refine filterMap_congr fun reader _ => ?_
    exact definitionName_functionValue _ _ _

/-- A reader that is shown can be called exactly if its result is there. -/
theorem showsReader_callable {own : MicroToolOwner} (h : exe.showsReader role agentId activated name = true) :
    ((exe.tryGetHandler cfg now (some own) env name).isSome ↔ exe.microTools.hasReader cfg now own name = true) ∧
      (exe.microTools.hasReader cfg now own name = true →
        exe.policyAllows cfg now (some own) activated.policy (agentRoleOf role) agentId name = true) := by
  unfold showsReader at h
  rw [Bool.and_eq_true, Bool.and_eq_true, isNone_iff_eq_none, Bool.or_eq_true] at h
  obtain ⟨⟨htools, hinternal⟩, hpolicy⟩ := h
  have hmicro := isMicroToolName_of_internal hinternal
  constructor
  · unfold tryGetHandler MicroToolStore.hasReader
    rw [htools, if_pos hmicro]
    simp
  · intro hreader
    unfold policyAllows isInternalMicroTool
    rw [htools, hinternal]
    rcases hpolicy with hpolicy | hpolicy
    · rw [hpolicy]
      rfl
    · rw [hpolicy]
      simp [hreader]

end ToolExecutor

/-! ### What a run is shown -/

namespace ExecutorRun

section

variable (cfg : MicroToolConfig) (env : ReaderEnv) (σ : ExecutorRun) (current : Option MicroToolOwner)
  (role agentId : String) (agentRole : AgentRole) (activated : ActivatedTools) (owner : Option MicroToolOwner)

/-- A tool that the role has always, or that the run has activated. -/
def Resident (tool : ToolDescription) : Prop := tool.name ∈ σ.exe.residentTools role activated

def OnDemand (tool : ToolDescription) : Prop := tool.name ∈ (σ.exe.groupsFor role).2 ∧ tool.name ∈ activated.tools

/-- A registered tool that is to be seen. -/
structure Eligible (tool : ToolDescription) : Prop where
  registered : σ.registered tool.name = some tool
  shown : σ.Resident role activated tool ∨ σ.OnDemand role activated tool
  role : ToolExecutor.roleIsAllowed role tool = true
  policy : σ.exe.policyAllows cfg σ.now owner activated.policy agentRole agentId tool.name = true

/-- **What is advertised can be called**: the definitions are there, the names in them have handlers and pass the
policy for the owner, and every tool that is to be seen is there once. -/
def Advertised : Prop :=
  ∃ defs, σ.exe.toolDefinitionsForRun cfg σ.now current role agentId activated env owner = some defs ∧
    (∀ name ∈ defs.filterMap ToolExecutor.definitionName, (σ.exe.tryGetHandler cfg σ.now owner env name).isSome ∧
      σ.exe.policyAllows cfg σ.now owner activated.policy agentRole agentId name = true) ∧
    ∀ tool, σ.Eligible cfg role agentId agentRole activated owner tool →
      (defs.filterMap ToolExecutor.definitionName).count tool.name = 1

/-- The readers that are shown have their results, no tool that is to be seen is both resident and activated, and
the parameters of these tools are objects. -/
structure Servable : Prop where
  readers : ∀ own, owner = some own → ∀ reader ∈ σ.exe.newestReaders cfg σ.now own,
    σ.exe.showsReader role agentId activated reader.1 = true → σ.exe.microTools.hasReader cfg σ.now own reader.1 = true
  once : ∀ tool, σ.Eligible cfg role agentId agentRole activated owner tool →
    ¬(σ.Resident role activated tool ∧ σ.OnDemand role activated tool)
  parameters : ∀ tool, σ.Eligible cfg role agentId agentRole activated owner tool → ToolExecutor.Typable tool.parameters

end

variable {cfg : MicroToolConfig} {env : ReaderEnv} {σ : ExecutorRun} {current : Option MicroToolOwner}
  {role agentId : String} {agentRole : AgentRole} {activated : ActivatedTools} {owner : Option MicroToolOwner}
  {tool : ToolDescription}

/-- What the role and the policy allow of the tools that are registered. -/
def Permitted (role agentId : String) (activated : ActivatedTools) (tool : ToolDescription) : Prop :=
  ToolExecutor.roleIsAllowed role tool = true ∧
    activated.policy.isExecutable (ToolExecutor.agentRoleOf role) agentId tool.name = true

namespace Keeps

variable (h : σ.Keeps)

include h

theorem mem_toolDescriptions (hmicro : isMicroToolName tool.name = false) :
    tool ∈ σ.exe.toolDescriptions ↔ σ.registered tool.name = some tool :=
  ⟨h.describes.sound tool, fun hregistered => h.describes.complete tool hregistered hmicro⟩

theorem isAllowed_iff (hregistered : σ.registered tool.name = some tool) :
    σ.exe.isAllowed cfg σ.now current role agentId activated tool = true ↔ Permitted role agentId activated tool := by
  unfold isAllowed Permitted
  rw [Bool.and_eq_true, policyAllows_of_registered (h.handlers _ _ hregistered)]

theorem mem_shownResident : tool ∈ σ.exe.shownResident cfg σ.now current role agentId activated ↔
      σ.registered tool.name = some tool ∧ σ.Resident role activated tool ∧ Permitted role agentId activated tool := by
  unfold shownResident
  rw [mem_filter, Bool.and_eq_true, Bool.and_eq_true, decide_eq_true_eq, Bool.not_eq_true']
  constructor
  · rintro ⟨hmem, -, hresident, hallowed⟩
    have hregistered := h.describes.sound tool hmem
    exact ⟨hregistered, hresident, (h.isAllowed_iff hregistered).1 hallowed⟩
  · rintro ⟨hregistered, hresident, hpermitted⟩
    have hmicro := ToolPolicy.isMicroToolName_of_isExecutable hpermitted.2
    exact ⟨(h.mem_toolDescriptions hmicro).2 hregistered, hmicro, hresident, (h.isAllowed_iff hregistered).2 hpermitted⟩

theorem mem_shownOnDemand : tool ∈ σ.exe.shownOnDemand cfg σ.now current role agentId activated ↔
      σ.registered tool.name = some tool ∧ σ.OnDemand role activated tool ∧ Permitted role agentId activated tool := by
  unfold shownOnDemand
  rw [mem_filterMap]
  constructor
  · rintro ⟨name, hname, hfind⟩
    split_ifs at hfind with honDemand
    have hmem := h.describes.sound tool (mem_of_find?_eq_some hfind)
    have hfound := find?_some hfind
    simp only [Bool.and_eq_true, decide_eq_true_eq, Bool.not_eq_true'] at hfound
    obtain ⟨rfl, -, hallowed⟩ := hfound
    exact ⟨hmem, ⟨honDemand, hname⟩, (h.isAllowed_iff hmem).1 hallowed⟩
  · rintro ⟨hregistered, ⟨honDemand, hactivated⟩, hpermitted⟩
    have hmicro := ToolPolicy.isMicroToolName_of_isExecutable hpermitted.2
    refine ⟨tool.name, hactivated, ?_⟩
    rw [if_pos honDemand]
    cases hfind : σ.exe.toolDescriptions.find? fun other => decide (other.name = tool.name) &&
        (!isMicroToolName other.name && σ.exe.isAllowed cfg σ.now current role agentId activated other) with
    | none =>
      have hnone := find?_eq_none.1 hfind tool ((h.mem_toolDescriptions hmicro).2 hregistered)
      simp [hmicro, (h.isAllowed_iff hregistered).2 hpermitted] at hnone
    | some other =>
      -- there is one description under the name
      have hmem := h.describes.sound other (mem_of_find?_eq_some hfind)
      have hfound := find?_some hfind
      simp only [Bool.and_eq_true, decide_eq_true_eq] at hfound
      rw [hfound.1, hregistered] at hmem
      rw [some.inj hmem]

/-- No registered micro-tool is shown. -/
theorem shownMicro_eq_nil : σ.exe.shownMicro cfg σ.now current role agentId activated = [] := by
  unfold shownMicro
  rw [filter_eq_nil_iff]
  intro tool hmem hshown
  rw [Bool.and_eq_true, h.isAllowed_iff (h.describes.sound tool hmem)] at hshown
  have hmicro := ToolPolicy.isMicroToolName_of_isExecutable hshown.2.2
  rw [hshown.1] at hmicro
  cases hmicro

theorem nodup_shownResident : ((σ.exe.shownResident cfg σ.now current role agentId activated).map (·.name)).Nodup :=
  h.describes.indexed.nodup.sublist (filter_sublist.map _)

omit h in
/-- What is shown on demand is shown in the order of activation. -/
theorem nodup_shownOnDemand : ((σ.exe.shownOnDemand cfg σ.now current role agentId activated).map (·.name)).Nodup := by
  refine activated.nodup.sublist ?_
  unfold shownOnDemand
  induction activated.tools with
  | nil => exact Sublist.refl _
  | cons name names ih =>
    rw [filterMap_cons]
    split
    · exact ih.cons name
    · next tool hfind =>
      split_ifs at hfind with honDemand
      have hfound := find?_some hfind
      simp only [Bool.and_eq_true, decide_eq_true_eq] at hfound
      rw [map_cons, hfound.1]
      exact ih.cons_cons name

omit h in
/-- The names of tools that are shown, where each is the one that is registered. -/
theorem mem_map_name {shown : List ToolDescription} {P : ToolDescription → Prop}
    (hshown : ∀ other, other ∈ shown ↔ σ.registered other.name = some other ∧ P other)
    (hregistered : σ.registered tool.name = some tool) : tool.name ∈ shown.map (·.name) ↔ P tool := by
  rw [List.mem_map]
  constructor
  · rintro ⟨other, hmem, hname⟩
    obtain ⟨hother, hP⟩ := (hshown other).1 hmem
    rw [hname, hregistered] at hother
    cases some.inj hother
    exact hP
  · exact fun hP => ⟨tool, (hshown tool).2 ⟨hregistered, hP⟩, rfl⟩

/-- The name of a registered tool is that of no reader that is shown. -/
theorem notMem_shownReaders (hregistered : σ.registered tool.name = some tool) :
    tool.name ∉ (σ.exe.shownReaders cfg σ.now role agentId activated owner).map Prod.fst := by
  intro hmem
  obtain ⟨reader, hreader, hname⟩ := List.mem_map.1 hmem
  cases owner with
  | none => exact absurd hreader not_mem_nil
  | some own =>
    have hshows := (mem_filter.1 hreader).2
    unfold showsReader at hshows
    rw [Bool.and_eq_true, Bool.and_eq_true, isNone_iff_eq_none] at hshows
    have hhandler := h.handlers _ _ hregistered
    rw [← hname, hshows.1.1] at hhandler
    cases hhandler

variable (hrole : parseAgentRole role = some agentRole)

include hrole

theorem eligible_iff : σ.Eligible cfg role agentId agentRole activated owner tool ↔ σ.registered tool.name = some tool ∧
      (σ.Resident role activated tool ∨ σ.OnDemand role activated tool) ∧ Permitted role agentId activated tool := by
  have hroleOf : agentRoleOf role = agentRole := by rw [agentRoleOf, hrole, getD_some]
  unfold Permitted
  rw [hroleOf]
  constructor
  · rintro ⟨hregistered, hshown, hallowed, hpolicy⟩
    rw [policyAllows_of_registered (h.handlers _ _ hregistered)] at hpolicy
    exact ⟨hregistered, hshown, hallowed, hpolicy⟩
  · rintro ⟨hregistered, hshown, hallowed, hpolicy⟩
    refine ⟨hregistered, hshown, hallowed, ?_⟩
    rw [policyAllows_of_registered (h.handlers _ _ hregistered)]
    exact hpolicy

theorem eligible_of_mem_turn (hmem : tool ∈ σ.exe.shownResident cfg σ.now current role agentId activated ++
      σ.exe.shownOnDemand cfg σ.now current role agentId activated ++
      σ.exe.shownMicro cfg σ.now current role agentId activated) :
    σ.Eligible cfg role agentId agentRole activated owner tool := by
  rw [h.shownMicro_eq_nil, append_nil, mem_append] at hmem
  rw [h.eligible_iff hrole]
  rcases hmem with hmem | hmem
  · obtain ⟨hregistered, hresident, hpermitted⟩ := h.mem_shownResident.1 hmem
    exact ⟨hregistered, .inl hresident, hpermitted⟩
  · obtain ⟨hregistered, honDemand, hpermitted⟩ := h.mem_shownOnDemand.1 hmem
    exact ⟨hregistered, .inr honDemand, hpermitted⟩

theorem mem_turn_of_eligible (heligible : σ.Eligible cfg role agentId agentRole activated owner tool) :
    tool ∈ σ.exe.shownResident cfg σ.now current role agentId activated ++
      σ.exe.shownOnDemand cfg σ.now current role agentId activated ++
      σ.exe.shownMicro cfg σ.now current role agentId activated := by
  obtain ⟨hregistered, hshown, hpermitted⟩ := (h.eligible_iff hrole).1 heligible
  rw [mem_append, mem_append]
  rcases hshown with hresident | honDemand
  · exact .inl (.inl (h.mem_shownResident.2 ⟨hregistered, hresident, hpermitted⟩))
  · exact .inl (.inr (h.mem_shownOnDemand.2 ⟨hregistered, honDemand, hpermitted⟩))

/-- How often a tool that is to be seen is advertised. -/
theorem count_names (hdefs : σ.exe.toolDefinitionsForRun cfg σ.now current role agentId activated env owner = some defs)
    (heligible : σ.Eligible cfg role agentId agentRole activated owner tool) :
    (defs.filterMap definitionName).count tool.name = 1 ↔
      ¬(σ.Resident role activated tool ∧ σ.OnDemand role activated tool) := by
  obtain ⟨hregistered, hshown, hpermitted⟩ := (h.eligible_iff hrole).1 heligible
  rw [(toolDefinitionsForRun_names hdefs).1, h.shownMicro_eq_nil, append_nil, map_append,
    count_append, count_append, count_eq_zero_of_not_mem (h.notMem_shownReaders hregistered),
    h.nodup_shownResident.count, nodup_shownOnDemand.count]
  have hresident := mem_map_name (fun other => @mem_shownResident cfg σ current role agentId activated other h) hregistered
  have honDemand := mem_map_name (fun other => @mem_shownOnDemand cfg σ current role agentId activated other h) hregistered
  simp only [hpermitted, and_true] at hresident honDemand
  by_cases hleft : σ.Resident role activated tool <;> by_cases hright : σ.OnDemand role activated tool
  · rw [if_pos (hresident.2 hleft), if_pos (honDemand.2 hright)]
    simp [hleft, hright]
  · rw [if_pos (hresident.2 hleft), if_neg (fun hmem => hright (honDemand.1 hmem))]
    simp [hright]
  · rw [if_neg (fun hmem => hleft (hresident.1 hmem)), if_pos (honDemand.2 hright)]
    simp [hleft]
  · exact absurd hshown (not_or.2 ⟨hleft, hright⟩)

end Keeps

/-! ### The result -/

/-- A reader that is shown and advertised well has its result. -/
theorem Advertised.hasReader {own : MicroToolOwner} {reader : String × MicroToolContext}
    (h : σ.Advertised cfg env current role agentId agentRole activated (some own))
    (hreader : reader ∈ σ.exe.newestReaders cfg σ.now own)
    (hshows : σ.exe.showsReader role agentId activated reader.1 = true) :
    σ.exe.microTools.hasReader cfg σ.now own reader.1 = true := by
  obtain ⟨defs, hdefs, hcallable, -⟩ := h
  have hname : reader.1 ∈ defs.filterMap definitionName := by
    rw [(toolDefinitionsForRun_names hdefs).1]
    exact mem_append_right _ (List.mem_map_of_mem (mem_filter.2 ⟨hreader, hshows⟩))
  exact (showsReader_callable hshows).1.1 (hcallable reader.1 hname).1

/-- **What is advertised can be called**, after every history, exactly when the readers that are shown have their
results, no tool that is to be seen is both resident and activated, and the parameters of these tools are objects. -/
theorem advertised_iff (cfg : MicroToolConfig) (env : ReaderEnv) (manager : Option ToolGroupManager)
    (ops : List ExecutorOp) (current owner : Option MicroToolOwner) (role agentId : String) (agentRole : AgentRole)
    (activated : ActivatedTools) (hrole : parseAgentRole role = some agentRole) :
    (run cfg manager ops).Advertised cfg env current role agentId agentRole activated owner ↔
      (run cfg manager ops).Servable cfg role agentId agentRole activated owner := by
  have h := keeps_run cfg manager ops
  generalize run cfg manager ops = σ at h
  constructor
  · intro hadvertised
    refine ⟨?_, ?_, ?_⟩
    · rintro own rfl reader hreader hshows
      exact hadvertised.hasReader hreader hshows
    · obtain ⟨defs, hdefs, -, honce⟩ := hadvertised
      exact fun tool heligible => (h.count_names hrole hdefs heligible).1 (honce tool heligible)
    · obtain ⟨defs, hdefs, -, -⟩ := hadvertised
      exact fun tool heligible =>
        (ToolExecutor.toolDefinitionsForRun_names hdefs).2 tool (h.mem_turn_of_eligible hrole heligible)
  · rintro ⟨hreaders, honce, hparameters⟩
    obtain ⟨result, hresult⟩ := ToolExecutor.exists_definitions fun tool hmem =>
      hparameters tool (@Keeps.eligible_of_mem_turn cfg σ current role agentId agentRole activated owner tool h hrole hmem)
    have hroleOf : ToolExecutor.agentRoleOf role = agentRole := by
      rw [ToolExecutor.agentRoleOf, hrole, getD_some]
    obtain ⟨defs, hdefs⟩ : ∃ defs,
        σ.exe.toolDefinitionsForRun cfg σ.now current role agentId activated env owner = some defs := by
      unfold ToolExecutor.toolDefinitionsForRun ToolExecutor.toolDefinitionsForTurnWithPolicy
      rw [hresult]
      exact ⟨_, rfl⟩
    refine ⟨defs, hdefs, fun name hname => ?_, fun tool heligible => ?_⟩
    · rw [(ToolExecutor.toolDefinitionsForRun_names hdefs).1] at hname
      rcases mem_append.1 hname with hname | hname
      · obtain ⟨tool, hmem, rfl⟩ := List.mem_map.1 hname
        have heligible := @Keeps.eligible_of_mem_turn cfg σ current role agentId agentRole activated owner tool h hrole
          hmem
        exact ⟨ToolExecutor.tryGetHandler_of_registered (h.handlers _ _ heligible.registered), heligible.policy⟩
      · obtain ⟨reader, hreader, rfl⟩ := List.mem_map.1 hname
        cases owner with
        | none => exact absurd hreader not_mem_nil
        | some own =>
          obtain ⟨hnewest, hshows⟩ := mem_filter.1 hreader
          have hstored := hreaders own rfl reader hnewest hshows
          obtain ⟨hhandler, hpolicy⟩ := @ToolExecutor.showsReader_callable cfg σ.now σ.exe role agentId reader.1
            activated env own hshows
          rw [hroleOf] at hpolicy
          exact ⟨hhandler.2 hstored, hpolicy hstored⟩
    · exact (h.count_names hrole hdefs heligible).2 (honce tool heligible)

/-! A reader that is registered without its result. -/

def sampleOwner : MicroToolOwner := ⟨"", "", "run", "agent"⟩

def sampleContext : MicroToolContext := ⟨"1", sampleOwner.storageKey "1", "web_search", [], 0, sampleOwner⟩

/-- A run without activated tools, under the default policy. -/
def sampleActivated : ActivatedTools := ⟨[], 5, 20, 0, .default true, nodup_nil⟩

def sampleReaderEnv : ReaderEnv := ⟨fun _ => "", fun _ _ _ _ => .null⟩

/-- A result reader is registered, and no result is stored. -/
def sampleHistory : List ExecutorOp := [.registerMicroTool ⟨.first, .first⟩ "query_1" sampleContext]

theorem advertised_iff_sampleHistory :
    (run ⟨none, none⟩ none sampleHistory).Advertised ⟨none, none⟩ sampleReaderEnv (some sampleOwner) "Do" "agent" .doing
        sampleActivated (some sampleOwner) ↔
      (run ⟨none, none⟩ none sampleHistory).Servable ⟨none, none⟩ "Do" "agent" .doing sampleActivated
        (some sampleOwner) :=
  advertised_iff ⟨none, none⟩ sampleReaderEnv none sampleHistory (some sampleOwner) (some sampleOwner) "Do" "agent"
    .doing sampleActivated (by decide +kernel)

/-- The reader is advertised, and has no handler. -/
theorem not_advertised_sampleHistory :
    ¬(run ⟨none, none⟩ none sampleHistory).Advertised ⟨none, none⟩ sampleReaderEnv (some sampleOwner) "Do" "agent"
      .doing sampleActivated (some sampleOwner) := by
  intro hadvertised
  have hreaders : (run ⟨none, none⟩ none sampleHistory).exe.microTools.readers =
      [⟨"query_1", sampleContext, 1, 0⟩] := by decide +kernel
  have hnewest : ("query_1", sampleContext) ∈
      (run ⟨none, none⟩ none sampleHistory).exe.newestReaders ⟨none, none⟩ 0 sampleOwner := by
    unfold ToolExecutor.newestReaders MicroToolStore.readersFor
    rw [hreaders]
    have howner : sampleContext.owner = sampleOwner := rfl
    have hpos := MicroToolConfig.ttl_pos ⟨none, none⟩
    simp [howner, hpos, maxMicroToolDescriptions]
  have hshows : (run ⟨none, none⟩ none sampleHistory).exe.showsReader "Do" "agent" sampleActivated "query_1" = true := by
    have hread : "file_read" ∈ sampleActivated.policy.visibleTools .doing "agent" := by
      unfold ToolPolicy.visibleTools
      rw [mem_mergeSort, mem_dedup]
      decide +kernel
    have hrole : ToolExecutor.agentRoleOf "Do" = .doing := by decide +kernel
    have hstart : hasInternalMicroToolStart "query_1" = true := by decide +kernel
    have htools : (run ⟨none, none⟩ none sampleHistory).exe.tools "query_1" = none := rfl
    unfold ToolExecutor.showsReader ToolPolicy.isInternalMicroToolExecutable
    rw [htools, hrole, hstart]
    simp [hread]
  have hstored := hadvertised.hasReader hnewest hshows
  revert hstored
  decide +kernel

end ExecutorRun

end WildAgentOs.Tools
