import WildAgentOs.Memory.Scheduler

/-!
# No dirty node is dropped

`on_task_complete`, `on_run_end` and `gc_completed_tasks` are under way at the same time as writes: each is
taken apart into the steps between which other calls may come, down to the single nodes of its loops.  What
the L0 stores have taken is recorded.

* `Call`, `System`, `System.step`, `LosesNone`;
* `Action.Apart`: what keeps calls out of each other's way;
* `losesNone_of_run`.
-/

namespace WildAgentOs.Memory.Blackboard

open Json List Function Option

/-! ### Calls under way -/

/-- A call under way, with what is left of its loops.  The sync and the archive of a completion are one step, for
neither reads or writes another node; `evict_subtree` comes one task after the other. -/
inductive Call
  /-- `on_task_complete`, in `flush_nodes`. -/
  | flushing (handle : ℕ) (taskIri : String) (iris : List String)
  /-- Before `on_l2_write_for`. -/
  | marking (taskIri : String)
  | archiving (taskIri : String)
  /-- Before the walk of `evict_subtree`, in a completion or in `gc_completed_tasks`. -/
  | evicting (rest : List String)
  | evictingNodes (rest : List String) (taskIri : String) (tasks iris : List String)
  /-- `on_run_end`, in `flush_nodes`. -/
  | runEndFlushing (handle : ℕ) (taskIri : String) (iris : List String)
  /-- Before the walk of `release_subtree`. -/
  | releasing (failed : Bool) (taskIri : String)
  | releasingNodes (failed : Bool) (tasks iris : List String)

structure System where
  l2 : Blackboard
  l0 : ℕ → L0Store
  /-- The contents that L0 stores have taken. -/
  saved : List (String × String)
  calls : ℕ → Option Call

namespace System

variable (env : BlackboardEnv) (l0env : L0Env)

/-- One node of `flush_nodes`. -/
def flush (sys : System) (handle : ℕ) (now : ℤ) (iri : String) : System × Bool :=
  match sys.l2.nodeCache.lookup iri with
  | none => (sys, true)
  | some node =>
    match sys.l2.flushNodes l0env now (sys.l0 handle) [iri] with
    | (_, .error _) => (sys, false)
    | ((l2, l0), .ok ()) => ({ sys with
        l2
        l0 := update sys.l0 handle l0
        saved := (iri, node.jsonLd) :: sys.saved }, true)

/-- The next step of a call, and what is left of it. -/
def advance (sys : System) (now : ℤ) (fuel : ℕ) (order : List ℕ) : Call → Option (System × Option Call)
  | .flushing _ taskIri [] => some (sys, some (.marking taskIri))
  | .flushing handle taskIri (iri :: iris) =>
    match sys.flush l0env handle now iri with
    | (sys, true) => some (sys, some (.flushing handle taskIri iris))
    | (sys, false) => some (sys, none)
  | .marking taskIri => some ({ sys with l2 := sys.l2.markDirty taskIri }, some (.archiving taskIri))
  | .archiving taskIri =>
    match (sys.l2.flushOxigraph env order).archiveCompletedTask env now taskIri with
    | (l2, .ok _) => some ({ sys with l2 }, some (.evicting [taskIri]))
    | (l2, .error _) => some ({ sys with l2 }, none)
  | .evicting [] => some (sys, none)
  | .evicting (taskIri :: rest) => do
    let tasks ← sys.l2.tasksToRelease fuel taskIri
    return (sys, some (.evictingNodes rest taskIri tasks (tasks.flatMap sys.l2.nodesOf)))
  | .evictingNodes rest taskIri tasks [] =>
    some ({ sys with l2 := { sys.l2 with
      taskTree := tasks.foldl (fun tree task => tree.erase task) sys.l2.taskTree
      taskNodes := sys.l2.taskNodes.erase taskIri } }, some (.evicting rest))
  | .evictingNodes rest taskIri tasks (iri :: iris) =>
    some ({ sys with l2 := sys.l2.evictNode env iri }, some (.evictingNodes rest taskIri tasks iris))
  | .runEndFlushing _ taskIri [] => some (sys, some (.releasing false taskIri))
  | .runEndFlushing handle taskIri (iri :: iris) =>
    match sys.flush l0env handle now iri with
    | (sys, true) => some (sys, some (.runEndFlushing handle taskIri iris))
    | (sys, false) => some (sys, some (.releasing true taskIri))
  | .releasing failed taskIri => do
    let tasks ← sys.l2.tasksToRelease fuel taskIri
    return (sys, some (.releasingNodes failed tasks (tasks.flatMap sys.l2.nodesOf)))
  | .releasingNodes _ tasks [] =>
    some ({ sys with l2 := { sys.l2 with
      taskTree := tasks.foldl (fun tree task => tree.erase task) sys.l2.taskTree } }, none)
  | .releasingNodes failed tasks (iri :: iris) =>
    some ({ sys with l2 := sys.l2.deleteNode env iri }, some (.releasingNodes failed tasks iris))

end System

/-- A call that is made, or the next step of one that is under way.  A call that takes more than one step is
given a number. -/
inductive Action
  | writeNode (now : ℤ) (nodeIri jsonLd : String)
  | writeNodeToGraph (now : ℤ) (nodeIri jsonLd graphName : String)
  | writeNodesBatch (now : ℤ) (nodes : List (String × String))
  | writeBatchToGraphs (now : ℤ) (nodes : List (String × String × String))
  | registerTask (taskIri : String) (parent : Option String)
  | completeTask (taskIri status : String)
  | markDirty (nodeIri : String)
  | flushNode (handle : ℕ) (now : ℤ) (nodeIri : String)
  | onTaskComplete (id handle : ℕ) (taskIri : String)
  | onRunEnd (id handle : ℕ) (taskIri : String)
  | gcCompletedTasks (id : ℕ)
  | advance (id : ℕ) (now : ℤ) (fuel : ℕ) (order : List ℕ)

namespace System

variable (env : BlackboardEnv) (l0env : L0Env)

/-- A call gets under way. -/
def start (sys : System) (id : ℕ) (call : Call) : Option System :=
  match sys.calls id with
  | none => some { sys with calls := update sys.calls id (some call) }
  | some _ => none

def step (sys : System) : Action → Option System
  | .writeNode now nodeIri jsonLd => some { sys with l2 := (sys.l2.writeNode env now nodeIri jsonLd).1 }
  | .writeNodeToGraph now nodeIri jsonLd graphName =>
    some { sys with l2 := (sys.l2.writeNodeToGraph env now nodeIri jsonLd graphName).1 }
  | .writeNodesBatch now nodes => some { sys with l2 := (sys.l2.writeNodesBatch env now nodes).1 }
  | .writeBatchToGraphs now nodes => some { sys with l2 := (sys.l2.writeBatchToGraphs env now nodes).1 }
  | .registerTask taskIri parent => some { sys with l2 := sys.l2.registerTask taskIri parent }
  | .completeTask taskIri status => some { sys with l2 := sys.l2.completeTask taskIri status }
  | .markDirty nodeIri => some { sys with l2 := sys.l2.markDirty nodeIri }
  | .flushNode handle now nodeIri =>
    if ((sys.l2.nodeCache.lookup nodeIri).map Node.dirty).getD false then
      some (sys.flush l0env handle now nodeIri).1
    else some sys
  | .onTaskComplete id handle taskIri =>
    -- `reject_closed_task`
    if sys.l2.taskRecordIsClosed env taskIri then some sys
    else sys.start id (.flushing handle taskIri (sys.l2.dirtyIris (sys.l2.subtreeNodeIris taskIri)))
  | .onRunEnd id handle taskIri =>
    sys.start id (.runEndFlushing handle taskIri (sys.l2.dirtyIris (sys.l2.subtreeNodeIris taskIri)))
  | .gcCompletedTasks id => sys.start id (.evicting sys.l2.completedTasks)
  | .advance id now fuel order => do
    let call ← sys.calls id
    let (sys', call') ← sys.advance env l0env now fuel order call
    return { sys' with calls := update sys.calls id call' }

/-- The call of a step returns an error in the end. -/
def Fails (sys : System) : Action → Prop
  | .advance id _ _ _ => ∃ tasks iris, sys.calls id = some (.releasingNodes true tasks iris)
  | _ => False

/-- **A dirty node that is dropped was stored**, or the call that drops it returns an error. -/
def LosesNone (sys : System) (action : Action) (sys' : System) : Prop :=
  ∀ iri node, sys.l2.nodeCache.lookup iri = some node → node.dirty = true →
    sys'.l2.nodeCache.lookup iri = none → (iri, node.jsonLd) ∈ sys.saved ∨ sys.Fails action

end System

/-! ### Calls apart from each other -/

/-- The tasks from which a call drops nodes. -/
def Call.roots : Call → List String
  | .flushing _ taskIri _ | .marking taskIri | .archiving taskIri => [taskIri]
  | .evicting rest => rest
  | .evictingNodes rest _ tasks _ => tasks ++ rest
  | .runEndFlushing _ taskIri _ | .releasing _ taskIri => [taskIri]
  | .releasingNodes _ tasks _ => tasks

/-- The tasks below them. -/
def Call.Reach (call : Call) (s : Blackboard) (task : String) : Prop :=
  ∃ root ∈ call.roots, Worklist.Reaches s.childrenOf root task

namespace System

/-- A call under way drops the nodes of a task. -/
def Busy (sys : System) (task : String) : Prop := ∃ id call, sys.calls id = some call ∧ call.Reach sys.l2 task

/-- No call under way drops the node. -/
def Idle (sys : System) (iri : String) : Prop := ∀ task, extractTaskIri iri = some task → ¬sys.Busy task

/-- A node that may be dropped. -/
def Safe (sys : System) (iri : String) (node : Node) : Prop := node.dirty = false ∨ (iri, node.jsonLd) ∈ sys.saved

/-- What keeps calls out of each other's way: nothing is written, marked or registered below a task that a
call is about to drop; calls under way drop nodes of different tasks; automatic collection finds no dirty node
that was not stored; and the document of a task that is completed can be archived, or is stored by then. -/
def Apart (env : BlackboardEnv) (sys : System) : Action → Prop
  | .writeNode _ nodeIri _ | .writeNodeToGraph _ nodeIri _ _ | .markDirty nodeIri => sys.Idle nodeIri
  | .writeNodesBatch _ nodes => ∀ iri ∈ nodes.map Prod.fst, sys.Idle iri
  | .writeBatchToGraphs _ nodes => ∀ iri ∈ nodes.map Prod.fst, sys.Idle iri
  | .registerTask _ parent => ∀ task, parent = some task → ¬sys.Busy task
  | .completeTask _ _ | .flushNode _ _ _ | .advance _ _ _ _ => True
  | .onTaskComplete _ _ taskIri => extractTaskIri taskIri = some taskIri ∧
      (∀ task, Worklist.Reaches sys.l2.childrenOf taskIri task → ¬sys.Busy task) ∧
      ∀ node, sys.l2.nodeCache.lookup taskIri = some node →
        IsTaskRecord env node ∨ node.dirty = true ∨ (taskIri, node.jsonLd) ∈ sys.saved
  | .onRunEnd _ _ taskIri => ∀ task, Worklist.Reaches sys.l2.childrenOf taskIri task → ¬sys.Busy task
  | .gcCompletedTasks _ => ∀ task ∈ sys.l2.completedTasks, ¬sys.Busy task ∧
      ∀ iri node, extractTaskIri iri = some task → sys.l2.nodeCache.lookup iri = some node → sys.Safe iri node

end System

variable {env : BlackboardEnv} {l0env : L0Env} {sys sys' : System}

/-! ### What a call has to find -/

/-- The task that is completed is stored or can be archived; its other nodes are stored or clean. -/
def Settled (env : BlackboardEnv) (sys : System) (taskIri iri : String) (node : Node) : Prop :=
  (iri, node.jsonLd) ∈ sys.saved ∨ iri = taskIri ∧ IsTaskRecord env node ∨ iri ≠ taskIri ∧ node.dirty = false

/-- What holds of a node of the tasks from which a call drops nodes. -/
def Call.Finds (env : BlackboardEnv) (sys : System) (iri : String) (node : Node) : Call → Prop
  | .flushing _ taskIri iris => iri ∈ iris ∨ Settled env sys taskIri iri node
  | .marking taskIri | .archiving taskIri => Settled env sys taskIri iri node
  | .evicting _ | .evictingNodes _ _ _ _ => sys.Safe iri node
  | .runEndFlushing _ _ iris => iri ∈ iris ∨ sys.Safe iri node
  | .releasing failed _ | .releasingNodes failed _ _ => failed = true ∨ sys.Safe iri node

/-- The task that a call marks and archives. -/
def Call.completes : Call → Option String
  | .flushing _ taskIri _ | .marking taskIri | .archiving taskIri => some taskIri
  | _ => none

/-- The nodes that a call is about to drop. -/
def Call.dropping : Call → List String
  | .evictingNodes _ _ _ iris | .releasingNodes _ _ iris => iris
  | _ => []

/-- The tasks that a call is about to take out of the tree. -/
def Call.erasing : Call → List String
  | .evictingNodes _ _ tasks _ | .releasingNodes _ tasks _ => tasks
  | _ => []

variable {call : Call} {task : String}

theorem Call.mem_roots_of_mem_erasing (h : task ∈ call.erasing) : task ∈ call.roots := by
  cases call with
  | evictingNodes rest taskIri tasks iris => exact mem_append_left rest h
  | releasingNodes failed tasks iris => exact h
  | _ => cases h

variable {iri : String} {node : Node}

theorem Call.Finds.of_saved (h : (iri, node.jsonLd) ∈ sys.saved) : call.Finds env sys iri node := by
  cases call with
  | flushing handle taskIri iris => exact .inr (.inl h)
  | marking taskIri => exact .inl h
  | archiving taskIri => exact .inl h
  | evicting rest => exact .inr h
  | evictingNodes rest taskIri tasks iris => exact .inr h
  | runEndFlushing handle taskIri iris => exact .inr (.inr h)
  | releasing failed taskIri => exact .inr (.inr h)
  | releasingNodes failed tasks iris => exact .inr (.inr h)

variable {taskIri : String}

theorem Settled.mono (hsaved : sys.saved ⊆ sys'.saved) (h : Settled env sys taskIri iri node) :
    Settled env sys' taskIri iri node := h.imp_left (@hsaved _)

theorem System.Safe.mono (hsaved : sys.saved ⊆ sys'.saved) (h : sys.Safe iri node) :
    sys'.Safe iri node := h.imp_right (@hsaved _)

theorem Call.Finds.mono (hsaved : sys.saved ⊆ sys'.saved) (h : call.Finds env sys iri node) :
    call.Finds env sys' iri node := by
  cases call with
  | flushing handle taskIri iris => exact h.imp_right (.mono hsaved)
  | marking taskIri => exact Settled.mono hsaved h
  | archiving taskIri => exact Settled.mono hsaved h
  | evicting rest => exact System.Safe.mono hsaved h
  | evictingNodes rest taskIri tasks iris => exact System.Safe.mono hsaved h
  | runEndFlushing handle taskIri iris => exact h.imp_right (.mono hsaved)
  | releasing failed taskIri => exact h.imp_right (.mono hsaved)
  | releasingNodes failed tasks iris => exact h.imp_right (.mono hsaved)

/-- A call finds what it has to. -/
structure Call.Ready (env : BlackboardEnv) (sys : System) (call : Call) : Prop where
  finds : ∀ task, call.Reach sys.l2 task → ∀ iri node, extractTaskIri iri = some task →
    sys.l2.nodeCache.lookup iri = some node → call.Finds env sys iri node
  listed : ∀ iri ∈ call.dropping, ∃ task ∈ call.roots, extractTaskIri iri = some task
  remains : ∀ task ∈ call.erasing, ∀ iri, extractTaskIri iri = some task →
    sys.l2.nodeCache.lookup iri ≠ none → iri ∈ call.dropping
  own : ∀ taskIri, call.completes = some taskIri → extractTaskIri taskIri = some taskIri

/-- The calls find what they have to, and no two of them drop nodes of one task. -/
structure Invariant (env : BlackboardEnv) (sys : System) : Prop where
  tracks : ∃ links, Tracks links True sys.l2
  indexed : ∀ handle, (sys.l0 handle).Indexed
  ready : ∀ id call, sys.calls id = some call → call.Ready env sys
  separate : ∀ id id' call call', sys.calls id = some call → sys.calls id' = some call' → id ≠ id' →
    ∀ task, call.Reach sys.l2 task → ¬call'.Reach sys.l2 task

theorem Call.Reach.of_subset {s s' : Blackboard}
    (hsub : ∀ task, call.Reach s task → ∀ child ∈ s'.childrenOf task, child ∈ s.childrenOf task)
    (h : call.Reach s' task) : call.Reach s task := by
  obtain ⟨root, hroot, hreaches⟩ := h
  exact ⟨root, hroot, hreaches.of_subset fun task hreaches => hsub task ⟨root, hroot, hreaches⟩⟩

/-- The nodes of a task are left as they are, dropped or stored. -/
def Leaves (sys sys' : System) (task : String) : Prop :=
  ∀ iri node', extractTaskIri iri = some task → sys'.l2.nodeCache.lookup iri = some node' →
    ∃ node, sys.l2.nodeCache.lookup iri = some node ∧ (node' = node ∨ (iri, node'.jsonLd) ∈ sys'.saved)

/-- A call that has not walked down the tree yet. -/
theorem Call.Ready.of_finds (hdropping : call.dropping = []) (herasing : call.erasing = [])
    (hfinds : ∀ task, call.Reach sys.l2 task → ∀ iri node, extractTaskIri iri = some task →
      sys.l2.nodeCache.lookup iri = some node → call.Finds env sys iri node)
    (hown : ∀ taskIri, call.completes = some taskIri → extractTaskIri taskIri = some taskIri) :
    call.Ready env sys where
  finds := hfinds
  listed iri hin := by
    rw [hdropping] at hin
    cases hin
  remains task hin := by
    rw [herasing] at hin
    cases hin
  own := hown

/-- What leaves the nodes of a call alone, drops or stores them. -/
theorem Call.Ready.frame (h : call.Ready env sys) (hsub : ∀ task, call.Reach sys.l2 task →
      ∀ child ∈ sys'.l2.childrenOf task, child ∈ sys.l2.childrenOf task) (hsaved : sys.saved ⊆ sys'.saved)
    (hleaves : ∀ task, call.Reach sys.l2 task → Leaves sys sys' task) : call.Ready env sys' where
  finds task hreach iri node' hkey hnode' := by
    have hreach' : call.Reach sys.l2 task := hreach.of_subset hsub
    obtain ⟨node, hnode, rfl | hstored⟩ := hleaves task hreach' iri node' hkey hnode'
    · exact (h.finds task hreach' iri node' hkey hnode).mono hsaved
    · exact .of_saved hstored
  listed := h.listed
  remains task htask iri hkey hcached := by
    obtain ⟨node', hnode'⟩ := ne_none_iff_exists'.1 hcached
    obtain ⟨node, hnode, -⟩ := hleaves task ⟨task, call.mem_roots_of_mem_erasing htask, .refl⟩ iri node' hkey
      hnode'
    exact h.remains task htask iri hkey (hnode ▸ some_ne_none node)
  own := h.own

/-- A step that starts and ends no call. -/
theorem Invariant.frame (h : Invariant env sys) (hcalls : sys'.calls = sys.calls)
    (htracks : ∃ links, Tracks links True sys'.l2) (hindexed : ∀ handle, (sys'.l0 handle).Indexed)
    (hsub : ∀ task, sys.Busy task → ∀ child ∈ sys'.l2.childrenOf task, child ∈ sys.l2.childrenOf task)
    (hsaved : sys.saved ⊆ sys'.saved)
    (hleaves : ∀ task, sys.Busy task → Leaves sys sys' task) : Invariant env sys' := by
  have hbusy : ∀ {id call task}, sys.calls id = some call → call.Reach sys.l2 task → sys.Busy task :=
    fun hcall hreach => ⟨_, _, hcall, hreach⟩
  refine ⟨htracks, hindexed, fun id call hcall => ?_, fun id id' call call' hcall hcall' hne task hreach => ?_⟩
  · rw [hcalls] at hcall
    exact (h.ready id call hcall).frame (fun task hreach => hsub task (hbusy hcall hreach)) hsaved
      fun task hreach => hleaves task (hbusy hcall hreach)
  · rw [hcalls] at hcall hcall'
    have hold := h.separate id id' call call' hcall hcall' hne task
      (hreach.of_subset fun task hreach => hsub task (hbusy hcall hreach))
    exact fun hreach' => hold (hreach'.of_subset fun task hreach => hsub task (hbusy hcall' hreach))

/-- The calls themselves do not matter to what a call finds. -/
theorem Call.Ready.with_calls (h : call.Ready env sys) (calls : ℕ → Option Call) :
    call.Ready env { sys with calls } := ⟨h.finds, h.listed, h.remains, h.own⟩

/-- A step of a call: it goes on from fewer tasks, or ends. -/
theorem Invariant.advance (h : Invariant env sys) {id : ℕ} {call : Call} {call' : Option Call}
    (hcall : sys.calls id = some call) (htracks : ∃ links, Tracks links True sys'.l2)
    (hindexed : ∀ handle, (sys'.l0 handle).Indexed)
    (hsub : ∀ task, ∀ child ∈ sys'.l2.childrenOf task, child ∈ sys.l2.childrenOf task) (hsaved : sys.saved ⊆ sys'.saved)
    (hleaves : ∀ task, ¬call.Reach sys.l2 task → Leaves sys sys' task) (hready : ∀ c, call' = some c → c.Ready env sys')
    (hreach : ∀ c, call' = some c → ∀ task, c.Reach sys.l2 task → call.Reach sys.l2 task) :
    Invariant env { sys' with calls := update sys.calls id call' } := by
  have hold : ∀ {id' c task}, id' ≠ id → sys.calls id' = some c → c.Reach sys.l2 task → ¬call.Reach sys.l2 task :=
    fun hne hc hreach => h.separate _ id _ call hc hcall hne _ hreach
  -- The calls after the step reach no more than those before it.
  have hcases : ∀ id' c, update sys.calls id call' id' = some c → c.Ready env sys' ∧
      ∃ c₀, sys.calls id' = some c₀ ∧ ∀ task, c.Reach sys'.l2 task → c₀.Reach sys.l2 task := by
    intro id' c hc
    by_cases heq : id' = id
    · subst heq
      rw [update_self] at hc
      exact ⟨hready c hc, call, hcall, fun task hr => hreach c hc task (hr.of_subset fun task _ => hsub task)⟩
    · rw [update_of_ne heq] at hc
      exact ⟨(h.ready id' c hc).frame (fun task _ => hsub task) hsaved fun task hr => hleaves task (hold heq hc hr),
        c, hc, fun task hr => hr.of_subset fun task _ => hsub task⟩
  refine ⟨htracks, hindexed, fun id' c hc => (hcases id' c hc).1.with_calls _,
    fun i j c c' hc hc' hne task hr hr' => ?_⟩
  obtain ⟨-, c₀, hc₀, hle⟩ := hcases i c hc
  obtain ⟨-, c₁, hc₁, hle'⟩ := hcases j c' hc'
  exact h.separate i j c₀ c₁ hc₀ hc₁ hne task (hle task hr) (hle' task hr')

variable {call' : Option Call} {id : ℕ}

/-- A step that changes nothing but the call. -/
theorem Invariant.goes_on (h : Invariant env sys) (hcall : sys.calls id = some call)
    (hready : ∀ c, call' = some c → c.Ready env sys)
    (hreach : ∀ c, call' = some c → ∀ task, c.Reach sys.l2 task → call.Reach sys.l2 task) :
    Invariant env { sys with calls := update sys.calls id call' } :=
  h.advance hcall h.tracks h.indexed (fun _ _ hin => hin) (fun _ hin => hin)
    (fun _ _ _ node' _ hnode' => ⟨node', hnode', .inl rfl⟩) hready hreach

/-- A call that gets under way. -/
theorem Invariant.start (h : Invariant env sys) (hstart : sys.start id call = some sys') (hready : call.Ready env sys)
    (hidle : ∀ task, call.Reach sys.l2 task → ¬sys.Busy task) : Invariant env sys' := by
  unfold System.start at hstart
  cases hfree : sys.calls id with
  | some c =>
    rw [hfree] at hstart
    cases hstart
  | none =>
    rw [hfree] at hstart
    cases hstart
    have hcases : ∀ id' c, update sys.calls id (some call) id' = some c →
        id' = id ∧ c = call ∨ id' ≠ id ∧ sys.calls id' = some c := by
      intro id' c hc
      by_cases heq : id' = id
      · subst heq
        rw [update_self] at hc
        exact .inl ⟨rfl, (some.inj hc).symm⟩
      · rw [update_of_ne heq] at hc
        exact .inr ⟨heq, hc⟩
    refine ⟨h.tracks, h.indexed, fun id' c hc => ?_, fun i j c c' hc hc' hne task hr hr' => ?_⟩
    · rcases hcases id' c hc with ⟨-, rfl⟩ | ⟨-, hc⟩
      · exact hready.with_calls _
      · exact (h.ready id' c hc).with_calls _
    · rcases hcases i c hc with ⟨rfl, rfl⟩ | ⟨-, hi⟩
      · rcases hcases j c' hc' with ⟨rfl, -⟩ | ⟨-, hj⟩
        · exact hne rfl
        · exact hidle task hr ⟨j, c', hj, hr'⟩
      · rcases hcases j c' hc' with ⟨rfl, rfl⟩ | ⟨-, hj⟩
        · exact hidle task hr' ⟨i, c, hi, hr⟩
        · exact h.separate i j c c' hi hj hne task hr hr'

/-! ### The steps -/

/-- One node is stored, or nothing is done. -/
structure FlushSpec (sys : System) (iri : String) (sys' : System) (ok : Bool) : Prop where
  calls : sys'.calls = sys.calls
  edits : Edits sys.l2 sys'.l2
  indexed : ∀ handle, (sys'.l0 handle).Indexed
  saved : sys.saved ⊆ sys'.saved
  leaves : ∀ task, Leaves sys sys' task
  cached : ∀ iri', sys'.l2.nodeCache.lookup iri' = none → sys.l2.nodeCache.lookup iri' = none
  stored : ok = true → ∀ node', sys'.l2.nodeCache.lookup iri = some node' → (iri, node'.jsonLd) ∈ sys'.saved

variable {handle : ℕ} {now : ℤ} {ok : Bool}

theorem flushSpec_flush (h : Invariant env sys)
    (hflush : sys.flush l0env handle now iri = (sys', ok)) : FlushSpec sys iri sys' ok := by
  obtain ⟨links, htracks⟩ := h.tracks
  have hsame {ok : Bool} (hok : ok = true → sys.l2.nodeCache.lookup iri = none) : FlushSpec sys iri sys ok := by
    refine ⟨rfl, .refl _, h.indexed, fun _ => id, fun _ _ node' _ hnode' => ⟨node', hnode', .inl rfl⟩,
      fun _ => id, fun htrue node' hnode' => ?_⟩
    cases (hok htrue).symm.trans hnode'
  unfold System.flush at hflush
  cases hnode : sys.l2.nodeCache.lookup iri with
  | none =>
    rw [hnode] at hflush
    cases hflush
    exact hsame fun _ => hnode
  | some node =>
    rw [hnode] at hflush
    simp only at hflush
    rcases hnodes : sys.l2.flushNodes l0env now (sys.l0 handle) [iri] with ⟨⟨l2, l0⟩, _ | _⟩
    · rw [hnodes] at hflush
      cases hflush
      exact hsame fun hfalse => (nomatch hfalse)
    · rw [hnodes] at hflush
      cases hflush
      obtain ⟨hindexed, -, hrest, hall⟩ := flushNodes_spec htracks.iri_eq (h.indexed handle) hnodes
      obtain ⟨hself, -⟩ := hall rfl iri mem_cons_self node hnode
      have hedits := edits_flushNodes l0env now sys.l2 (sys.l0 handle) [iri]
      rw [hnodes] at hedits
      refine ⟨rfl, hedits, fun handle' => ?_, fun _ => mem_cons_of_mem _, fun task iri' node' _ hnode' => ?_,
        fun iri' hnone => ?_, fun _ node' hnode' => ?_⟩
      · by_cases heq : handle' = handle
        · subst heq
          simpa using hindexed
        · simpa [update_of_ne heq] using h.indexed handle'
      · by_cases heq : iri' = iri
        · subst heq
          obtain rfl := some.inj (hself.symm.trans hnode')
          exact ⟨node, hnode, .inr mem_cons_self⟩
        · exact ⟨node', (hrest iri' (mt mem_singleton.1 heq)).1 ▸ hnode', .inl rfl⟩
      · by_cases heq : iri' = iri
        · subst heq
          cases hself.symm.trans hnone
        · exact (hrest iri' (mt mem_singleton.1 heq)).1 ▸ hnone
      · obtain rfl := some.inj (hself.symm.trans hnode')
        exact mem_cons_self

variable {l2 : Blackboard}

/-- A step of the blackboard alone, which leaves the nodes of busy tasks as they are. -/
theorem Invariant.of_l2 (h : Invariant env sys) (htracks : ∃ links, Tracks links True l2)
    (hsub : ∀ task, sys.Busy task → ∀ child ∈ l2.childrenOf task, child ∈ sys.l2.childrenOf task)
    (hnodes : ∀ task, sys.Busy task → ∀ iri, extractTaskIri iri = some task →
      l2.nodeCache.lookup iri = sys.l2.nodeCache.lookup iri) : Invariant env { sys with l2 } :=
  h.frame rfl htracks h.indexed hsub (fun _ => id) fun task hbusy iri node' hkey hnode' =>
    ⟨node', hnodes task hbusy iri hkey ▸ hnode', .inl rfl⟩

variable {iris : List String}

theorem Invariant.written (h : Invariant env sys) (hwritten : Written sys.l2 iris l2)
    (hidle : ∀ iri ∈ iris, sys.Idle iri) : Invariant env { sys with l2 } := by
  obtain ⟨links, htracks⟩ := h.tracks
  refine h.of_l2 ⟨links, htracks.written hwritten⟩ (fun task _ child hin => hwritten.childrenOf ▸ hin)
    fun task hbusy iri hkey => hwritten.lookup fun hin => hidle iri hin task hkey hbusy

variable {s : Blackboard}

/-- What is reached from a task without sub-tasks. -/
theorem eq_of_reaches_completed {root task : String} (hroot : root ∈ s.completedTasks)
    (hreaches : Worklist.Reaches s.childrenOf root task) : task = root := by
  obtain ⟨⟨iri, node⟩, hentry, hsome⟩ := mem_filterMap.1 hroot
  simp only [ite_none_right_eq_some, some.injEq] at hsome
  obtain ⟨⟨-, hchildren⟩, rfl⟩ := hsome
  rcases Worklist.reaches_iff.1 hreaches with heq | ⟨child, hchild, -⟩
  · exact heq.symm
  · unfold childrenOf at hchild
    rw [AList.mem_lookup_iff.2 hentry, map_some, getD_some, hchildren] at hchild
    cases hchild

/-- A dirty node of a task is on the list of its flush. -/
theorem Tracks.mem_dirtyIris {links : String → List String} (h : Tracks links True s)
    (hreaches : Worklist.Reaches s.childrenOf taskIri task) (hkey : extractTaskIri iri = some task)
    (hnode : s.nodeCache.lookup iri = some node) (hdirty : node.dirty = true) :
    iri ∈ s.dirtyIris (s.subtreeNodeIris taskIri) := by
  refine mem_filter.2 ⟨mem_subtreeNodeIris.2 ⟨task, hreaches, ?_⟩, ?_⟩
  · exact h.kept trivial iri (hnode ▸ some_ne_none node) task hkey
  · rw [hnode]
    exact hdirty

theorem Invariant.onTaskComplete (h : Invariant env sys) (hapart : sys.Apart env (.onTaskComplete id handle taskIri))
    (hstep : sys.step env l0env (.onTaskComplete id handle taskIri) = some sys') : Invariant env sys' := by
  unfold System.step at hstep
  simp only at hstep
  split_ifs at hstep
  · cases hstep
    exact h
  obtain ⟨hkey, hidle, hown⟩ := hapart
  obtain ⟨links, htracks⟩ := h.tracks
  refine h.start hstep (.of_finds rfl rfl ?_ fun task heq => ?_) ?_
  · rintro task ⟨root, hroot, hreaches⟩ iri node hiri hnode
    obtain rfl := mem_singleton.1 hroot
    by_cases hdirty : node.dirty = true
    · exact .inl (htracks.mem_dirtyIris hreaches hiri hnode hdirty)
    · by_cases heq : iri = root
      · subst heq
        rcases hown node hnode with hrecord | hdirty' | hsaved
        · exact .inr (.inr (.inl ⟨rfl, hrecord⟩))
        · exact absurd hdirty' hdirty
        · exact .inr (.inl hsaved)
      · exact .inr (.inr (.inr ⟨heq, by simpa using hdirty⟩))
  · cases heq
    exact hkey
  · rintro task ⟨root, hroot, hreaches⟩
    obtain rfl := mem_singleton.1 hroot
    exact hidle task hreaches

theorem Invariant.onRunEnd (h : Invariant env sys) (hapart : sys.Apart env (.onRunEnd id handle taskIri))
    (hstep : sys.step env l0env (.onRunEnd id handle taskIri) = some sys') : Invariant env sys' := by
  obtain ⟨links, htracks⟩ := h.tracks
  refine h.start hstep (.of_finds rfl rfl ?_ fun task heq => (nomatch heq)) ?_
  · rintro task ⟨root, hroot, hreaches⟩ iri node hiri hnode
    obtain rfl := mem_singleton.1 hroot
    by_cases hdirty : node.dirty = true
    · exact .inl (htracks.mem_dirtyIris hreaches hiri hnode hdirty)
    · exact .inr (.inl (by simpa using hdirty))
  · rintro task ⟨root, hroot, hreaches⟩
    obtain rfl := mem_singleton.1 hroot
    exact hapart task hreaches

theorem Invariant.gcCompletedTasks (h : Invariant env sys) (hapart : sys.Apart env (.gcCompletedTasks id))
    (hstep : sys.step env l0env (.gcCompletedTasks id) = some sys') : Invariant env sys' := by
  refine h.start hstep (.of_finds rfl rfl ?_ fun task heq => (nomatch heq)) ?_
  · rintro task ⟨root, hroot, hreaches⟩ iri node hiri hnode
    obtain rfl := eq_of_reaches_completed hroot hreaches
    exact (hapart task hroot).2 iri node hiri hnode
  · rintro task ⟨root, hroot, hreaches⟩
    obtain rfl := eq_of_reaches_completed hroot hreaches
    exact (hapart task hroot).1

/-- What a call finds after one node of its flush. -/
theorem Call.Ready.flush {call' : Call} (hready : call.Ready env sys) (hspec : FlushSpec sys iri sys' true)
    (hroots : call'.roots = call.roots) (hdropping : call'.dropping = []) (herasing : call'.erasing = [])
    (hcompletes : call'.completes = call.completes)
    (hfinds : ∀ iri' node, call.Finds env sys iri' node → iri' = iri ∨ call'.Finds env sys' iri' node) :
    call'.Ready env sys' := by
  refine .of_finds hdropping herasing (fun task hreach iri' node' hkey hnode' => ?_) fun taskIri heq =>
    hready.own taskIri (hcompletes ▸ heq)
  obtain ⟨node, hnode, rfl | hstored⟩ := hspec.leaves task iri' node' hkey hnode'
  · have hreach' : call.Reach sys.l2 task := by
      obtain ⟨root, hroot, hreaches⟩ := hreach
      exact ⟨root, hroots ▸ hroot, hspec.edits.children ▸ hreaches⟩
    rcases hfinds iri' node' (hready.finds task hreach' iri' node' hkey hnode) with rfl | hfinds'
    · exact .of_saved (hspec.stored rfl node' hnode')
    · exact hfinds'
  · exact .of_saved hstored

/-- A call goes on after one node of its flush, or stops there. -/
theorem Invariant.flush (h : Invariant env sys) (hcall : sys.calls id = some call)
    (hspec : FlushSpec sys iri sys' ok) (hready : ∀ c, call' = some c → c.Ready env sys')
    (hroots : ∀ c, call' = some c → c.roots = call.roots) :
    Invariant env { sys' with calls := update sys.calls id call' } := by
  obtain ⟨links, htracks⟩ := h.tracks
  refine h.advance hcall ⟨links, htracks.edits hspec.edits⟩ hspec.indexed
    (fun task child hin => hspec.edits.children ▸ hin) hspec.saved (fun task _ => hspec.leaves task) hready ?_
  rintro c hc task ⟨root, hroot, hreaches⟩
  exact ⟨root, hroots c hc ▸ hroot, hreaches⟩

/-- A flush of either kind goes on. -/
theorem Invariant.flushing (h : Invariant env sys) {stage : List String → Call}
    (hstage : stage = .flushing handle taskIri ∨ stage = .runEndFlushing handle taskIri)
    (hcall : sys.calls id = some (stage (iri :: iris))) (hspec : FlushSpec sys iri sys' true) :
    Invariant env { sys' with calls := update sys.calls id (some (stage iris)) } := by
  rcases hstage with rfl | rfl
  all_goals
    refine h.flush hcall hspec (fun c hc => ?_) fun c hc => ?_
    · cases hc
      refine (h.ready id _ hcall).flush hspec rfl rfl rfl rfl ?_
      rintro iri' node (hin | hsafe)
      · exact (mem_cons.1 hin).imp_right .inl
      · exact .inr (.inr (hsafe.mono hspec.saved))
    · cases hc
      rfl

/-- A step of a completion that changes its own task's node, and the graph. -/
theorem Invariant.own_node (h : Invariant env sys) (hcall : sys.calls id = some call)
    (hcompletes : call.completes = some taskIri) (hroots : call.roots = [taskIri]) (hedits : Edits sys.l2 l2)
    (hothers : ∀ iri, iri ≠ taskIri → l2.nodeCache.lookup iri = sys.l2.nodeCache.lookup iri)
    (hready : ∀ c, call' = some c → c.Ready env { sys with l2 }) (hreach : ∀ c, call' = some c → c.roots = [taskIri]) :
    Invariant env { sys with l2, calls := update sys.calls id call' } := by
  obtain ⟨links, htracks⟩ := h.tracks
  have hown : call.Reach sys.l2 taskIri := ⟨taskIri, hroots ▸ mem_cons_self, .refl⟩
  have hkey := (h.ready id call hcall).own taskIri hcompletes
  refine @Invariant.advance env sys { sys with l2 } h id call call' hcall ⟨links, htracks.edits hedits⟩ h.indexed
    (fun task child hin => hedits.children ▸ hin) (fun _ hin => hin) (fun task hout iri node' hiri hnode' => ?_)
    hready ?_
  · have hne : iri ≠ taskIri := by
      rintro rfl
      obtain rfl := some.inj (hkey.symm.trans hiri)
      exact hout hown
    exact ⟨node', hothers iri hne ▸ hnode', .inl rfl⟩
  · rintro c hc task ⟨root, hroot, hreaches⟩
    rw [hreach c hc] at hroot
    exact ⟨root, hroots ▸ hroot, hreaches⟩

theorem lookup_markDirty_self {node' : Node} (h : (s.markDirty taskIri).nodeCache.lookup taskIri = some node') :
    ∃ node, s.nodeCache.lookup taskIri = some node ∧ node'.jsonLd = node.jsonLd := by
  unfold markDirty at h
  cases hnode : s.nodeCache.lookup taskIri with
  | none =>
    rw [hnode] at h
    cases hnode.symm.trans h
  | some node =>
    rw [hnode] at h
    simp only [AList.lookup_insert] at h
    cases h
    exact ⟨node, rfl, rfl⟩

theorem Invariant.marking (h : Invariant env sys) (hcall : sys.calls id = some (.marking taskIri)) :
    Invariant env { sys with
      l2 := sys.l2.markDirty taskIri
      calls := update sys.calls id (some (.archiving taskIri)) } := by
  have hready := h.ready id _ hcall
  have hedits := edits_markDirty sys.l2 taskIri
  refine h.own_node hcall rfl rfl hedits (fun iri hne => lookup_markDirty_ne hne) (fun c hc => ?_)
    fun c hc => ?_
  · cases hc
    refine .of_finds rfl rfl (fun task hreach iri node' hkey hnode' => ?_) hready.own
    have hreach' : (Call.marking taskIri).Reach sys.l2 task := by
      obtain ⟨root, hroot, hreaches⟩ := hreach
      exact ⟨root, hroot, hedits.children ▸ hreaches⟩
    by_cases hne : iri = taskIri
    · subst hne
      obtain ⟨node, hnode, hjson⟩ := lookup_markDirty_self hnode'
      -- The document is the same, and it is stored or can be archived.
      rcases hready.finds task hreach' iri node hkey hnode with hsaved | ⟨-, hrecord⟩ | ⟨hne, -⟩
      · exact .inl (hjson ▸ hsaved)
      · refine .inr (.inl ⟨rfl, ?_⟩)
        unfold IsTaskRecord
        rw [hjson]
        exact hrecord
      · exact absurd rfl hne
    · exact hready.finds task hreach' iri node' hkey ((lookup_markDirty_ne hne).symm.trans hnode')
  · cases hc
    rfl

variable {order : List ℕ}

theorem Invariant.archiving (h : Invariant env sys) {outcome : Except BlackboardError Bool}
    (hcall : sys.calls id = some (.archiving taskIri))
    (harchive : (sys.l2.flushOxigraph env order).archiveCompletedTask env now taskIri = (l2, outcome))
    (hcall' : ∀ c, call' = some c → c = .evicting [taskIri] ∧ ∃ b, outcome = .ok b) :
    Invariant env { sys with l2, calls := update sys.calls id call' } := by
  have hready := h.ready id _ hcall
  have harchives := @archives_archiveCompletedTask env (sys.l2.flushOxigraph env order) now taskIri
  obtain ⟨_, _, _, hflush⟩ := @syncs_flushOxigraph env sys.l2 order
  have hsyncs : Edits sys.l2 (sys.l2.flushOxigraph env order) := (syncs_flushOxigraph sys.l2 order).edits
  have hcache : (sys.l2.flushOxigraph env order).nodeCache = sys.l2.nodeCache := by rw [hflush]
  rw [harchive] at harchives
  have hedits : Edits sys.l2 l2 := hsyncs.trans harchives.edits
  have hothers : ∀ iri, iri ≠ taskIri → l2.nodeCache.lookup iri = sys.l2.nodeCache.lookup iri := by
    intro iri hne
    rw [harchives.lookup_ne hne, hcache]
  refine h.own_node hcall rfl rfl hedits hothers (fun c hc => ?_) fun c hc => ?_
  · obtain ⟨rfl, b, rfl⟩ := hcall' c hc
    refine .of_finds rfl rfl (fun task hreach iri node' hkey hnode' => ?_) fun task heq => (nomatch heq)
    have hreach' : (Call.archiving taskIri).Reach sys.l2 task := by
      obtain ⟨root, hroot, hreaches⟩ := hreach
      exact ⟨root, hroot, hedits.children ▸ hreaches⟩
    by_cases hne : iri = taskIri
    · subst hne
      cases harchives with
      | finds_none hnone =>
        have hnode : sys.l2.nodeCache.lookup iri = some node' := hcache ▸ hnode'
        rcases hready.finds task hreach' iri node' hkey hnode with hsaved | ⟨-, hrecord⟩ | ⟨hne, -⟩
        · exact .inr hsaved
        · exact absurd hrecord (hnone node' hnode')
        · exact absurd rfl hne
      | replaces size jsonLd hsyncs' hnode hrecord =>
        simp only [AList.lookup_insert] at hnode'
        cases hnode'
        exact .inl rfl
    · have hnode : sys.l2.nodeCache.lookup iri = some node' := hothers iri hne ▸ hnode'
      rcases hready.finds task hreach' iri node' hkey hnode with hsaved | ⟨heq, -⟩ | ⟨-, hclean⟩
      · exact .inr hsaved
      · exact absurd heq hne
      · exact .inl hclean
  · obtain ⟨rfl, -⟩ := hcall' c hc
    rfl

/-- A call has walked down the tree from one of its tasks. -/
theorem Call.Ready.walk {call' : Call} (h : call.Ready env sys) (hinv : Invariant env sys) {fuel : ℕ}
    {tasks rest : List String} (htasks : sys.l2.tasksToRelease fuel taskIri = some tasks)
    (hroots : call.roots = taskIri :: rest) (hroots' : call'.roots = tasks ++ rest)
    (hdropping : call'.dropping = tasks.flatMap sys.l2.nodesOf) (herasing : call'.erasing = tasks)
    (hcompletes : call'.completes = none)
    (hfinds : ∀ iri node, call.Finds env sys iri node → call'.Finds env sys iri node) :
    call'.Ready env sys ∧ ∀ task, call'.Reach sys.l2 task → call.Reach sys.l2 task := by
  obtain ⟨links, htracks⟩ := hinv.tracks
  have hreach : ∀ task, call'.Reach sys.l2 task → call.Reach sys.l2 task := by
    rintro task ⟨root, hroot, hreaches⟩
    rw [hroots', mem_append] at hroot
    rcases hroot with hin | hin
    · obtain ⟨first, hfirst, hdown⟩ := (Worklist.mem_expand htasks).1 hin
      obtain rfl := mem_singleton.1 hfirst
      exact ⟨first, hroots ▸ mem_cons_self, hdown.trans hreaches⟩
    · exact ⟨root, hroots ▸ mem_cons_of_mem taskIri hin, hreaches⟩
  refine ⟨⟨fun task hr iri node hkey hnode => hfinds iri node (h.finds task (hreach task hr) iri node hkey hnode),
    fun iri hin => ?_, fun task hin iri hkey hcached => ?_, fun task heq => ?_⟩, hreach⟩
  · rw [hdropping] at hin
    obtain ⟨task, htask, hin⟩ := mem_flatMap.1 hin
    exact ⟨task, hroots' ▸ mem_append_left rest htask, htracks.key_eq task iri hin⟩
  · rw [herasing] at hin
    rw [hdropping]
    exact mem_flatMap.2 ⟨task, hin, htracks.kept trivial iri hcached task hkey⟩
  · rw [hcompletes] at heq
    cases heq

/-- A call drops the next of its nodes. -/
theorem Invariant.drop (h : Invariant env sys) {call' : Call} (hcall : sys.calls id = some call)
    (hdrops : Drops sys.l2 iri l2) (hroots : call'.roots = call.roots) (hdropping : call.dropping = iri :: iris)
    (hdropping' : call'.dropping = iris) (herasing : call'.erasing = call.erasing) (hcompletes : call'.completes = none)
    (hfinds : ∀ iri node, call.Finds env sys iri node → call'.Finds env { sys with l2 } iri node) :
    Invariant env { sys with l2, calls := update sys.calls id (some call') } := by
  obtain ⟨links, htracks⟩ := h.tracks
  have hready := h.ready id call hcall
  have hedits := hdrops.edits
  have hold : ∀ iri' node', l2.nodeCache.lookup iri' = some node' →
      iri' ≠ iri ∧ sys.l2.nodeCache.lookup iri' = some node' := by
    intro iri' node' hnode'
    rw [hdrops.lookup] at hnode'
    split_ifs at hnode' with heq
    exact ⟨heq, hnode'⟩
  have hreach : ∀ s : Blackboard, s.childrenOf = sys.l2.childrenOf → ∀ task, call'.Reach s task →
      call.Reach sys.l2 task := by
    rintro s hchildren task ⟨root, hroot, hreaches⟩
    exact ⟨root, hroots ▸ hroot, hchildren ▸ hreaches⟩
  refine @Invariant.advance env sys { sys with l2 } h id call (some call') hcall ⟨links, htracks.edits hedits⟩
    h.indexed (fun task child hin => hedits.children ▸ hin) (fun _ hin => hin)
    (fun task _ iri' node' _ hnode' => ⟨node', (hold iri' node' hnode').2, .inl rfl⟩) (fun c hc => ?_)
    fun c hc => ?_
  · cases hc
    refine ⟨fun task hr iri' node' hkey hnode' => hfinds iri' node' (hready.finds task
      (hreach l2 hedits.children task hr) iri' node' hkey (hold iri' node' hnode').2), fun iri' hin => ?_,
      fun task hin iri' hkey hcached => ?_, fun task heq => ?_⟩
    · rw [hdropping'] at hin
      rw [hroots]
      exact hready.listed iri' (hdropping ▸ mem_cons_of_mem iri hin)
    · obtain ⟨node', hnode'⟩ := ne_none_iff_exists'.1 hcached
      obtain ⟨hne, hnode⟩ := hold iri' node' hnode'
      have hin' := hready.remains task (herasing ▸ hin) iri' hkey (hnode ▸ some_ne_none node')
      rw [hdropping] at hin'
      rw [hdropping']
      exact (mem_cons.1 hin').resolve_left hne
    · rw [hcompletes] at heq
      cases heq
  · cases hc
    exact hreach sys.l2 rfl

/-- A call takes its tasks out of the tree. -/
theorem Invariant.erase (h : Invariant env sys) (hcall : sys.calls id = some call) (hdropping : call.dropping = [])
    (hcache : l2.nodeCache = sys.l2.nodeCache)
    (htree : l2.taskTree = call.erasing.foldl (fun tree task => tree.erase task) sys.l2.taskTree)
    (hnext : ∀ c, call' = some c → c.dropping = [] ∧ c.erasing = [] ∧ c.completes = none ∧
      (∀ root ∈ c.roots, root ∈ call.roots) ∧
      ∀ iri node, call.Finds env sys iri node → c.Finds env { sys with l2 } iri node) :
    Invariant env { sys with l2, calls := update sys.calls id call' } := by
  obtain ⟨links, htracks⟩ := h.tracks
  have hready := h.ready id call hcall
  have htracks' : Tracks links True l2 :=
    htracks.eraseTasks hcache htree fun _ iri hcached task hin hkey => by
      have hin' := hready.remains task hin iri hkey hcached
      rw [hdropping] at hin'
      cases hin'
  have hsub : ∀ task, ∀ child ∈ l2.childrenOf task, child ∈ sys.l2.childrenOf task := by
    intro task child hin
    simp only [childrenOf, htree, lookup_foldl_erase] at hin
    split_ifs at hin
    · cases hin
    · exact hin
  have hreach : ∀ c, call' = some c → ∀ task, c.Reach sys.l2 task → call.Reach sys.l2 task := by
    rintro c hc task ⟨root, hroot, hreaches⟩
    exact ⟨root, (hnext c hc).2.2.2.1 root hroot, hreaches⟩
  refine @Invariant.advance env sys { sys with l2 } h id call call' hcall ⟨links, htracks'⟩ h.indexed hsub
    (fun _ hin => hin) (fun task _ iri node' _ hnode' => ⟨node', hcache ▸ hnode', .inl rfl⟩) (fun c hc => ?_)
    hreach
  obtain ⟨hdropping', herasing', hcompletes', -, hfinds⟩ := hnext c hc
  refine .of_finds hdropping' herasing' (fun task hr iri node' hkey hnode' => ?_) fun task heq => ?_
  · have hr' : c.Reach sys.l2 task := hr.of_subset fun task _ => hsub task
    exact hfinds iri node' (hready.finds task (hreach c hc task hr') iri node' hkey (hcache ▸ hnode'))
  · rw [hcompletes'] at heq
    cases heq

/-- What a call takes out of the cache is on its list. -/
def Call.DropsListed (call : Call) (sys sys' : System) : Prop :=
  ∀ iri, sys'.l2.nodeCache.lookup iri = none → sys.l2.nodeCache.lookup iri = none ∨ iri ∈ call.dropping

theorem Call.DropsListed.of_drops (hdrops : Drops sys.l2 iri sys'.l2)
    (hdropping : call.dropping = iri :: iris) : call.DropsListed sys sys' := by
  intro iri' hgone
  rw [hdrops.lookup] at hgone
  split_ifs at hgone with heq
  · exact .inr (hdropping ▸ heq ▸ mem_cons_self)
  · exact .inl hgone

/-- **A step of a call keeps the invariant** and drops what the call has listed. -/
theorem Invariant.advance_step (h : Invariant env sys) {fuel : ℕ}
    (hcall : sys.calls id = some call) (hadvance : sys.advance env l0env now fuel order call = some (sys', call')) :
    Invariant env { sys' with calls := update sys.calls id call' } ∧ call.DropsListed sys sys' := by
  have hready := h.ready id call hcall
  -- The call goes on from where it is, and nothing else changes.
  have hnext : ∀ {c : Call}, c.Ready env sys → (∀ task, c.Reach sys.l2 task → call.Reach sys.l2 task) →
      Invariant env { sys with calls := update sys.calls id (some c) } ∧ call.DropsListed sys sys := by
    intro c hc hreach
    refine ⟨h.goes_on hcall (fun c' heq => ?_) fun c' heq => ?_, fun _ hgone => .inl hgone⟩
    · exact some.inj heq ▸ hc
    · exact some.inj heq ▸ hreach
  cases call with
  | flushing handle taskIri iris =>
    cases iris with
    | nil =>
      cases hadvance
      exact hnext (.of_finds rfl rfl (fun task hr iri node hkey hnode => (hready.finds task hr iri node hkey
        hnode).resolve_left not_mem_nil) hready.own) fun task hr => hr
    | cons iri iris =>
      rw [System.advance] at hadvance
      rcases hflush : sys.flush l0env handle now iri with ⟨sys₁, _ | _⟩
      all_goals
        rw [hflush] at hadvance
        cases hadvance
        have hspec := flushSpec_flush h hflush
        refine ⟨?_, fun iri' hgone => .inl (hspec.cached iri' hgone)⟩
      · exact h.flush hcall hspec (fun c hc => (nomatch hc)) fun c hc => (nomatch hc)
      · exact h.flushing (.inl rfl) hcall hspec
  | marking taskIri =>
    cases hadvance
    exact ⟨h.marking hcall, fun iri hgone => .inl (lookup_markDirty_eq_none.1 hgone)⟩
  | archiving taskIri =>
    have harchives := @archives_archiveCompletedTask env (sys.l2.flushOxigraph env order) now taskIri
    obtain ⟨_, _, _, hsync⟩ := @syncs_flushOxigraph env sys.l2 order
    rw [System.advance] at hadvance
    rcases harchive : (sys.l2.flushOxigraph env order).archiveCompletedTask env now taskIri with ⟨l2, e | b⟩
    all_goals
      rw [harchive] at hadvance harchives
      cases hadvance
      refine ⟨?_, fun iri hgone => .inl ?_⟩
      swap
      · rwa [harchives.lookup_eq_none, hsync] at hgone
    · exact h.archiving hcall harchive fun c hc => (nomatch hc)
    · exact h.archiving hcall harchive fun c hc => ⟨(some.inj hc).symm, b, rfl⟩
  | evicting rest =>
    cases rest with
    | nil =>
      cases hadvance
      exact ⟨h.goes_on hcall (fun c hc => (nomatch hc)) fun c hc => (nomatch hc), fun _ hgone => .inl hgone⟩
    | cons taskIri rest =>
      obtain ⟨tasks, htasks, hadvance⟩ := bind_eq_some_iff.1 hadvance
      cases hadvance
      have hwalk := @Call.Ready.walk env sys _ taskIri (.evictingNodes rest taskIri tasks
        (tasks.flatMap sys.l2.nodesOf)) hready h fuel tasks rest htasks rfl rfl rfl rfl rfl fun _ _ hfound => hfound
      exact hnext hwalk.1 hwalk.2
  | evictingNodes rest taskIri tasks iris =>
    cases iris with
    | nil =>
      cases hadvance
      refine ⟨h.erase hcall rfl rfl rfl fun c hc => ?_, fun _ hgone => .inl hgone⟩
      cases hc
      exact ⟨rfl, rfl, rfl, fun root hroot => mem_append_right tasks hroot, fun _ _ hfound => hfound⟩
    | cons iri iris =>
      cases hadvance
      have hdrops := @drops_evictNode env sys.l2 iri
      exact ⟨h.drop hcall hdrops rfl rfl rfl rfl rfl fun _ _ hfound => hfound, .of_drops hdrops rfl⟩
  | runEndFlushing handle taskIri iris =>
    cases iris with
    | nil =>
      cases hadvance
      exact hnext (.of_finds rfl rfl (fun task hr iri node hkey hnode => .inr ((hready.finds task hr iri node hkey
        hnode).resolve_left not_mem_nil)) hready.own) fun task hr => hr
    | cons iri iris =>
      rw [System.advance] at hadvance
      rcases hflush : sys.flush l0env handle now iri with ⟨sys₁, _ | _⟩
      all_goals
        rw [hflush] at hadvance
        cases hadvance
        have hspec := flushSpec_flush h hflush
        refine ⟨?_, fun iri' hgone => .inl (hspec.cached iri' hgone)⟩
      · refine h.flush hcall hspec (fun c hc => ?_) fun c hc => ?_
        · cases hc
          exact .of_finds rfl rfl (fun _ _ _ _ _ _ => .inl rfl) fun task heq => (nomatch heq)
        · cases hc
          rfl
      · exact h.flushing (.inr rfl) hcall hspec
  | releasing failed taskIri =>
    obtain ⟨tasks, htasks, hadvance⟩ := bind_eq_some_iff.1 hadvance
    cases hadvance
    have hwalk := @Call.Ready.walk env sys _ taskIri (.releasingNodes failed tasks (tasks.flatMap sys.l2.nodesOf))
      hready h fuel tasks [] htasks rfl (append_nil tasks).symm rfl rfl rfl fun _ _ hfound => hfound
    exact hnext hwalk.1 hwalk.2
  | releasingNodes failed tasks iris =>
    cases iris with
    | nil =>
      cases hadvance
      exact ⟨h.erase hcall rfl rfl rfl fun c hc => (nomatch hc), fun _ hgone => .inl hgone⟩
    | cons iri iris =>
      cases hadvance
      have hdrops := @drops_deleteNode env sys.l2 iri
      exact ⟨h.drop hcall hdrops rfl rfl rfl rfl rfl fun _ _ hfound => hfound, .of_drops hdrops rfl⟩

variable {action : Action}

/-- **A step keeps the invariant**, if it stays out of the way of the calls. -/
theorem Invariant.step (h : Invariant env sys) (hapart : sys.Apart env action)
    (hstep : sys.step env l0env action = some sys') : Invariant env sys' := by
  obtain ⟨links, htracks⟩ := h.tracks
  cases action with
  | writeNode now nodeIri jsonLd =>
    cases hstep
    exact h.written (written_writeNode sys.l2 now nodeIri jsonLd) (forall_mem_singleton.2 hapart)
  | writeNodeToGraph now nodeIri jsonLd graphName =>
    cases hstep
    exact h.written (written_writeNodeToGraph sys.l2 now nodeIri jsonLd graphName)
      (forall_mem_singleton.2 hapart)
  | writeNodesBatch now nodes =>
    cases hstep
    exact h.written (written_writeNodesBatch sys.l2 now nodes) hapart
  | writeBatchToGraphs now nodes =>
    cases hstep
    exact h.written (written_writeBatchToGraphs sys.l2 now nodes) hapart
  | registerTask taskIri parent =>
    cases hstep
    refine h.of_l2 ⟨fun task => links task ++ [taskIri], htracks.registerTask
      (fun task child hin => mem_append_left _ hin) fun task _ => by simp⟩ (fun task hbusy child hin => ?_)
      fun task _ iri _ => by rw [registerTask_nodeCache]
    rcases mem_childrenOf_registerTask hin with hin | ⟨hparent, -⟩
    · exact hin
    · exact absurd hbusy (hapart task hparent)
  | completeTask taskIri status =>
    cases hstep
    have hedits := edits_completeTask sys.l2 taskIri status
    exact h.of_l2 ⟨links, htracks.edits hedits⟩ (fun task _ child hin => hedits.children ▸ hin)
      fun task _ iri _ => by rw [completeTask_nodeCache]
  | markDirty nodeIri =>
    cases hstep
    have hedits := edits_markDirty sys.l2 nodeIri
    refine h.of_l2 ⟨links, htracks.edits hedits⟩ (fun task _ child hin => hedits.children ▸ hin)
      fun task hbusy iri hkey => lookup_markDirty_ne ?_
    rintro rfl
    exact hapart task hkey hbusy
  | flushNode handle now nodeIri =>
    unfold System.step at hstep
    simp only at hstep
    split_ifs at hstep
    · rcases hflush : sys.flush l0env handle now nodeIri with ⟨sys₁, ok⟩
      rw [hflush] at hstep
      cases hstep
      have hspec := flushSpec_flush h hflush
      exact h.frame hspec.calls ⟨links, htracks.edits hspec.edits⟩ hspec.indexed
        (fun task _ child hin => hspec.edits.children ▸ hin) hspec.saved fun task _ => hspec.leaves task
    · cases hstep
      exact h
  | onTaskComplete id handle taskIri => exact h.onTaskComplete hapart hstep
  | onRunEnd id handle taskIri => exact h.onRunEnd hapart hstep
  | gcCompletedTasks id => exact h.gcCompletedTasks hapart hstep
  | advance id now fuel order =>
    obtain ⟨call, hcall, hstep⟩ := bind_eq_some_iff.1 hstep
    obtain ⟨⟨sys₁, call'⟩, hadvance, hstep⟩ := bind_eq_some_iff.1 hstep
    cases hstep
    exact (h.advance_step hcall hadvance).1

/-! ### What is dropped -/

theorem start_l2 (h : sys.start id call = some sys') : sys'.l2 = sys.l2 := by
  unfold System.start at h
  cases hfree : sys.calls id with
  | none =>
    rw [hfree] at h
    cases h
    rfl
  | some c =>
    rw [hfree] at h
    cases h

/-- What may be dropped was stored. -/
theorem saved_of_safe (hdirty : node.dirty = true) (hsafe : sys.Safe iri node) : (iri, node.jsonLd) ∈ sys.saved := by
  rcases hsafe with hclean | hsaved
  · rw [hdirty] at hclean
    cases hclean
  · exact hsaved

/-- **A step drops no dirty node that was not stored.** -/
theorem Invariant.losesNone (h : Invariant env sys)
    (hstep : sys.step env l0env action = some sys') : sys.LosesNone action sys' := by
  intro iri node hnode hdirty hgone
  have hkeeps (hcached : sys'.l2.nodeCache.lookup iri = none → sys.l2.nodeCache.lookup iri = none) :
      (iri, node.jsonLd) ∈ sys.saved ∨ sys.Fails action := by
    cases hnode.symm.trans (hcached hgone)
  cases action with
  | writeNode now nodeIri jsonLd =>
    cases hstep
    exact hkeeps (written_writeNode sys.l2 now nodeIri jsonLd).cached
  | writeNodeToGraph now nodeIri jsonLd graphName =>
    cases hstep
    exact hkeeps (written_writeNodeToGraph sys.l2 now nodeIri jsonLd graphName).cached
  | writeNodesBatch now nodes =>
    cases hstep
    exact hkeeps (written_writeNodesBatch sys.l2 now nodes).cached
  | writeBatchToGraphs now nodes =>
    cases hstep
    exact hkeeps (written_writeBatchToGraphs sys.l2 now nodes).cached
  | registerTask taskIri parent =>
    cases hstep
    exact hkeeps fun hnone => registerTask_nodeCache sys.l2 taskIri parent ▸ hnone
  | completeTask taskIri status =>
    cases hstep
    exact hkeeps fun hnone => completeTask_nodeCache sys.l2 taskIri status ▸ hnone
  | markDirty nodeIri =>
    cases hstep
    exact hkeeps lookup_markDirty_eq_none.1
  | flushNode handle now nodeIri =>
    unfold System.step at hstep
    simp only at hstep
    split_ifs at hstep
    · rcases hflush : sys.flush l0env handle now nodeIri with ⟨sys₁, ok⟩
      rw [hflush] at hstep
      cases hstep
      exact hkeeps ((flushSpec_flush h hflush).cached iri)
    · cases hstep
      exact hkeeps id
  | onTaskComplete id handle taskIri =>
    unfold System.step at hstep
    simp only at hstep
    split_ifs at hstep
    · cases hstep
      exact hkeeps fun hnone => hnone
    · exact hkeeps fun hnone => start_l2 hstep ▸ hnone
  | onRunEnd id handle taskIri => exact hkeeps fun hnone => start_l2 hstep ▸ hnone
  | gcCompletedTasks id => exact hkeeps fun hnone => start_l2 hstep ▸ hnone
  | advance id now fuel order =>
    obtain ⟨call, hcall, hstep⟩ := bind_eq_some_iff.1 hstep
    obtain ⟨⟨sys₁, call'⟩, hadvance, hstep⟩ := bind_eq_some_iff.1 hstep
    cases hstep
    have hready := h.ready id call hcall
    have hin := ((h.advance_step hcall hadvance).2 iri hgone).resolve_left (hnode ▸ some_ne_none node)
    obtain ⟨task, htask, hkey⟩ := hready.listed iri hin
    have hfinds := hready.finds task ⟨task, htask, .refl⟩ iri node hkey hnode
    cases call with
    | evictingNodes rest taskIri tasks iris => exact .inl (saved_of_safe hdirty hfinds)
    | releasingNodes failed tasks iris =>
      rcases hfinds with rfl | hsafe
      · exact .inr ⟨tasks, iris, hcall⟩
      · exact .inl (saved_of_safe hdirty hsafe)
    | _ => cases hin

/-! ### Runs -/

/-- A database that L0 operations have left, open for writes or not. -/
def IsHandle (l0env : L0Env) (toJson : Value → String) (l0 : L0Store) : Prop :=
  ∃ ops writable l0', L0Store.run l0env toJson ops = .ok l0' ∧ l0 = { l0' with writable }

/-- A system in which nothing was called. -/
def System.new (store : Option String → String → List Value) (l0 : ℕ → L0Store) : System :=
  ⟨withStore store, l0, [], fun _ => none⟩

/-- Steps one after the other, each of which meets a condition. -/
inductive Runs (env : BlackboardEnv) (l0env : L0Env) (cond : System → Action → Prop) (start : System) : System → Prop
  | start : Runs env l0env cond start start
  | step {sys sys' : System} {action : Action} (h : Runs env l0env cond start sys) (hcond : cond sys action)
      (hstep : sys.step env l0env action = some sys') : Runs env l0env cond start sys'

theorem Invariant.of_runs {toJson : Value → String} {store : Option String → String → List Value}
    {l0 : ℕ → L0Store} (hl0 : ∀ handle, IsHandle l0env toJson (l0 handle))
    (h : Runs env l0env (System.Apart env) (.new store l0) sys) : Invariant env sys := by
  induction h with
  | start =>
    refine ⟨⟨fun _ => [], .withStore store⟩, fun handle => ?_, fun id call hcall => (nomatch hcall),
      fun id id' call call' hcall => (nomatch hcall)⟩
    obtain ⟨ops, writable, l0', hrun, heq⟩ := hl0 handle
    have hindexed := L0Store.Indexed.of_run hrun
    show (l0 handle).Indexed
    rw [heq]
    exact ⟨hindexed.iri_eq, hindexed.posting_iff, hindexed.proper⟩
  | step h hcond hstep ih => exact ih.step hcond hstep

theorem Runs.of_foldlM {cond : System → Action → Prop} {start : System} (actions : List Action)
    (hcond : ∀ sys action, cond sys action) (h : Runs env l0env cond start sys)
    (hrun : actions.foldlM (System.step env l0env) sys = some sys') : Runs env l0env cond start sys' := by
  induction actions generalizing sys with
  | nil =>
    cases hrun
    exact h
  | cons action actions ih =>
    obtain ⟨sys₁, hstep, hrun⟩ := bind_eq_some_iff.1 hrun
    exact ih (h.step (hcond sys action) hstep) hrun

/-- A handle on a new database. -/
theorem isHandle_new : IsHandle L0Store.sampleEnv (fun _ => "") (L0Store.new true) :=
  ⟨[], true, L0Store.new true, rfl, rfl⟩

def sampleSystem : System := .new (fun _ _ => []) fun _ => L0Store.new true

end WildAgentOs.Memory.Blackboard
