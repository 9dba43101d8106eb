import WildAgentOs.Memory.Scheduler

/-!
# The removal of a subtree

`memory/l2_blackboard.rs`: what `evict_subtree`, `release_subtree` and `gc_completed_tasks` leave.  They follow
the lists of sub-tasks, where the tree also has the parent of each task.

* `Descends`, `RemovesSubtree`, `Separable`, `GcComplete`, `HoldsBack`, `subtreeRemoval_iff`.
-/

namespace WildAgentOs.Memory.Blackboard

open Worklist List Option AList

/-- The parent of a task, as its entry has it. -/
def IsParent (s : Blackboard) (parent task : String) : Prop :=
  ∃ node, s.taskTree.lookup task = some node ∧ node.parent = some parent

/-- The task itself, or a task that is below it. -/
def Descends (s : Blackboard) (root task : String) : Prop := Relation.ReflTransGen s.IsParent root task

/-- A node that is registered under the task or a task below it. -/
def RegisteredUnder (s : Blackboard) (root nodeIri : String) : Prop :=
  ∃ task, s.Descends root task ∧ nodeIri ∈ s.nodesOf task

open Classical in
/-- The entry of a task, without a task and what is below it. -/
noncomputable def entryWithout (s : Blackboard) (root task : String) : Option TaskTreeNode :=
  if s.Descends root task then none
  else (s.taskTree.lookup task).map fun node =>
    { node with children := node.children.filter fun child => ¬s.Descends root child }

open Classical in
/-- The task, what is below it, and the nodes of these are gone, and the rest is as it was. -/
structure RemovesSubtree (s : Blackboard) (root : String) (s' : Blackboard) : Prop where
  nodes : ∀ iri, s'.nodeCache.lookup iri = if s.RegisteredUnder root iri then none else s.nodeCache.lookup iri
  tasks : ∀ task, s'.taskTree.lookup task = s.entryWithout root task

/-- The call ends, and removes just the task and what is below it. -/
def Exactly (s : Blackboard) (root : String) (call : ℕ → Option Blackboard) : Prop :=
  ∃ fuel s', call fuel = some s' ∧ s.RemovesSubtree root s'

/-- The lists of sub-tasks set a task and what is below it apart. -/
structure Separable (s : Blackboard) (root : String) : Prop where
  acyclic : ¬BehindCycle s.childrenOf root
  agrees : ∀ task ∈ s.taskTree, Reaches s.childrenOf root task ↔ s.Descends root task
  detached : ∀ task ∈ s.taskTree, ¬s.Descends root task → ∀ child ∈ s.childrenOf task, ¬s.Descends root child

variable {env : BlackboardEnv} {s s' : Blackboard} {root : String}

/-- All sub-tasks are among finitely many. -/
theorem exists_children (s : Blackboard) : ∃ U : Finset String, ∀ a, ∀ b ∈ s.childrenOf a, b ∈ U := by
  refine ⟨(s.taskTree.keys.flatMap s.childrenOf).toFinset, fun a b hb => ?_⟩
  rw [List.mem_toFinset, mem_flatMap]
  refine ⟨a, ?_, hb⟩
  by_contra hkey
  rw [← AList.mem_keys, ← lookup_eq_none] at hkey
  unfold childrenOf at hb
  rw [hkey] at hb
  exact not_mem_nil hb

theorem mem_taskTree_of_mem_nodesOf {task iri : String} (h : iri ∈ s.nodesOf task) : task ∈ s.taskTree := by
  by_contra hnone
  rw [← lookup_eq_none] at hnone
  unfold nodesOf at h
  rw [hnone] at h
  exact not_mem_nil h

variable {task : String}

/-- An entry that is dropped or left alone is as it should be. -/
theorem eq_entryWithout_iff (htask : task ∈ s.taskTree) {gone : Prop} [Decidable gone] :
    (if gone then none else s.taskTree.lookup task) = s.entryWithout root task ↔
      (gone ↔ s.Descends root task) ∧
        (¬s.Descends root task → ∀ child ∈ s.childrenOf task, ¬s.Descends root child) := by
  classical
  obtain ⟨node, hnode⟩ := isSome_iff_exists.1 (lookup_isSome.2 htask)
  have hchildren : s.childrenOf task = node.children := by
    unfold childrenOf
    rw [hnode]
    rfl
  unfold entryWithout
  rw [hnode, hchildren]
  by_cases hbelow : s.Descends root task
  · simp [hbelow]
  · rw [if_neg hbelow, map_some]
    constructor
    · intro hentry
      split_ifs at hentry with hgone
      refine ⟨iff_of_false hgone hbelow, fun _ child hchild => ?_⟩
      have hkept := congrArg TaskTreeNode.children (some.inj hentry)
      rw [eq_comm, filter_eq_self] at hkept
      simpa using hkept child hchild
    · rintro ⟨hgone, hdetached⟩
      rw [if_neg (mt hgone.1 hbelow), filter_eq_self.2 fun child hchild => ?_]
      exact decide_eq_true (hdetached hbelow child hchild)

/-- **What the walk along the lists of sub-tasks removes.** -/
theorem removesSubtree_iff {tasks : List String} (hreleases : Releases s tasks s')
    (hmem : ∀ task, task ∈ tasks ↔ Reaches s.childrenOf root task) :
    s.RemovesSubtree root s' ↔ (∀ task ∈ s.taskTree, Reaches s.childrenOf root task ↔ s.Descends root task) ∧
      ∀ task ∈ s.taskTree, ¬s.Descends root task → ∀ child ∈ s.childrenOf task, ¬s.Descends root child := by
  classical
  have htree : ∀ task, s'.taskTree.lookup task = if task ∈ tasks then none else s.taskTree.lookup task := fun task => by
    rw [hreleases.tree, lookup_foldl_erase]
  constructor
  · intro h
    have hentry : ∀ task ∈ s.taskTree, (task ∈ tasks ↔ s.Descends root task) ∧
        (¬s.Descends root task → ∀ child ∈ s.childrenOf task, ¬s.Descends root child) := fun task htask =>
      (eq_entryWithout_iff htask).1 ((htree task).symm.trans (h.tasks task))
    exact ⟨fun task htask => (hmem task).symm.trans (hentry task htask).1, fun task htask => (hentry task htask).2⟩
  · rintro ⟨hagrees, hdetached⟩
    refine ⟨fun iri => ?_, fun task => ?_⟩
    · rw [hreleases.lookup]
      refine if_congr ?_ rfl rfl
      rw [mem_flatMap]
      refine exists_congr fun task => and_congr_left fun hnode => ?_
      rw [hmem, hagrees task (mem_taskTree_of_mem_nodesOf hnode)]
    · rw [htree]
      by_cases htask : task ∈ s.taskTree
      · exact (eq_entryWithout_iff htask).2 ⟨(hmem task).trans (hagrees task htask), hdetached task htask⟩
      · unfold entryWithout
        rw [lookup_eq_none.2 htask]
        simp

/-- A call that walks along the lists of sub-tasks and removes what it meets. -/
theorem exactly_iff {call : ℕ → Option Blackboard}
    (hends : ∀ fuel tasks, s.tasksToRelease fuel root = some tasks → ∃ s', call fuel = some s')
    (hcall : ∀ fuel s', call fuel = some s' → ∃ tasks, s.tasksToRelease fuel root = some tasks ∧ Releases s tasks s') :
    s.Exactly root call ↔ s.Separable root := by
  obtain ⟨U, hU⟩ := s.exists_children
  have hmem : ∀ fuel tasks, s.tasksToRelease fuel root = some tasks →
      ∀ task, task ∈ tasks ↔ Reaches s.childrenOf root task := by
    intro fuel tasks htasks task
    rw [mem_expand htasks]
    simp
  constructor
  · rintro ⟨fuel, s', hsome, hremoves⟩
    obtain ⟨tasks, htasks, hreleases⟩ := hcall fuel s' hsome
    obtain ⟨hagrees, hdetached⟩ := (removesSubtree_iff hreleases (hmem fuel tasks htasks)).1 hremoves
    exact ⟨(exists_expand_iff hU).1 ⟨fuel, tasks, htasks⟩, hagrees, hdetached⟩
  · rintro ⟨hacyclic, hagrees, hdetached⟩
    obtain ⟨fuel, tasks, htasks⟩ := (exists_expand_iff hU).2 hacyclic
    obtain ⟨s', hsome⟩ := hends fuel tasks htasks
    obtain ⟨tasks', htasks', hreleases⟩ := hcall fuel s' hsome
    obtain rfl := some.inj (htasks.symm.trans htasks')
    exact ⟨fuel, s', hsome, (removesSubtree_iff hreleases (hmem fuel tasks htasks)).2 ⟨hagrees, hdetached⟩⟩

theorem evictSubtree_exactly_iff : (s.Exactly root fun fuel => s.evictSubtree env fuel root) ↔ s.Separable root := by
  refine exactly_iff (fun fuel tasks htasks => ?_) fun fuel s' => releases_evictSubtree
  unfold evictSubtree
  rw [htasks]
  exact ⟨_, rfl⟩

theorem releaseSubtree_exactly_iff :
    (s.Exactly root fun fuel => s.releaseSubtree env fuel root) ↔ s.Separable root := by
  refine exactly_iff (fun fuel tasks htasks => ?_) fun fuel s' => releases_releaseSubtree
  unfold releaseSubtree
  rw [htasks]
  exact ⟨_, rfl⟩

/-! ### The tasks that are collected -/

def TaskOver (s : Blackboard) (task : String) : Prop :=
  ∃ node, s.taskTree.lookup task = some node ∧ (node.status = "completed" ∨ node.status = "failed")

/-- A task that is over, with all that is below it. -/
def AllOver (s : Blackboard) (task : String) : Prop := ∀ sub, s.Descends task sub → s.TaskOver sub

/-- Calls of `gc_completed_tasks`. -/
def gcPasses (env : BlackboardEnv) (fuel : ℕ) : ℕ → Blackboard → Option Blackboard
  | 0, s => some s
  | n + 1, s => (s.gcCompletedTasks env fuel).bind (gcPasses env fuel n)

/-- After some calls there is nothing to release, and no task is over with all that is below it. -/
def GcComplete (env : BlackboardEnv) (s : Blackboard) : Prop :=
  ∃ fuel n s', gcPasses env fuel n s = some s' ∧ s'.completedTasks = [] ∧ ∀ task, ¬s'.AllOver task

/-- Each task that is over and lists sub-tasks has a task below it that is not over, by way of tasks that are
not released. -/
def HoldsBack (s : Blackboard) : Prop :=
  ∀ task, s.TaskOver task → s.childrenOf task ≠ [] → ∃ sub,
    Relation.ReflTransGen (fun parent sub => s.IsParent parent sub ∧ sub ∉ s.completedTasks) task sub ∧ ¬s.TaskOver sub

/-- A task is released if it is over and lists no sub-tasks. -/
theorem mem_completedTasks : task ∈ s.completedTasks ↔ s.TaskOver task ∧ s.childrenOf task = [] := by
  unfold completedTasks TaskOver childrenOf
  rw [mem_filterMap]
  constructor
  · rintro ⟨entry, hentry, hover⟩
    split_ifs at hover with hleaf
    cases hover
    have hnode := mem_def.1 (mem_lookup_iff.2 hentry)
    exact ⟨⟨entry.2, hnode, hleaf.1⟩, by rw [hnode, map_some, getD_some, hleaf.2]⟩
  · rintro ⟨⟨node, hnode, hover⟩, hleaf⟩
    rw [hnode] at hleaf
    exact ⟨⟨task, node⟩, mem_lookup_iff.1 hnode, if_pos ⟨hover, hleaf⟩⟩

variable {fuel : ℕ}

/-- Without sub-tasks, a task is released alone. -/
theorem lookup_evictSubtree_leaf {leaf : String} (hleaf : s.childrenOf leaf = [])
    (h : s.evictSubtree env fuel leaf = some s') (task : String) :
    s'.taskTree.lookup task = if task = leaf then none else s.taskTree.lookup task := by
  obtain ⟨tasks, htasks, hreleases⟩ := releases_evictSubtree h
  rw [hreleases.tree, lookup_foldl_erase]
  refine if_congr ?_ rfl rfl
  rw [mem_expand htasks]
  simp only [mem_singleton, exists_eq_left]
  rw [reaches_iff]
  simp [hleaf, eq_comm]

variable {leaves : List String}

/-- Tasks without sub-tasks are released one after the other. -/
theorem lookup_foldlM_evictSubtree (hleaves : ∀ leaf ∈ leaves, s.childrenOf leaf = [])
    (h : leaves.foldlM (evictSubtree env fuel) s = some s') (task : String) :
    s'.taskTree.lookup task = if task ∈ leaves then none else s.taskTree.lookup task := by
  induction leaves generalizing s with
  | nil =>
    cases h
    rfl
  | cons leaf leaves ih =>
    obtain ⟨s₁, hevict, h⟩ := bind_eq_some_iff.1 h
    have hfirst := lookup_evictSubtree_leaf (hleaves leaf mem_cons_self) hevict
    rw [ih (fun other hother => ?_) h, hfirst]
    · by_cases heq : task = leaf
      · simp [heq]
      · simp [heq]
    · have hleaf := hleaves other (mem_cons_of_mem leaf hother)
      unfold childrenOf at hleaf ⊢
      rw [hfirst]
      split_ifs
      · rfl
      · exact hleaf

/-- The release of tasks without sub-tasks ends. -/
theorem exists_foldlM_evictSubtree (env : BlackboardEnv)
    (hleaves : ∀ leaf ∈ leaves, s.childrenOf leaf = []) : ∃ s', leaves.foldlM (evictSubtree env 1) s = some s' := by
  induction leaves generalizing s with
  | nil => exact ⟨s, rfl⟩
  | cons leaf leaves ih =>
    have htasks : s.tasksToRelease 1 leaf = some [leaf] := by
      unfold tasksToRelease
      rw [expand, hleaves leaf mem_cons_self]
      rfl
    obtain ⟨s₁, hevict⟩ : ∃ s₁, s.evictSubtree env 1 leaf = some s₁ := by
      unfold evictSubtree
      rw [htasks]
      exact ⟨_, rfl⟩
    have hfirst := lookup_evictSubtree_leaf (hleaves leaf mem_cons_self) hevict
    obtain ⟨s', h⟩ := @ih s₁ fun other hother => by
      have hleaf := hleaves other (mem_cons_of_mem leaf hother)
      unfold childrenOf at hleaf ⊢
      rw [hfirst]
      split_ifs
      · rfl
      · exact hleaf
    exact ⟨s', bind_eq_some_iff.2 ⟨s₁, hevict, h⟩⟩

/-- **What one call of `gc_completed_tasks` leaves of the tree.** -/
theorem lookup_gcCompletedTasks (h : s.gcCompletedTasks env fuel = some s') (task : String) :
    s'.taskTree.lookup task = if task ∈ s.completedTasks then none else s.taskTree.lookup task :=
  lookup_foldlM_evictSubtree (fun _ hleaf => (mem_completedTasks.1 hleaf).2) h task

variable (hlookup : ∀ task, s'.taskTree.lookup task = if task ∈ s.completedTasks then none else s.taskTree.lookup task)

include hlookup

theorem taskOver_iff : s'.TaskOver task ↔ s.TaskOver task ∧ task ∉ s.completedTasks := by
  unfold TaskOver
  rw [hlookup]
  split_ifs with hin
  · simp [hin]
  · simp [hin]

theorem isParent_iff {parent task : String} :
    s'.IsParent parent task ↔ s.IsParent parent task ∧ task ∉ s.completedTasks := by
  unfold IsParent
  rw [hlookup]
  split_ifs with hin
  · simp [hin]
  · simp [hin]

/-- After one call there is nothing left to release: no list of sub-tasks has changed. -/
theorem completedTasks_eq_nil : s'.completedTasks = [] := by
  rw [eq_nil_iff_forall_not_mem]
  intro task htask
  obtain ⟨hover, hleaf⟩ := mem_completedTasks.1 htask
  obtain ⟨hover, hkept⟩ := (taskOver_iff hlookup).1 hover
  refine hkept (mem_completedTasks.2 ⟨hover, ?_⟩)
  unfold childrenOf at hleaf ⊢
  rwa [hlookup, if_neg hkept] at hleaf

/-- **What is over with all that is below it**, once the tasks are released. -/
theorem forall_not_allOver_iff : (∀ task, ¬s'.AllOver task) ↔ s.HoldsBack := by
  have hdescends : ∀ {task sub : String}, s'.Descends task sub ↔
      Relation.ReflTransGen (fun parent sub => s.IsParent parent sub ∧ sub ∉ s.completedTasks) task sub := by
    intro task sub
    have hrel : s'.IsParent = fun parent sub => s.IsParent parent sub ∧ sub ∉ s.completedTasks :=
      funext fun parent => funext fun sub => propext (isParent_iff hlookup)
    rw [Descends, hrel]
  constructor
  · intro h task hover hchildren
    have hkept : task ∉ s.completedTasks := fun hin => hchildren (mem_completedTasks.1 hin).2
    have hnot := h task
    unfold AllOver at hnot
    push Not at hnot
    obtain ⟨sub, hbelow, hnot⟩ := hnot
    refine ⟨sub, hdescends.1 hbelow, fun hsub => hnot ((taskOver_iff hlookup).2 ⟨hsub, ?_⟩)⟩
    rcases Relation.ReflTransGen.cases_tail (hdescends.1 hbelow) with rfl | ⟨parent, -, -, hkept⟩
    · exact hkept
    · exact hkept
  · intro h task hall
    obtain ⟨hover, hkept⟩ := (taskOver_iff hlookup).1 (hall task .refl)
    obtain ⟨sub, hbelow, hnot⟩ := h task hover fun hleaf => hkept (mem_completedTasks.2 ⟨hover, hleaf⟩)
    exact hnot ((taskOver_iff hlookup).1 (hall sub (hdescends.2 hbelow))).1

omit hlookup

theorem gcPasses_of_nothing (hnone : s.completedTasks = []) (fuel n : ℕ) : gcPasses env fuel n s = some s := by
  induction n with
  | zero => rfl
  | succ n ih =>
    have hidle : s.gcCompletedTasks env fuel = some s := by
      unfold gcCompletedTasks
      rw [hnone]
      rfl
    rw [gcPasses, hidle]
    exact ih

/-- All calls together leave what the first of them leaves. -/
theorem lookup_gcPasses {fuel n : ℕ} (h : gcPasses env fuel n s = some s') (hnone : s'.completedTasks = [])
    (task : String) : s'.taskTree.lookup task = if task ∈ s.completedTasks then none else s.taskTree.lookup task := by
  cases n with
  | zero =>
    cases h
    simp [hnone]
  | succ n =>
    obtain ⟨s₁, hfirst, h⟩ := bind_eq_some_iff.1 h
    have hlookup := lookup_gcCompletedTasks hfirst
    rw [gcPasses_of_nothing (completedTasks_eq_nil hlookup)] at h
    exact some.inj h ▸ hlookup task

theorem gcComplete_iff : GcComplete env s ↔ s.HoldsBack := by
  constructor
  · rintro ⟨fuel, n, s', hpasses, hnone, hall⟩
    exact (forall_not_allOver_iff (lookup_gcPasses hpasses hnone)).1 hall
  · intro h
    obtain ⟨s', hfirst⟩ := exists_foldlM_evictSubtree env fun _ hleaf => (mem_completedTasks.1 hleaf).2
    have hlookup := lookup_gcCompletedTasks hfirst
    refine ⟨1, 1, s', ?_, completedTasks_eq_nil hlookup, (forall_not_allOver_iff hlookup).2 h⟩
    exact bind_eq_some_iff.2 ⟨s', hfirst, rfl⟩

/-- **When subtrees are removed exactly**, for any tree. -/
theorem subtreeRemoval_iff (env : BlackboardEnv) (s : Blackboard) :
    (∀ root, ((s.Exactly root fun fuel => s.evictSubtree env fuel root) ↔ s.Separable root) ∧
      ((s.Exactly root fun fuel => s.releaseSubtree env fuel root) ↔ s.Separable root)) ∧
    (GcComplete env s ↔ s.HoldsBack) :=
  ⟨fun _ => ⟨evictSubtree_exactly_iff, releaseSubtree_exactly_iff⟩, gcComplete_iff⟩

/-! ### Trees that are not cleared -/

/-- A task with a sub-task. -/
def twoTasks : Blackboard := (new.registerTask "iri://task/a" none).registerTask "iri://task/b" (some "iri://task/a")

def twoCompleted : Blackboard :=
  (twoTasks.completeTask "iri://task/a" "completed").completeTask "iri://task/b" "completed"

/-- A task that is its own parent. -/
def ownParent : Blackboard := new.registerTask "iri://task/a" (some "iri://task/a")

/-- The walk below a task that is its own parent does not end, the task above keeps a sub-task that was evicted
in its list, and so it is not released when both are completed. -/
theorem not_subtreeRemoval :
    (¬ownParent.Exactly "iri://task/a" fun fuel => ownParent.evictSubtree sampleBoard fuel "iri://task/a") ∧
      (¬twoTasks.Exactly "iri://task/b" fun fuel => twoTasks.evictSubtree sampleBoard fuel "iri://task/b") ∧
        ¬GcComplete sampleBoard twoCompleted := by
  refine ⟨fun h => ?_, fun h => ?_, fun h => ?_⟩
  · refine (evictSubtree_exactly_iff.1 h).acyclic ⟨"iri://task/a", .refl, .single ?_⟩
    decide
  · have hroot : ¬twoTasks.Descends "iri://task/b" "iri://task/a" := by
      intro hbelow
      rcases Relation.ReflTransGen.cases_tail hbelow with heq | ⟨parent, -, node, hnode, hparent⟩
      · exact absurd heq (by decide)
      · have hnone : (twoTasks.taskTree.lookup "iri://task/a").bind TaskTreeNode.parent = none := by decide
        rw [hnode] at hnone
        exact absurd (hparent.symm.trans hnone) (some_ne_none parent)
    exact (evictSubtree_exactly_iff.1 h).detached "iri://task/a" (by decide) hroot "iri://task/b" (by decide) .refl
  · have hover : ∀ task ∈ twoCompleted.taskTree.keys, twoCompleted.TaskOver task := by
      have hkeys : twoCompleted.taskTree.keys = ["iri://task/b", "iri://task/a"] := by decide
      rw [hkeys]
      intro task htask
      rcases mem_cons.1 htask with rfl | htask
      · exact ⟨_, rfl, .inl rfl⟩
      · obtain rfl := mem_singleton.1 htask
        exact ⟨_, rfl, .inl rfl⟩
    have ha := hover "iri://task/a" (by decide)
    obtain ⟨sub, hbelow, hnot⟩ := gcComplete_iff.1 h "iri://task/a" ha (by decide)
    rcases Relation.ReflTransGen.cases_tail hbelow with rfl | ⟨parent, -, ⟨node, hnode, -⟩, -⟩
    · exact hnot ha
    · exact hnot (hover sub (AList.mem_keys.1 (lookup_isSome.1 (hnode ▸ rfl))))

end WildAgentOs.Memory.Blackboard
