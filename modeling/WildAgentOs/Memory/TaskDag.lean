import WildAgentOs.Lib.Kahn
import WildAgentOs.Memory.Blackboard

/-!
# The layers of a task's graph

`memory/l2_blackboard.rs`: the dependencies between tasks, and `get_task_dag`.

* `addTaskDependency`, `removeTaskDependency`, `getTaskDag`, `TreeStep`, `getTaskDag_layered`.
-/

namespace WildAgentOs.Memory

open Worklist Kahn List

/-- The order in which a set of tasks is walked. -/
structure TaskOrder where
  tasks : List String → List String
  tasks_perm : ∀ l, (tasks l).Perm l

namespace Blackboard

/-- `get_mut`: an entry of the tree is changed, if it is there. -/
def changeTask (s : Blackboard) (taskIri : String) (f : TaskTreeNode → TaskTreeNode) : Blackboard :=
  match s.taskTree.lookup taskIri with
  | some node => { s with taskTree := s.taskTree.insert taskIri (f node) }
  | none => s

def addTaskDependency (s : Blackboard) (taskIri dependsOn : String) : Blackboard :=
  (s.changeTask taskIri fun node => { node with dependencies := pushNew node.dependencies dependsOn }).changeTask
    dependsOn fun node => { node with dependents := pushNew node.dependents taskIri }

def removeTaskDependency (s : Blackboard) (taskIri dependsOn : String) : Blackboard :=
  (s.changeTask taskIri fun node =>
    { node with dependencies := node.dependencies.filter (· ≠ dependsOn) }).changeTask
      dependsOn fun node => { node with dependents := node.dependents.filter (· ≠ taskIri) }

/-- The tasks that an entry of the tree names, in the order in which they are put in the queue. -/
def linksOf (s : Blackboard) (taskIri : String) : List String :=
  match s.taskTree.lookup taskIri with
  | some node => node.dependencies ++ node.dependents ++ node.children ++ node.parent.toList
  | none => []

/-- The tasks that must be finished before a task: its dependencies, and its parent. -/
def precedents (s : Blackboard) (taskIri : String) : List String :=
  match s.taskTree.lookup taskIri with
  | some node => node.dependencies ++ node.parent.toList
  | none => []

/-- `get_task_dag`; the fuel is that of its two loops.  A layer is sorted. -/
def getTaskDag (order : TaskOrder) (fuel : ℕ) (s : Blackboard) (taskIri : String) : Option (List (List String)) := do
  let reachable ← search s.linksOf fuel [] [taskIri]
  layersOf s.precedents (order.tasks reachable) (List.mergeSort · fun a b => decide (a ≤ b)) fuel

end Blackboard

/-- A change of the tree. -/
inductive TreeStep
  | registerTask (taskIri : String) (parent : Option String)
  | addTaskDependency (taskIri dependsOn : String)
  | removeTaskDependency (taskIri dependsOn : String)
  deriving DecidableEq

namespace Blackboard

def treeStep (s : Blackboard) : TreeStep → Blackboard
  | .registerTask taskIri parent => s.registerTask taskIri parent
  | .addTaskDependency taskIri dependsOn => s.addTaskDependency taskIri dependsOn
  | .removeTaskDependency taskIri dependsOn => s.removeTaskDependency taskIri dependsOn

def buildTree (steps : List TreeStep) : Blackboard := steps.foldl treeStep .new

/-- The task is linked with the other one, directly or not. -/
def Linked (s : Blackboard) : String → String → Prop := Reaches s.linksOf

/-- The layers are those of the tasks that are linked with a task. -/
def DagLayered (s : Blackboard) (taskIri : String) (layers : List (List String)) : Prop :=
  IsLayering s.precedents (s.Linked taskIri) layers

variable {s : Blackboard}

/-- What precedes a task is linked with it. -/
theorem mem_linksOf_of_mem_precedents {taskIri before : String} (h : before ∈ s.precedents taskIri) :
    before ∈ s.linksOf taskIri := by
  unfold precedents at h
  unfold linksOf
  cases hnode : s.taskTree.lookup taskIri with
  | none =>
    rw [hnode] at h
    exact absurd h not_mem_nil
  | some node =>
    simp only [hnode, mem_append] at h ⊢
    tauto

/-- All links are to finitely many tasks. -/
theorem exists_links (s : Blackboard) : ∃ U : Finset String, ∀ a, ∀ b ∈ s.linksOf a, b ∈ U := by
  refine ⟨(s.taskTree.keys.flatMap s.linksOf).toFinset, fun a b hb => ?_⟩
  rw [mem_toFinset, mem_flatMap]
  refine ⟨a, ?_, hb⟩
  by_contra hkey
  rw [← AList.mem_keys, ← AList.lookup_eq_none] at hkey
  unfold linksOf at hb
  rw [hkey] at hb
  exact not_mem_nil hb

/-- **The layers of any tree.** -/
theorem exists_getTaskDag (order : TaskOrder) (s : Blackboard) (taskIri : String) : ∃ bound, ∀ fuel, bound ≤ fuel →
      ∃ layers, s.getTaskDag order fuel taskIri = some layers ∧ s.DagLayered taskIri layers := by
  obtain ⟨U, hU⟩ := s.exists_links
  let V := insert taskIri U
  have hV : ∀ a, ∀ b ∈ s.linksOf a, b ∈ V := fun a b hb => Finset.mem_insert_of_mem (hU a b hb)
  refine ⟨1 + ∑ a ∈ V, (s.linksOf a).length + V.card, fun fuel hfuel => ?_⟩
  obtain ⟨reachable, hsearch⟩ : ∃ l, search s.linksOf fuel [] [taskIri] = some l := by
    refine exists_search hV (fun a ha => ?_) ?_
    · exact mem_singleton.1 ha ▸ Finset.mem_insert_self taskIri U
    · rw [toFinset_nil, Finset.sdiff_empty, length_singleton]
      omega
  obtain ⟨hnodup, hmem⟩ := mem_search hsearch
  have hsub : reachable.toFinset ⊆ V := by
    intro a ha
    rcases Relation.ReflTransGen.cases_tail ((hmem a).1 (mem_toFinset.1 ha)) with rfl | ⟨b, -, hlink⟩
    · exact Finset.mem_insert_self _ _
    · exact hV b a hlink
  have hperm := order.tasks_perm reachable
  have hlength : (order.tasks reachable).length ≤ fuel := by
    have hcard := Finset.card_le_card hsub
    rw [toFinset_card_of_nodup hnodup] at hcard
    rw [hperm.length_eq]
    omega
  -- What precedes a task that is reached is reached.
  have hclosed : ∀ a ∈ order.tasks reachable, ∀ b ∈ s.precedents a, b ∈ order.tasks reachable := by
    intro a ha b hb
    rw [hperm.mem_iff, hmem] at ha ⊢
    exact ha.tail (mem_linksOf_of_mem_precedents hb)
  obtain ⟨layers, hlayers, hlayered⟩ := layered_layersOf (hperm.nodup_iff.2 hnodup) hclosed
    (fun l => mergeSort_perm l fun a b => decide (a ≤ b)) hlength
  refine ⟨layers, ?_, ?_⟩
  · unfold getTaskDag
    rw [hsearch]
    exact hlayers
  · have hlayering := hlayered.isLayering hclosed
    simp only [hperm.mem_iff, hmem] at hlayering
    exact hlayering

end Blackboard

/-- The graph of a task in a tree, as it was built, is cut in layers. -/
theorem getTaskDag_layered (order : TaskOrder) (steps : List TreeStep) (taskIri : String) :
    ∃ bound, ∀ fuel, bound ≤ fuel →
      ∃ layers, (Blackboard.buildTree steps).getTaskDag order fuel taskIri = some layers ∧
        (Blackboard.buildTree steps).DagLayered taskIri layers :=
  Blackboard.exists_getTaskDag order _ taskIri

end WildAgentOs.Memory
