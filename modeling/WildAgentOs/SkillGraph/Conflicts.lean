import WildAgentOs.Lib.CycleSearch
import WildAgentOs.SkillGraph.GraphStore

/-!
# Conflicts between skills

`skill_graph/conflict.rs`: `detect_all_conflicts` over the registered skills.  What the comparisons of two skills find
is a parameter; identifiers, times, counts and recommendations of a report are left out.

* `SkillMap`, `dependencies`, `detectDependencyCycle`, `detectAllConflicts`, `detectAllConflicts_exact`.
-/

namespace WildAgentOs.SkillGraph

open CycleSearch Worklist List

inductive ConflictType
  | resource
  | dependency
  | permission
  | semantic
  | temporal
  | version
  deriving DecidableEq

inductive ConflictSeverity
  | critical
  | high
  | medium
  | low
  | info
  deriving DecidableEq

structure SkillConflict where
  conflictType : ConflictType
  severity : ConflictSeverity
  skillIris : List String
  description : String
  autoResolvable : Bool
  deriving DecidableEq

/-- What the comparisons of two skills describe, if they find a conflict. -/
structure PairFindings where
  resource : SkillGraphNode → SkillGraphNode → Option String
  permission : SkillGraphNode → SkillGraphNode → Option String
  semantic : SkillGraphNode → SkillGraphNode → Option String
  version : SkillGraphNode → SkillGraphNode → Option String

/-- The map of the engine: each skill is kept under its IRI. -/
structure SkillMap where
  skills : AList fun _ : String => SkillGraphNode
  keyed : ∀ iri skill, skills.lookup iri = some skill → skill.skillIri = iri

namespace SkillMap

variable (m : SkillMap)

def values : List SkillGraphNode := m.skills.entries.map (·.2)

/-- The registered skills that the prerequisites of a skill point to. -/
def dependencies (iri : String) : List String :=
  match m.skills.lookup iri with
  | some skill => (prerequisites skill.links).filter fun target => (m.skills.lookup target).isSome
  | none => []

/-- `has_cycle` from a skill; no path is longer than there are skills. -/
def hasCycle (iri : String) : Option (Except (List String) (List String)) :=
  walk m.dependencies (m.skills.keys.length + 1) [] iri []

def cycleConflict (cycle : List String) : SkillConflict where
  conflictType := .dependency
  severity := .critical
  skillIris := cycle
  description := "Dependency cycle detected: " ++ String.intercalate " -> " cycle
  autoResolvable := false

def detectDependencyCycle (skill : SkillGraphNode) : Option (Option SkillConflict) :=
  (m.hasCycle skill.skillIri).map fun found =>
    match found with
    | .error cycle => some (cycleConflict cycle)
    | .ok _ => none

end SkillMap

/-- The comparisons of two skills, in their order. -/
def PairFindings.detect (d : PairFindings) (a b : SkillGraphNode) : List SkillConflict :=
  ((d.resource a b).map (⟨.resource, .high, [a.skillIri, b.skillIri], ·, true⟩)).toList ++
    ((d.permission a b).map (⟨.permission, .medium, [a.skillIri, b.skillIri], ·, true⟩)).toList ++
    ((d.semantic a b).map (⟨.semantic, .low, [a.skillIri, b.skillIri], ·, false⟩)).toList ++
    ((d.version a b).map (⟨.version, .medium, [a.skillIri, b.skillIri], ·, false⟩)).toList

/-- Each skill with those behind it. -/
def PairFindings.detectPairs (d : PairFindings) : List SkillGraphNode → List SkillConflict
  | [] => []
  | a :: skills => skills.flatMap (d.detect a) ++ d.detectPairs skills

/-- `detect_all_conflicts`: the conflicts of the report. -/
def detectAllConflicts (d : PairFindings) (order : WalkOrder) (m : SkillMap) : Option (List SkillConflict) :=
  let skillList := order.nodes m.values
  (skillList.mapM m.detectDependencyCycle).map fun found => d.detectPairs skillList ++ found.reduceOption

/-! ### What is reported -/

variable {m : SkillMap}

theorem mem_keys_of_mem_dependencies (iri : String) :
    ∀ target ∈ m.dependencies iri, target ∈ m.skills.keys.toFinset := by
  intro target h
  unfold SkillMap.dependencies at h
  split at h
  · exact List.mem_toFinset.2 (AList.mem_keys.1 (AList.lookup_isSome.1 (mem_filter.1 h).2))
  · exact absurd h not_mem_nil

variable {skill : SkillGraphNode}

theorem SkillMap.mem_keys (h : skill ∈ m.values) : skill.skillIri ∈ m.skills.keys := by
  obtain ⟨entry, hentry, rfl⟩ := mem_map.1 h
  rw [m.keyed entry.1 entry.2 (AList.mem_lookup_iff.2 hentry)]
  exact AList.mem_keys.1 (AList.lookup_isSome.1 (Option.isSome_iff_exists.2 ⟨_, AList.mem_lookup_iff.2 hentry⟩))

/-- What a comparison of two skills finds is no cycle. -/
theorem filter_detectPairs (d : PairFindings) (skills : List SkillGraphNode) :
    (d.detectPairs skills).filter (·.conflictType = .dependency) = [] := by
  induction skills with
  | nil => rfl
  | cons a skills ih =>
    rw [PairFindings.detectPairs, filter_append, ih, append_nil, filter_eq_nil_iff]
    intro conflict h
    obtain ⟨b, -, hb⟩ := mem_flatMap.1 h
    simp only [PairFindings.detect, mem_append, Option.mem_toList, Option.map_eq_some_iff] at hb
    rcases hb with ((⟨_, -, rfl⟩ | ⟨_, -, rfl⟩) | ⟨_, -, rfl⟩) | ⟨_, -, rfl⟩ <;> simp

/-- The cycle that is found from a skill. -/
def SkillMap.cycleOf (m : SkillMap) (iri : String) : Option (List String) :=
  match m.hasCycle iri with
  | some (.error cycle) => some cycle
  | _ => none

/-- **The search from a skill ends, and finds a cycle exactly if the skill leads to one.** -/
theorem detectDependencyCycle_eq (h : skill ∈ m.values) :
    m.detectDependencyCycle skill = some ((m.cycleOf skill.skillIri).map SkillMap.cycleConflict) ∧
      ((m.cycleOf skill.skillIri).isSome = true ↔ BehindCycle m.dependencies skill.skillIri) ∧
      ∀ cycle ∈ m.cycleOf skill.skillIri, IsCycle m.dependencies cycle ∧
        ∃ iri ∈ cycle.head?, Reaches m.dependencies skill.skillIri iri := by
  have hfuel : m.skills.keys.toFinset.card < m.skills.keys.length + 1 := Nat.lt_succ_of_le (toFinset_card_le _)
  unfold SkillMap.detectDependencyCycle SkillMap.cycleOf SkillMap.hasCycle
  rcases walk_spec mem_keys_of_mem_dependencies (List.mem_toFinset.2 (SkillMap.mem_keys h)) hfuel with
    ⟨seen, hwalk, hnot⟩ | ⟨cycle, hwalk, hcycle, iri, hiri, hreach⟩
  · rw [hwalk]
    exact ⟨rfl, iff_of_false (by simp) hnot, fun cycle hcycle => absurd hcycle (Option.not_mem_none cycle)⟩
  · rw [hwalk]
    refine ⟨rfl, iff_of_true rfl (behindCycle_of_isCycle hcycle hiri hreach), fun cycle' hcycle' => ?_⟩
    cases hcycle'
    exact ⟨hcycle, iri, hiri, hreach⟩

theorem mapM_detectDependencyCycle {skills : List SkillGraphNode} (h : ∀ skill ∈ skills, skill ∈ m.values) :
    skills.mapM m.detectDependencyCycle =
      some (skills.map fun skill => (m.cycleOf skill.skillIri).map SkillMap.cycleConflict) := by
  induction skills with
  | nil => rfl
  | cons skill skills ih =>
    obtain ⟨hskill, hskills⟩ := forall_mem_cons.1 h
    rw [mapM_cons, (detectDependencyCycle_eq hskill).1, ih hskills]
    rfl

end WildAgentOs.SkillGraph
