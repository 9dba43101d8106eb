import WildAgentOs.Lib.PostOrder
import WildAgentOs.SkillGraph.GraphStore

/-!
# Dependencies of a skill

`skill_graph/graph_store.rs`, `resolve_dependencies`: the depth-first walk along the links to prerequisites, whether
they are registered or not.

* `resolveDependencies`, with fuel for the depth of the recursion;
* `Requires`, `IsDependencyOrder`, `resolveDependencies_spec`.
-/

namespace WildAgentOs.SkillGraph.SkillGraphStore

open Worklist

/-- The targets of the links to prerequisites, in their order. -/
def prerequisites (s : SkillGraphStore) (iri : String) : List String :=
  match s.skills.lookup iri with
  | some skill => (skill.links.filter (·.linkType = .prerequisite)).map (·.targetIri)
  | none => []

/-- `resolve_dependencies_recursive`, from the result and the visited IRIs so far. -/
def resolveDependenciesRecursive (s : SkillGraphStore) (fuel : ℕ) (skillIri : String)
    (state : List String × List String) : Option (List String × List String) :=
  PostOrder.visit s.prerequisites fuel skillIri state

def resolveDependencies (s : SkillGraphStore) (fuel : ℕ) (skillIri : String) : Option (List String) :=
  (s.resolveDependenciesRecursive fuel skillIri ([], [])).map (·.1)

/-- A registered skill has a link to this one as its prerequisite. -/
def Requires (s : SkillGraphStore) (iri prerequisite : String) : Prop :=
  ∃ skill, s.skills.lookup iri = some skill ∧
    ∃ link ∈ skill.links, link.linkType = .prerequisite ∧ link.targetIri = prerequisite

/-- The skill and what it requires, each once and the skill last; and where these links have no cycle, each skill
after its prerequisites. -/
structure IsDependencyOrder (s : SkillGraphStore) (iri : String) (l : List String) : Prop where
  nodup : l.Nodup
  last : l.getLast? = some iri
  mem : ∀ x, x ∈ l ↔ Relation.ReflTransGen s.Requires iri x
  ordered : (∀ x, Relation.ReflTransGen s.Requires iri x → ¬Relation.TransGen s.Requires x x) →
    ∀ before x after, l = before ++ x :: after → ∀ prerequisite, s.Requires x prerequisite → prerequisite ∈ before

variable {s : SkillGraphStore} {iri : String}

theorem mem_prerequisites {prerequisite : String} :
    prerequisite ∈ s.prerequisites iri ↔ s.Requires iri prerequisite := by
  unfold prerequisites Requires
  cases s.skills.lookup iri with
  | none => simp
  | some skill => simp [and_assoc]

theorem reaches_prerequisites {x : String} :
    Reaches s.prerequisites iri x ↔ Relation.ReflTransGen s.Requires iri x := by
  have hsame : (fun a b => b ∈ s.prerequisites a) = s.Requires := by
    funext a b
    exact propext mem_prerequisites
  unfold Reaches
  rw [hsame]

/-- The places of a walk: its start, and the targets of all links to prerequisites. -/
theorem exists_places (s : SkillGraphStore) (iri : String) :
    ∃ U : Finset String, iri ∈ U ∧ ∀ a ∈ U, ∀ b ∈ s.prerequisites a, b ∈ U := by
  refine ⟨insert iri (s.skills.keys.flatMap s.prerequisites).toFinset, by simp, fun a _ b hb => ?_⟩
  obtain ⟨skill, hskill, -⟩ := mem_prerequisites.1 hb
  have hkey : a ∈ s.skills.keys := AList.mem_keys.1 (AList.lookup_isSome.1 (by rw [hskill]; rfl))
  exact Finset.mem_insert_of_mem (List.mem_toFinset.2 (List.mem_flatMap.2 ⟨a, hkey, hb⟩))

/-- **The dependencies of a skill** are resolved, with enough fuel, to one order of what it requires. -/
theorem resolveDependencies_spec (s : SkillGraphStore) (iri : String) :
    ∃ bound, ∀ fuel, bound ≤ fuel → ∃ l, s.resolveDependencies fuel iri = some l ∧ s.IsDependencyOrder iri l := by
  obtain ⟨U, hiri, hU⟩ := s.exists_places iri
  refine ⟨U.card + 1, fun fuel hfuel => ?_⟩
  have hless : (U \ ([] : List String).toFinset).card < fuel := by
    simp
    omega
  obtain ⟨⟨l, seen⟩, hvisit⟩ := @PostOrder.exists_visit _ _ _ U hU fuel iri hiri ([], []) hless
  obtain ⟨hnodup, hlast, hmem, hbefore⟩ := PostOrder.postOrder hvisit
  have hreaches : ∀ x, x ∈ l ↔ Relation.ReflTransGen s.Requires iri x := fun x => by
    rw [hmem, reaches_prerequisites]
  refine ⟨l, Option.map_eq_some_iff.2 ⟨_, hvisit, rfl⟩, hnodup, hlast, hreaches, ?_⟩
  intro hacyclic before x after hsplit prerequisite hrequires
  refine (hbefore before x after hsplit prerequisite (mem_prerequisites.2 hrequires)).resolve_right fun hback => ?_
  have hx : Relation.ReflTransGen s.Requires iri x := (hreaches x).1 (by simp [hsplit])
  exact hacyclic x hx (Relation.TransGen.head' hrequires (reaches_prerequisites.1 hback))

end WildAgentOs.SkillGraph.SkillGraphStore
