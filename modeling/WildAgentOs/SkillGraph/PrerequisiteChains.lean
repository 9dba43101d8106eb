import WildAgentOs.Lib.SimplePaths
import WildAgentOs.SkillGraph.IndexScan

/-!
# Chains of prerequisites

`skill_graph/graph_algorithms.rs`: the graph of the registered skills and `prerequisite_chain`.  A node is
named by the IRI of its skill.

* `SkillGraphAlgorithms`, `fromStore`, `prerequisiteChain`, `Declares`, `MaximalChain`;
* `mem_prerequisiteChain`, `chainsExact_iff`.
-/

namespace WildAgentOs.SkillGraph

open SimplePaths List

/-- The graph: its nodes, and its edges in the order in which they were added. -/
structure SkillGraphAlgorithms where
  nodes : List String
  edges : List (String × String × SkillLinkType)
  deriving DecidableEq

namespace SkillGraphAlgorithms

/-- `from_store`, for the skills in the order in which they are listed.  A link to what is no node gives no
edge. -/
def fromSkills (skills : List SkillGraphNode) : SkillGraphAlgorithms where
  nodes := skills.map (·.skillIri)
  edges := skills.flatMap fun skill => skill.links.filterMap fun link =>
    if link.targetIri ∈ skills.map (·.skillIri) then some (skill.skillIri, link.targetIri, link.linkType)
    else none

def fromStore (order : WalkOrder) (s : SkillGraphStore) : SkillGraphAlgorithms := fromSkills (order.nodes s.values)

/-- The sources of the incoming edges that are prerequisites, the last edge first. -/
def prerequisiteEdges (g : SkillGraphAlgorithms) (node : String) : List String :=
  (g.edges.reverse.filter fun edge => edge.2.1 = node ∧ edge.2.2 = .prerequisite).map (·.1)

/-- `prerequisite_chain`; the fuel bounds the length of the paths. -/
def prerequisiteChain (fuel : ℕ) (g : SkillGraphAlgorithms) (skillIri : String) : Option (List (List String)) :=
  if skillIri ∈ g.nodes then collect g.prerequisiteEdges fuel [skillIri] skillIri else some []

end SkillGraphAlgorithms

namespace SkillGraphStore

variable (s : SkillGraphStore)

/-- The skill is registered. -/
def Registered (iri : String) : Prop := ∃ skill ∈ s.values, skill.skillIri = iri

/-- A registered skill declares a registered skill as its prerequisite. -/
def Declares (iri prerequisite : String) : Prop :=
  (∃ skill ∈ s.values, skill.skillIri = iri ∧
    ∃ link ∈ skill.links, link.linkType = .prerequisite ∧ link.targetIri = prerequisite) ∧
  s.Registered prerequisite

/-- A simple path from a skill on, each time to a prerequisite, that cannot go on. -/
structure MaximalChain (iri : String) (path : List String) : Prop where
  starts : path.head? = some iri
  simple : IsSimple s.Declares path
  maximal : ∀ last, path.getLast? = some last → ∀ prerequisite, s.Declares last prerequisite → prerequisite ∈ path

/-- The search ends, and finds each maximal chain once and nothing else. -/
def ChainsExact (order : WalkOrder) (iri : String) : Prop :=
  ∀ fuel, (SkillGraphAlgorithms.fromStore order s).nodes.length < fuel →
    ∃ chains, (SkillGraphAlgorithms.fromStore order s).prerequisiteChain fuel iri = some chains ∧
      chains.Nodup ∧ ∀ path, path ∈ chains ↔ s.MaximalChain iri path

variable {s} {order : WalkOrder} {iri : String}

theorem mem_nodes : iri ∈ (SkillGraphAlgorithms.fromStore order s).nodes ↔ s.Registered iri := by
  show iri ∈ (order.nodes s.values).map (·.skillIri) ↔ _
  simp only [mem_map, (order.nodes_perm s.values).mem_iff, Registered]

variable {source : String}

/-- The edges go from a skill to its prerequisite, and the search goes against them. -/
theorem mem_prerequisiteEdges :
    source ∈ (SkillGraphAlgorithms.fromStore order s).prerequisiteEdges iri ↔ s.Declares source iri := by
  unfold SkillGraphAlgorithms.prerequisiteEdges SkillGraphAlgorithms.fromStore SkillGraphAlgorithms.fromSkills
  simp only [mem_map, mem_filter, mem_reverse, mem_flatMap, mem_filterMap,
    (order.nodes_perm s.values).mem_iff, decide_eq_true_eq]
  constructor
  · rintro ⟨⟨_, _, _⟩, ⟨⟨skill, hskill, link, hlink, hedge⟩, rfl, rfl⟩, rfl⟩
    split_ifs at hedge with htarget
    obtain ⟨rfl, rfl, htype⟩ := by simpa using hedge
    exact ⟨⟨skill, hskill, rfl, link, hlink, htype, rfl⟩, htarget⟩
  · rintro ⟨⟨skill, hskill, rfl, link, hlink, htype, rfl⟩, htarget⟩
    refine ⟨⟨skill.skillIri, link.targetIri, .prerequisite⟩, ⟨⟨skill, hskill, link, hlink, ?_⟩, rfl, rfl⟩, rfl⟩
    exact (if_pos htarget).trans (by rw [htype])

/-- A node has no incoming edge exactly if no skill declares it. -/
theorem prerequisiteEdges_eq_nil : (SkillGraphAlgorithms.fromStore order s).prerequisiteEdges iri = [] ↔
    ∀ source, ¬s.Declares source iri := by
  rw [eq_nil_iff_forall_not_mem]
  exact forall_congr' fun source => not_congr mem_prerequisiteEdges

/-- All places are nodes. -/
theorem mem_nodes_of_edge (h : source ∈ (SkillGraphAlgorithms.fromStore order s).prerequisiteEdges iri) :
    source ∈ (SkillGraphAlgorithms.fromStore order s).nodes.toFinset := by
  obtain ⟨⟨skill, hskill, hiri, -⟩, -⟩ := mem_prerequisiteEdges.1 h
  exact mem_toFinset.2 (mem_nodes.2 ⟨skill, hskill, hiri⟩)

variable {fuel : ℕ}

/-- **The search ends**: no path is longer than there are nodes. -/
theorem exists_prerequisiteChain (hfuel : (SkillGraphAlgorithms.fromStore order s).nodes.length < fuel)
    (iri : String) : ∃ chains, (SkillGraphAlgorithms.fromStore order s).prerequisiteChain fuel iri = some chains := by
  unfold SkillGraphAlgorithms.prerequisiteChain
  split_ifs with hnode
  · refine exists_collect (fun _ _ => mem_nodes_of_edge) ?_ (nodup_singleton iri) ?_
    · intro a ha
      exact mem_toFinset.2 (mem_singleton.1 ha ▸ hnode)
    · have hle := (SkillGraphAlgorithms.fromStore order s).nodes.toFinset_card_le
      rw [length_singleton]
      omega
  · exact ⟨[], rfl⟩

variable {path : List String}

/-- **What is found**: the simple paths against the links, up to a skill that no skill declares. -/
theorem mem_prerequisiteChain {chains : List (List String)} (hregistered : s.Registered iri)
    (h : (SkillGraphAlgorithms.fromStore order s).prerequisiteChain fuel iri = some chains) :
    path ∈ chains ↔ path.head? = some iri ∧ IsSimple (fun a b => s.Declares b a) path ∧
      ∀ last, path.getLast? = some last → ∀ source, ¬s.Declares source last := by
  unfold SkillGraphAlgorithms.prerequisiteChain at h
  rw [if_pos (mem_nodes.2 hregistered)] at h
  rw [mem_collect h rfl ⟨isChain_singleton iri, nodup_singleton iri⟩]
  simp only [mem_prerequisiteEdges, prerequisiteEdges_eq_nil]
  refine and_congr_left fun _ => ?_
  cases path with
  | nil => simp
  | cons first rest =>
    rw [cons_prefix_cons, head?_cons, Option.some_inj]
    exact ⟨fun h => h.1.symm, fun h => ⟨h.symm, nil_prefix⟩⟩

/-- A skill starts a maximal chain. -/
theorem exists_maximalChain (s : SkillGraphStore) (hregistered : s.Registered iri) :
    ∃ path, s.MaximalChain iri path := by
  classical
  have hU : ∀ a b, s.Declares a b → b ∈ (s.values.map (·.skillIri)).toFinset := by
    rintro a b ⟨-, skill, hskill, rfl⟩
    exact mem_toFinset.2 (mem_map_of_mem hskill)
  obtain ⟨path, hpre, hsimple, hend⟩ := exists_maximal hU (cons_ne_nil iri []) (fun a ha => by
    obtain ⟨skill, hskill, hiri⟩ := hregistered
    exact mem_toFinset.2 (mem_singleton.1 ha ▸ hiri ▸ mem_map_of_mem hskill))
    ⟨isChain_singleton iri, nodup_singleton iri⟩
  refine ⟨path, ⟨?_, hsimple, hend⟩⟩
  obtain ⟨rest, rfl⟩ := hpre
  rfl

/-- A chain of more than one skill ends with a skill that another declares. -/
theorem MaximalChain.declared (h : s.MaximalChain iri path) (hne : path ≠ [iri]) :
    ∃ last source, path.getLast? = some last ∧ s.Declares source last := by
  obtain ⟨rest, rfl⟩ := head?_eq_some_iff.1 h.starts
  cases rest using reverseRecOn with
  | nil => exact absurd rfl hne
  | append_singleton front last _ =>
    have hchain := h.simple.chain
    rw [← cons_append, isChain_append] at hchain
    obtain ⟨source, hsource⟩ := Option.ne_none_iff_exists'.1 (mt getLast?_eq_none_iff.1 (cons_ne_nil iri front))
    refine ⟨last, source, ?_, hchain.2.2 source hsource last rfl⟩
    rw [← cons_append, getLast?_concat]

/-- **When the chains that are found are the maximal chains**: the search goes against the links, so only where the
skill has no prerequisite among the registered skills and is none. -/
theorem chainsExact_iff (hregistered : s.Registered iri) :
    s.ChainsExact order iri ↔ ∀ other, ¬s.Declares iri other ∧ ¬s.Declares other iri := by
  constructor
  · intro hexact
    obtain ⟨chains, hchains, -, hmem⟩ := hexact _ (Nat.lt_succ_self _)
    obtain ⟨path, hpath⟩ := s.exists_maximalChain hregistered
    have hfound := (mem_prerequisiteChain hregistered hchains).1 ((hmem path).2 hpath)
    have hself : path = [iri] := by
      by_contra hne
      obtain ⟨last, source, hlast, hdeclares⟩ := hpath.declared hne
      exact hfound.2.2 last hlast source hdeclares
    have hnone : ∀ source, ¬s.Declares source iri := hfound.2.2 iri (by rw [hself]; rfl)
    refine fun other => ⟨fun hdeclares => ?_, hnone other⟩
    have hin := hpath.maximal iri (by rw [hself]; rfl) other hdeclares
    rw [hself, mem_singleton] at hin
    exact hnone other (hin ▸ hdeclares)
  · intro halone fuel hfuel
    obtain ⟨chains, hchains⟩ := exists_prerequisiteChain hfuel iri
    have hsingle : chains = [[iri]] := by
      obtain ⟨fuel, rfl⟩ : ∃ n, fuel = n + 1 := ⟨fuel - 1, by omega⟩
      unfold SkillGraphAlgorithms.prerequisiteChain at hchains
      rw [if_pos (mem_nodes.2 hregistered), collect,
        if_pos (prerequisiteEdges_eq_nil.2 fun source => (halone source).2)] at hchains
      exact (Option.some.inj hchains).symm
    refine ⟨chains, hchains, hsingle ▸ nodup_singleton _, fun path => ?_⟩
    rw [hsingle, mem_singleton]
    constructor
    · rintro rfl
      refine ⟨rfl, ⟨isChain_singleton iri, nodup_singleton iri⟩, ?_⟩
      rintro last hlast other hdeclares
      cases hlast
      exact absurd hdeclares (halone other).1
    · intro hpath
      obtain ⟨rest, rfl⟩ := head?_eq_some_iff.1 hpath.starts
      cases rest with
      | nil => rfl
      | cons next rest => exact absurd (isChain_cons_cons.1 hpath.simple.chain).1 (halone next).1

end SkillGraphStore

/-! ### Two skills -/

/-- The order of the map itself. -/
def listed : WalkOrder := ⟨id, id, fun _ => .refl _, fun _ => .refl _⟩

theorem registered_s2 : (run plainEnv (.new none) registerTwo).Registered "iri://skills/s2" := by
  unfold SkillGraphStore.Registered
  decide +kernel

theorem chainsExact_iff_s2 : (run plainEnv (.new none) registerTwo).ChainsExact listed "iri://skills/s2" ↔
    ∀ other, ¬(run plainEnv (.new none) registerTwo).Declares "iri://skills/s2" other ∧
      ¬(run plainEnv (.new none) registerTwo).Declares other "iri://skills/s2" :=
  SkillGraphStore.chainsExact_iff registered_s2

/-- The second skill requires the first, and its only chain is itself. -/
theorem not_chainsExact_s2 : ¬(run plainEnv (.new none) registerTwo).ChainsExact listed "iri://skills/s2" := by
  intro hexact
  obtain ⟨chains, hchains, -, hmem⟩ := hexact 3 (by decide +kernel)
  have hsingle : (SkillGraphAlgorithms.fromStore listed (run plainEnv (.new none) registerTwo)).prerequisiteChain 3
      "iri://skills/s2" = some [["iri://skills/s2"]] := by decide +kernel
  obtain rfl := Option.some.inj (hsingle.symm.trans hchains)
  have hpath := (hmem ["iri://skills/s2"]).1 mem_cons_self
  have hdeclares : (run plainEnv (.new none) registerTwo).Declares "iri://skills/s2" "iri://skills/s1" := by
    unfold SkillGraphStore.Declares SkillGraphStore.Registered
    decide +kernel
  exact absurd (hpath.maximal _ rfl _ hdeclares) (by decide)

end WildAgentOs.SkillGraph
