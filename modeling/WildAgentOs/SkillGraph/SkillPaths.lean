import WildAgentOs.Lib.BreadthFirst
import WildAgentOs.SkillGraph.PrerequisiteChains

/-!
# Shortest paths between skills

`skill_graph/graph_algorithms.rs`, `shortest_path`: the breadth-first search along the outgoing edges of a node, from
one registered skill to another.

* `outgoing`, `shortestPath`, `LinkPath`, `shortestPath_spec`.
-/

namespace WildAgentOs.SkillGraph

open BreadthFirst List SkillGraphAlgorithms

namespace SkillGraphAlgorithms

/-- The targets of the outgoing edges of a node, the last edge first. -/
def outgoing (g : SkillGraphAlgorithms) (node : String) : List String :=
  (g.edges.reverse.filter fun edge => edge.1 = node).map (·.2.1)

/-- `shortest_path`; the fuel bounds how many nodes are taken from the queue. -/
def shortestPath (fuel : ℕ) (g : SkillGraphAlgorithms) (source target : String) : Option (Option (List String)) :=
  if source ∈ g.nodes ∧ target ∈ g.nodes then
    if source = target then some (some [source])
    else search g.outgoing target fuel ⟨[source], [], [source]⟩
  else some none

end SkillGraphAlgorithms

namespace SkillGraphStore

/-- A registered skill has a link to this IRI. -/
def Links (s : SkillGraphStore) (iri target : String) : Prop :=
  ∃ skill ∈ s.values, skill.skillIri = iri ∧ ∃ link ∈ skill.links, link.targetIri = target

/-- A path of links from the one skill to the other. -/
structure LinkPath (s : SkillGraphStore) (source target : String) (path : List String) : Prop where
  head : path.head? = some source
  last : path.getLast? = some target
  chain : path.IsChain s.Links

/-- A shortest path without repetitions, or none if there is no path. -/
structure IsShortestPath (s : SkillGraphStore) (source target : String) (found : Option (List String)) : Prop where
  path : ∀ path, found = some path → s.LinkPath source target path ∧ path.Nodup ∧
    ∀ other, s.LinkPath source target other → path.length ≤ other.length
  none : found = none → ∀ other, ¬s.LinkPath source target other

variable {s : SkillGraphStore} {order : WalkOrder} {source target : String}

/-- The edges are the links to registered skills. -/
theorem mem_outgoing : target ∈ (fromStore order s).outgoing source ↔
    s.Links source target ∧ s.Registered target := by
  unfold outgoing fromStore fromSkills
  simp only [mem_map, mem_filter, mem_reverse, mem_flatMap, mem_filterMap,
    (order.nodes_perm s.values).mem_iff, decide_eq_true_eq]
  constructor
  · rintro ⟨⟨_, _, _⟩, ⟨⟨skill, hskill, link, hlink, hedge⟩, rfl⟩, rfl⟩
    split_ifs at hedge with htarget
    obtain ⟨rfl, rfl, rfl⟩ := by simpa using hedge
    exact ⟨⟨skill, hskill, rfl, link, hlink, rfl⟩, htarget⟩
  · rintro ⟨⟨skill, hskill, rfl, link, hlink, rfl⟩, htarget⟩
    exact ⟨⟨skill.skillIri, link.targetIri, link.linkType⟩, ⟨⟨skill, hskill, link, hlink, if_pos htarget⟩, rfl⟩, rfl⟩

variable {path : List String}

/-- All skills of a path of links that ends in a registered one are registered. -/
theorem isChain_outgoing (hchain : path.IsChain s.Links)
    (hlast : ∀ last, path.getLast? = some last → s.Registered last) :
    path.IsChain fun a b => b ∈ (fromStore order s).outgoing a := by
  induction path with
  | nil => exact isChain_nil
  | cons a path ih =>
    cases path with
    | nil => exact isChain_singleton a
    | cons b path =>
      rw [isChain_cons_cons] at hchain ⊢
      refine ⟨mem_outgoing.2 ⟨hchain.1, ?_⟩, ih hchain.2 fun last h => hlast last (by simpa using h)⟩
      cases path with
      | nil => exact hlast b rfl
      | cons c path =>
        obtain ⟨⟨skill, hskill, hiri, -⟩, -⟩ := isChain_cons_cons.1 hchain.2
        exact ⟨skill, hskill, hiri⟩

theorem isPath_outgoing_iff (htarget : s.Registered target) :
    IsPath (fromStore order s).outgoing source target path ↔ s.LinkPath source target path := by
  constructor
  · intro h
    exact ⟨h.head, h.last, h.chain.imp fun a b hstep => (mem_outgoing.1 hstep).1⟩
  · intro h
    refine ⟨h.head, h.last, isChain_outgoing h.chain fun last hlast => ?_⟩
    obtain rfl := Option.some.inj (h.last.symm.trans hlast)
    exact htarget

/-- **A shortest path** between registered skills is found, with fuel for each of them. -/
theorem shortestPath_spec (s : SkillGraphStore) (order : WalkOrder) {source target : String}
    (hsource : s.Registered source) (htarget : s.Registered target) {fuel : ℕ} (hfuel : s.values.length + 1 < fuel) :
    ∃ found, (SkillGraphAlgorithms.fromStore order s).shortestPath fuel source target = some found ∧
      s.IsShortestPath source target found := by
  unfold SkillGraphAlgorithms.shortestPath
  rw [if_pos ⟨mem_nodes.2 hsource, mem_nodes.2 htarget⟩]
  split_ifs with hsame
  · subst hsame
    refine ⟨_, rfl, ?_, fun h => by cases h⟩
    rintro _ ⟨⟩
    refine ⟨⟨rfl, rfl, isChain_singleton source⟩, nodup_singleton source, fun other hother => ?_⟩
    exact length_pos_of_ne_nil (ne_nil_of_mem (mem_of_mem_head? hother.head))
  · have hroot : Rooted (SkillGraphAlgorithms.fromStore order s).outgoing source (fun _ => 0)
        ⟨[source], [], [source]⟩ :=
      ⟨mem_singleton_self source, rfl, rfl, fun a ha hne => absurd (mem_singleton.1 ha) hne, fun _ _ => Nat.zero_le _⟩
    have hqueued : Queued (SkillGraphAlgorithms.fromStore order s).outgoing target (fun _ => 0)
        ⟨[source], [], [source]⟩ :=
      ⟨fun _ ha => ha, pairwise_singleton _ source, fun _ _ _ _ => Nat.zero_le _,
        fun a ha hout => absurd ha hout, fun a ha hout => absurd ha hout⟩
    have hU : ∀ a, ∀ b ∈ (SkillGraphAlgorithms.fromStore order s).outgoing a,
        b ∈ (SkillGraphAlgorithms.fromStore order s).nodes.toFinset := fun a b hb =>
      mem_toFinset.2 (mem_nodes.2 (mem_outgoing.1 hb).2)
    have hlength : (SkillGraphAlgorithms.fromStore order s).nodes.length = s.values.length := by
      show ((order.nodes s.values).map (·.skillIri)).length = _
      rw [length_map, (order.nodes_perm s.values).length_eq]
    have hless : [source].length +
        ((SkillGraphAlgorithms.fromStore order s).nodes.toFinset \ [source].toFinset).card < fuel := by
      have hcard := Finset.card_le_card (Finset.sdiff_subset (s := (SkillGraphAlgorithms.fromStore order s).nodes.toFinset)
        (t := [source].toFinset))
      have hle := (SkillGraphAlgorithms.fromStore order s).nodes.toFinset_card_le
      rw [length_singleton]
      omega
    obtain ⟨found, hfound, hpath, hnone⟩ := search_spec hU hroot hqueued hless
    refine ⟨found, hfound, fun path h => ?_, fun h other hother => ?_⟩
    · obtain ⟨hispath, hnodup, hshortest⟩ := hpath path h
      exact ⟨(isPath_outgoing_iff htarget).1 hispath, hnodup, fun other hother =>
        hshortest other ((isPath_outgoing_iff htarget).2 hother)⟩
    · exact hnone h other ((isPath_outgoing_iff htarget).2 hother)

end SkillGraphStore

theorem registered_s1 : (run plainEnv (.new none) registerTwo).Registered "iri://skills/s1" := by
  unfold SkillGraphStore.Registered
  decide +kernel

/-- From the second skill to its prerequisite. -/
theorem shortestPath_spec_s2 :
    ∃ found, (SkillGraphAlgorithms.fromStore listed (run plainEnv (.new none) registerTwo)).shortestPath 4
      "iri://skills/s2" "iri://skills/s1" = some found ∧
        (run plainEnv (.new none) registerTwo).IsShortestPath "iri://skills/s2" "iri://skills/s1" found :=
  SkillGraphStore.shortestPath_spec _ listed registered_s2 registered_s1 (by decide +kernel)

end WildAgentOs.SkillGraph
