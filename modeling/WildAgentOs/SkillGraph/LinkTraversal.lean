import WildAgentOs.Lib.DepthWalk
import WildAgentOs.SkillGraph.IndexScan

/-!
# Links in range of a skill

`skill_graph/graph_store.rs`, `traverse_links`: the links of the allowed types around a skill, up to a depth.  The
list that is called a queue is a stack, so a skill that is reached at several depths is followed up at the one that
comes off first.

* `traverseLinks`, with fuel for what comes off the stack;
* `Leads`, `IsDistance`, `FindsInRange`, `traverseFrom_eq_walk`, `traverseLinks_iff`.
-/

namespace WildAgentOs.SkillGraph

open DepthWalk List

namespace SkillGraphStore

/-- A link that the filter lets pass. -/
def allows (linkTypes : Option (List SkillLinkType)) (link : SkillLink) : Bool :=
  match linkTypes with
  | some types => decide (link.linkType ∈ types)
  | none => true

/-- What is found, what is visited, and the stack with its top first. -/
structure Traversal where
  result : List (String × SkillLinkType × ℕ)
  visited : List String
  queue : List (String × ℕ)
  deriving DecidableEq

/-- One link of a skill at a depth. -/
def followLink (linkTypes : Option (List SkillLinkType)) (depth : ℕ) (t : Traversal) (link : SkillLink) : Traversal :=
  if allows linkTypes link then
    { t with
      result := t.result ++ [(link.targetIri, link.linkType, depth + 1)]
      queue := if link.targetIri ∈ t.visited then t.queue else (link.targetIri, depth + 1) :: t.queue }
  else t

/-- The loop of `traverse_links`. -/
def traverseFrom (s : SkillGraphStore) (linkTypes : Option (List SkillLinkType)) (maxDepth : ℕ) :
    ℕ → Traversal → Option (List (String × SkillLinkType × ℕ))
  | 0, _ => none
  | fuel + 1, t =>
    match t.queue with
    | [] => some t.result
    | (currentIri, depth) :: queue =>
      if maxDepth ≤ depth then s.traverseFrom linkTypes maxDepth fuel { t with queue := queue }
      else if currentIri ∈ t.visited then s.traverseFrom linkTypes maxDepth fuel { t with queue := queue }
      else
        let t : Traversal := { t with visited := currentIri :: t.visited, queue := queue }
        match s.skills.lookup currentIri with
        | some skill => s.traverseFrom linkTypes maxDepth fuel (skill.links.foldl (followLink linkTypes depth) t)
        | none => s.traverseFrom linkTypes maxDepth fuel t

def traverseLinks (s : SkillGraphStore) (fuel : ℕ) (startIri : String) (linkTypes : Option (List SkillLinkType))
    (maxDepth : ℕ) : Option (List (String × SkillLinkType × ℕ)) :=
  s.traverseFrom linkTypes maxDepth fuel ⟨[], [], [(startIri, 0)]⟩

/-! ### What is in range -/

/-- The links of allowed type of a skill. -/
def allowedLinks (s : SkillGraphStore) (linkTypes : Option (List SkillLinkType)) (iri : String) : List SkillLink :=
  match s.skills.lookup iri with
  | some skill => skill.links.filter (allows linkTypes)
  | none => []

/-- As many allowed links lead from the start to the IRI. -/
inductive Leads (s : SkillGraphStore) (linkTypes : Option (List SkillLinkType)) (startIri : String) : String → ℕ → Prop
  | start : Leads s linkTypes startIri startIri 0
  | step {iri : String} {n : ℕ} {link : SkillLink} (h : Leads s linkTypes startIri iri n)
      (hlink : link ∈ s.allowedLinks linkTypes iri) : Leads s linkTypes startIri link.targetIri (n + 1)

structure IsDistance (s : SkillGraphStore) (linkTypes : Option (List SkillLinkType)) (startIri iri : String) (d : ℕ) :
    Prop where
  leads : s.Leads linkTypes startIri iri d
  le : ∀ n, s.Leads linkTypes startIri iri n → d ≤ n

/-- The allowed links of a skill, as they are found at a depth. -/
def foundAt (s : SkillGraphStore) (linkTypes : Option (List SkillLinkType)) (skill : String × ℕ) :
    List (String × SkillLinkType × ℕ) :=
  (s.allowedLinks linkTypes skill.1).map fun link => (link.targetIri, link.linkType, skill.2 + 1)

/-- **Exactly what is in range**: the allowed links of each skill nearer than the bound, once and with the depth of
their target. -/
def FindsInRange (s : SkillGraphStore) (linkTypes : Option (List SkillLinkType)) (startIri : String) (maxDepth : ℕ)
    (result : List (String × SkillLinkType × ℕ)) : Prop :=
  ∃ skills : List (String × ℕ), (skills.map Prod.fst).Nodup ∧
    (∀ iri d, (iri, d) ∈ skills ↔
      s.allowedLinks linkTypes iri ≠ [] ∧ s.IsDistance linkTypes startIri iri d ∧ d < maxDepth) ∧
    result.Perm (skills.flatMap (s.foundAt linkTypes))

/-- The targets of the allowed links, in the order in which they come off the stack. -/
def targets (s : SkillGraphStore) (linkTypes : Option (List SkillLinkType)) (iri : String) : List String :=
  ((s.allowedLinks linkTypes iri).map (·.targetIri)).reverse

variable {s : SkillGraphStore} {linkTypes : Option (List SkillLinkType)} {startIri iri : String} {maxDepth : ℕ}

theorem targets_eq_nil : s.targets linkTypes iri = [] ↔ s.allowedLinks linkTypes iri = [] := by
  simp [targets]

theorem leads_iff {n : ℕ} :
    s.Leads linkTypes startIri iri n ↔ ∃ up, Way (s.targets linkTypes) startIri iri up ∧ up.length = n := by
  constructor
  · intro h
    induction h with
    | start => exact ⟨[], .start, rfl⟩
    | @step iri n link h hlink ih =>
      obtain ⟨up, hway, rfl⟩ := ih
      refine ⟨iri :: up, .step hway ?_, rfl⟩
      simp only [targets, mem_reverse, mem_map]
      exact ⟨link, hlink, rfl⟩
  · rintro ⟨up, hway, rfl⟩
    induction hway with
    | start => exact .start
    | step h hy ih =>
      simp only [targets, mem_reverse, mem_map] at hy
      obtain ⟨link, hlink, rfl⟩ := hy
      exact .step ih hlink

theorem isDistance_iff {d : ℕ} : s.IsDistance linkTypes startIri iri d ↔
    ∃ up, Shortest (s.targets linkTypes) startIri iri up ∧ up.length = d := by
  constructor
  · rintro ⟨hleads, hle⟩
    obtain ⟨up, hway, rfl⟩ := leads_iff.1 hleads
    exact ⟨up, ⟨hway, fun other hother => hle _ (leads_iff.2 ⟨other, hother, rfl⟩)⟩, rfl⟩
  · rintro ⟨up, hshortest, rfl⟩
    refine ⟨leads_iff.2 ⟨up, hshortest.way, rfl⟩, fun n hn => ?_⟩
    obtain ⟨other, hother, rfl⟩ := leads_iff.1 hn
    exact hshortest.le other hother

/-! ### The traversal is a walk -/

/-- The links of a skill: all allowed ones are found, and the targets that were not visited are put on the stack. -/
theorem foldl_followLink (links : List SkillLink) (depth : ℕ) (t : Traversal) :
    links.foldl (followLink linkTypes depth) t =
      ⟨t.result ++ (links.filter (allows linkTypes)).map fun link => (link.targetIri, link.linkType, depth + 1),
        t.visited,
        ((((links.filter (allows linkTypes)).map (·.targetIri)).reverse.filter fun iri => decide (iri ∉ t.visited)).map
          fun iri => (iri, depth + 1)) ++ t.queue⟩ := by
  induction links generalizing t with
  | nil => simp
  | cons link links ih =>
    rw [foldl_cons, ih]
    by_cases hallows : allows linkTypes link = true
    · by_cases hvisited : link.targetIri ∈ t.visited
      · simp [followLink, hallows, hvisited]
      · simp [followLink, hallows, hvisited]
    · simp [followLink, hallows]

/-- What is found of the places that were passed. -/
def foundIn (s : SkillGraphStore) (linkTypes : Option (List SkillLinkType)) (done : List (String × List String)) :
    List (String × SkillLinkType × ℕ) :=
  done.flatMap fun entry => s.foundAt linkTypes (entry.1, entry.2.length)

/-- **The loop is a depth-first walk**, where the depth is that of the way. -/
theorem traverseFrom_eq_walk (s : SkillGraphStore) (linkTypes : Option (List SkillLinkType)) (maxDepth fuel : ℕ)
    (done stack : List (String × List String)) (visited : List String) (hvisited : ∀ x, x ∈ visited ↔ x ∈ places done) :
    s.traverseFrom linkTypes maxDepth fuel
        ⟨s.foundIn linkTypes done, visited, stack.map fun entry => (entry.1, entry.2.length)⟩ =
      (walk (s.targets linkTypes) maxDepth fuel done stack).map (s.foundIn linkTypes) := by
  induction fuel generalizing done stack visited with
  | zero => rfl
  | succ fuel ih =>
    cases stack with
    | nil => rfl
    | cons entry stack =>
      obtain ⟨z, up⟩ := entry
      rw [walk, traverseFrom]
      simp only [map_cons]
      by_cases hdeep : maxDepth ≤ up.length
      · rw [if_pos hdeep, if_pos (.inl hdeep)]
        exact ih done stack visited hvisited
      rw [if_neg hdeep]
      by_cases hz : z ∈ visited
      · rw [if_pos hz, if_pos (.inr ((hvisited z).1 hz))]
        exact ih done stack visited hvisited
      · rw [if_neg hz, if_neg (by rw [← hvisited]; tauto)]
        have hvisited' : ∀ x, x ∈ z :: visited ↔ x ∈ places (done ++ [(z, up)]) := by
          intro x
          rw [mem_cons, mem_places_append, hvisited, or_comm]
        rw [← ih (done ++ [(z, up)]) _ (z :: visited) hvisited']
        have hchildren : (children (s.targets linkTypes) (places (done ++ [(z, up)])) z up).map
            (fun entry => (entry.1, entry.2.length)) =
              ((s.targets linkTypes z).filter fun iri => decide (iri ∉ z :: visited)).map
                fun iri => (iri, up.length + 1) := by
          unfold children
          rw [map_map]
          simp only [hvisited']
          rfl
        have hfound : s.foundIn linkTypes (done ++ [(z, up)]) =
            s.foundIn linkTypes done ++ s.foundAt linkTypes (z, up.length) := by
          simp [foundIn]
        rw [map_append, hchildren, hfound]
        cases hlookup : s.skills.lookup z with
        | none => simp [foundAt, targets, allowedLinks, hlookup]
        | some skill =>
          simp only [foldl_followLink]
          simp [foundAt, targets, allowedLinks, hlookup]

/-! ### What is found -/

/-- The places that were passed and have links, with their depths. -/
def expanded (s : SkillGraphStore) (linkTypes : Option (List SkillLinkType)) (done : List (String × List String)) :
    List (String × ℕ) :=
  (done.filter fun entry => decide (s.allowedLinks linkTypes entry.1 ≠ [])).map fun entry => (entry.1, entry.2.length)

theorem mem_expanded {done : List (String × List String)} {d : ℕ} : (iri, d) ∈ s.expanded linkTypes done ↔
    s.allowedLinks linkTypes iri ≠ [] ∧ ∃ up, (iri, up) ∈ done ∧ up.length = d := by
  unfold expanded
  simp only [mem_map, mem_filter, decide_eq_true_eq]
  constructor
  · rintro ⟨⟨_, up⟩, ⟨hmem, hlinks⟩, heq⟩
    cases heq
    exact ⟨hlinks, up, hmem, rfl⟩
  · rintro ⟨hlinks, up, hmem, rfl⟩
    exact ⟨(iri, up), ⟨hmem, hlinks⟩, rfl⟩

/-- A place without links has nothing to be found. -/
theorem foundIn_eq_flatMap_expanded (s : SkillGraphStore) (linkTypes : Option (List SkillLinkType))
    (done : List (String × List String)) :
    s.foundIn linkTypes done = (s.expanded linkTypes done).flatMap (s.foundAt linkTypes) := by
  unfold foundIn expanded
  induction done with
  | nil => rfl
  | cons entry done ih =>
    rw [flatMap_cons, ih]
    by_cases hlinks : s.allowedLinks linkTypes entry.1 = []
    · simp [hlinks, foundAt]
    · simp [hlinks]

/-- The number of links that are found, and the sum of their depths. -/
theorem length_flatMap_foundAt (skills : List (String × ℕ)) : (skills.flatMap (s.foundAt linkTypes)).length =
      (skills.map fun skill => (s.allowedLinks linkTypes skill.1).length).sum := by
  simp [length_flatMap, foundAt]

theorem sum_flatMap_foundAt (skills : List (String × ℕ)) :
    ((skills.flatMap (s.foundAt linkTypes)).map fun found => found.2.2).sum =
      (skills.map fun skill => (s.allowedLinks linkTypes skill.1).length * skill.2).sum +
        (skills.map fun skill => (s.allowedLinks linkTypes skill.1).length).sum := by
  induction skills with
  | nil => rfl
  | cons skill skills ih =>
    have hone : ((s.foundAt linkTypes skill).map fun found => found.2.2).sum =
        (s.allowedLinks linkTypes skill.1).length * skill.2 + (s.allowedLinks linkTypes skill.1).length := by
      simp [foundAt, map_map, Function.comp_def, Nat.mul_add]
    simp only [flatMap_cons, map_append, sum_append, map_cons, sum_cons, ih, hone]
    omega

variable {done : List (String × List String)}

section

variable (h : Explores (s.targets linkTypes) startIri maxDepth done)
include h

/-- A place that was passed has a distance, and it is not greater than its depth. -/
theorem exists_isDistance {up : List String}
    (hmem : (iri, up) ∈ done) : ∃ d, s.IsDistance linkTypes startIri iri d ∧ d ≤ up.length ∧ up.length < maxDepth := by
  obtain ⟨up', hshortest⟩ := exists_shortest (h.taken.way hmem)
  obtain ⟨front, back, -, htaken⟩ := h.taken.exists_taken hmem
  exact ⟨up'.length, isDistance_iff.2 ⟨up', hshortest, rfl⟩, hshortest.le up (h.taken.way hmem), htaken.short⟩

theorem nodup_expanded :
    ((s.expanded linkTypes done).map Prod.fst).Nodup := by
  unfold expanded
  rw [map_map]
  exact h.taken.nodup_places.sublist (filter_sublist.map Prod.fst)

/-- **What is found is what is in range exactly when each skill is passed at its distance**: the number of the links
that are found tells that none is missing, and the sum of their depths that none is too deep. -/
theorem findsInRange_iff_exact :
    s.FindsInRange linkTypes startIri maxDepth (s.foundIn linkTypes done) ↔
      Exact (s.targets linkTypes) startIri maxDepth done := by
  rw [foundIn_eq_flatMap_expanded]
  constructor
  · rintro ⟨skills, hnodup, hskills, hperm⟩
    have hpos : ∀ skill ∈ skills, 0 < (s.allowedLinks linkTypes skill.1).length := by
      intro skill hmem
      exact length_pos_iff.2 ((hskills skill.1 skill.2).1 hmem).1
    have hle : ∀ e ∈ s.expanded linkTypes done, ∃ n, (e.1, n) ∈ skills ∧ n ≤ e.2 := by
      rintro ⟨iri, d⟩ hmem
      obtain ⟨hlinks, up, hup, rfl⟩ := mem_expanded.1 hmem
      obtain ⟨n, hdistance, hle, hshort⟩ := exists_isDistance h hup
      exact ⟨n, (hskills iri n).2 ⟨hlinks, hdistance, hle.trans_lt hshort⟩, hle⟩
    have hlengths := hperm.length_eq
    rw [length_flatMap_foundAt, length_flatMap_foundAt] at hlengths
    have hdepths := (hperm.map fun found => found.2.2).sum_eq
    rw [sum_flatMap_foundAt, sum_flatMap_foundAt] at hdepths
    obtain ⟨-, hsame⟩ := sums_le (f := fun iri => (s.allowedLinks linkTypes iri).length) (nodup_expanded h) hnodup hpos
      hle hlengths
    intro z up htargets hshortest hshort
    have hlinks : s.allowedLinks linkTypes z ≠ [] := fun hnil => htargets (targets_eq_nil.2 hnil)
    have hmem := hsame (by omega) (z, up.length)
      ((hskills z up.length).2 ⟨hlinks, isDistance_iff.2 ⟨up, hshortest, rfl⟩, hshort⟩)
    exact (mem_expanded.1 hmem).2
  · intro hexact
    refine ⟨s.expanded linkTypes done, nodup_expanded h, fun iri d => ?_, Perm.refl _⟩
    rw [mem_expanded]
    refine and_congr_right fun hlinks => ⟨?_, ?_⟩
    · rintro ⟨up, hmem, rfl⟩
      obtain ⟨d, hdistance, hle, hshort⟩ := exists_isDistance h hmem
      obtain ⟨up', hshortest, rfl⟩ := isDistance_iff.1 hdistance
      obtain ⟨up'', hmem', hlength⟩ :=
        hexact iri up' (fun hnil => hlinks (targets_eq_nil.1 hnil)) hshortest (hle.trans_lt hshort)
      obtain rfl := h.taken.eq_of_mem hmem hmem'
      rw [hlength]
      exact ⟨hdistance, hle.trans_lt hshort⟩
    · rintro ⟨hdistance, hshort⟩
      obtain ⟨up, hshortest, rfl⟩ := isDistance_iff.1 hdistance
      exact hexact iri up (fun hnil => hlinks (targets_eq_nil.1 hnil)) hshortest hshort

end

/-! ### All graphs -/

/-- The places of a traversal: its start, and the targets of all links. -/
theorem exists_reached (s : SkillGraphStore) (linkTypes : Option (List SkillLinkType)) (startIri : String) :
    ∃ U : Finset String, startIri ∈ U ∧ ∀ a ∈ U, ∀ b ∈ s.targets linkTypes a, b ∈ U := by
  refine ⟨insert startIri (s.skills.keys.flatMap (s.targets linkTypes)).toFinset, by simp, fun a _ b hb => ?_⟩
  have hkey : a ∈ s.skills.keys := by
    by_contra hnot
    have hnone : s.skills.lookup a = none := AList.lookup_eq_none.2 fun hmem => hnot (AList.mem_keys.1 hmem)
    simp [targets, allowedLinks, hnone] at hb
  exact Finset.mem_insert_of_mem (mem_toFinset.2 (mem_flatMap.2 ⟨a, hkey, hb⟩))

/-- **The traversal ends, and finds exactly what is in range if and only if the ways that are too long come late**:
before each way that does not repeat itself, is shorter than the bound and longer than the distance of its last skill,
it follows a shortest way to that skill. -/
theorem traverseLinks_iff (s : SkillGraphStore) (startIri : String) (linkTypes : Option (List SkillLinkType))
    (maxDepth : ℕ) :
    ∃ bound, ∀ fuel, bound ≤ fuel → ∃ result, s.traverseLinks fuel startIri linkTypes maxDepth = some result ∧
      (s.FindsInRange linkTypes startIri maxDepth result ↔ InOrder (s.targets linkTypes) startIri maxDepth) := by
  obtain ⟨U, hstart, hU⟩ := s.exists_reached linkTypes startIri
  refine ⟨∑ a ∈ U, (s.targets linkTypes a).length + 2, fun fuel hfuel => ?_⟩
  have hless : [(startIri, ([] : List String))].length +
      ∑ a ∈ U \ (places ([] : List (String × List String))).toFinset, (s.targets linkTypes a).length < fuel := by
    simp only [places, map_nil, toFinset_nil, Finset.sdiff_empty, length_singleton]
    omega
  have hwalk : ∃ done, walk (s.targets linkTypes) maxDepth fuel [] [(startIri, [])] = some done :=
    exists_walk hU (by simpa using hstart) hless
  obtain ⟨done, hdone⟩ := hwalk
  have hexplores := explores_of_walk hdone pending_start
  refine ⟨s.foundIn linkTypes done, ?_, ?_⟩
  · have heq := s.traverseFrom_eq_walk linkTypes maxDepth fuel [] [(startIri, [])] [] (by simp [places])
    rw [hdone] at heq
    exact heq
  · rw [findsInRange_iff_exact hexplores]
    exact exact_iff_inOrder hexplores

theorem Leads.eq_start (h : s.Leads linkTypes startIri iri 0) : iri = startIri := by
  generalize hn : 0 = n at h
  cases h with
  | start => rfl
  | step => omega

end SkillGraphStore

/-- Three skills: the first has links to the third and to the second, and the second to the third. -/
def registerThree : List (ℤ × Op) :=
  [(0, .registerSkill (taggedSkill "iri://skills/s3" "auth" [⟨.related, "iri://skills/s4", .optional, "See S4"⟩])),
    (0, .registerSkill (taggedSkill "iri://skills/s2" "auth" [⟨.related, "iri://skills/s3", .optional, "See S3"⟩])),
    (0, .registerSkill (taggedSkill "iri://skills/s1" "auth" [⟨.related, "iri://skills/s3", .optional, "See S3"⟩,
      ⟨.related, "iri://skills/s2", .optional, "See S2"⟩]))]

/-- The third skill is followed up at depth two, though the first has a link to it. -/
theorem not_findsInRange_s1 : (run plainEnv (.new none) registerThree).traverseLinks 8 "iri://skills/s1" none 3 =
        some [("iri://skills/s3", .related, 1), ("iri://skills/s2", .related, 1), ("iri://skills/s3", .related, 2),
          ("iri://skills/s4", .related, 3)] ∧
      ¬(run plainEnv (.new none) registerThree).FindsInRange none "iri://skills/s1" 3
        [("iri://skills/s3", .related, 1), ("iri://skills/s2", .related, 1), ("iri://skills/s3", .related, 2),
          ("iri://skills/s4", .related, 3)] := by
  refine ⟨by decide +kernel, ?_⟩
  rintro ⟨skills, -, hskills, hperm⟩
  have hlink : ⟨.related, "iri://skills/s3", .optional, "See S3"⟩ ∈
      (run plainEnv (.new none) registerThree).allowedLinks none "iri://skills/s1" := by decide +kernel
  have hnear : (run plainEnv (.new none) registerThree).IsDistance none "iri://skills/s1" "iri://skills/s3" 1 := by
    refine ⟨.step .start hlink, fun n hn => Nat.pos_of_ne_zero ?_⟩
    rintro rfl
    exact absurd hn.eq_start (by decide)
  have hfurther : ⟨.related, "iri://skills/s4", .optional, "See S4"⟩ ∈
      (run plainEnv (.new none) registerThree).allowedLinks none "iri://skills/s3" := by decide +kernel
  have hmem := (hskills "iri://skills/s3" 1).2 ⟨ne_nil_of_mem hfurther, hnear, by decide⟩
  have hfound := hperm.mem_iff.2 (mem_flatMap.2 ⟨_, hmem, mem_map_of_mem hfurther⟩)
  revert hfound
  decide

end WildAgentOs.SkillGraph
