import WildAgentOs.SkillGraph.GraphStore

/-!
# The skill index and a scan

The index against the nodes in memory.  It is kept by appending to postings, by removing before appending, and by
adding rows to rows; what is not removed stays.

* `EqualsScan`: the postings, the search by tags and the transitive dependencies are what a scan finds;
* `Indexed`: no stored skill is deprecated, and each structure follows the nodes; `Indexed.equalsScan`;
* `Registers`, `Op.Keeps`, `Indexed.step`, `equalsScan_run`.
-/

namespace WildAgentOs.SkillGraph

open Closure List Function Option AList

/-- The nodes as they are looked up. -/
abbrev Look := String → Option SkillGraphNode

/-- What the prerequisite links of stored skills point to. -/
def succ (look : Look) (iri : String) : List String :=
  match look iri with
  | some skill => prerequisites skill.links
  | none => []

def isLive (skill : SkillGraphNode) : Prop := skill.maturity ≠ "deprecated"

/-! ### What a scan finds -/

/-- The index equals a scan. -/
structure EqualsScan (env : SkillEnv) (s : SkillGraphStore) : Prop where
  tags : ∀ tag iri, iri ∈ s.index.findByTag env.toLowercase tag ↔
    ∃ skill, s.skills.lookup iri = some skill ∧ isLive skill ∧ ∃ t ∈ skill.tags, env.toLowercase t = env.toLowercase tag
  stackIris : ∀ stack iri, iri ∈ s.index.findByStack env.toLowercase stack ↔
    ∃ skill, s.skills.lookup iri = some skill ∧ isLive skill ∧
      ∃ t ∈ skill.w2h.where_.targetStack, env.toLowercase t = env.toLowercase stack
  roles : ∀ role iri, iri ∈ s.index.findByRole env.toLowercase role ↔
    ∃ skill, s.skills.lookup iri = some skill ∧ isLive skill ∧
      ∃ t ∈ skill.w2h.who.requiredAgentRole, env.toLowercase t = env.toLowercase role
  found : ∀ (order : WalkOrder) (tags : List String), ((s.findSkillsByTags env order tags).map (·.skillIri)).Nodup ∧
    ∀ skill, skill ∈ s.findSkillsByTags env order tags ↔ s.skills.lookup skill.skillIri = some skill ∧ isLive skill ∧
      ∀ tag ∈ tags, ∃ t ∈ skill.tags, env.toLowercase t = env.toLowercase tag
  deps : ∀ iri dep, dep ∈ s.index.getTransitiveDeps iri ↔ Reaches (succ s.skills.lookup) iri dep

/-! ### Postings that follow the nodes -/

/-- An IRI is listed under the keys of its node. -/
def Follows (keysOf : SkillGraphNode → List String) (table : Postings) (look : Look) : Prop :=
  ∀ key iri, iri ∈ table key ↔ ∃ skill, look iri = some skill ∧ key ∈ keysOf skill

namespace Follows

variable {keysOf : SkillGraphNode → List String} {table : Postings} {look : Look} {iri : String}
  {old skill : SkillGraphNode}

/-- A node is listed, and its old one with it. -/
theorem post (h : Follows keysOf table look) (hkeys : ∀ old, look iri = some old → keysOf old ⊆ keysOf skill) :
    Follows keysOf (post table (keysOf skill) iri) (update look iri (some skill)) := by
  intro key iri'
  rw [mem_post, h key iri']
  by_cases hiri : iri' = iri
  · subst hiri
    simp only [update_self, some.injEq, exists_eq_left', true_and]
    constructor
    · rintro (⟨old, hold, hkey⟩ | hkey)
      · exact hkeys old hold hkey
      · exact hkey
    · exact .inr
  · simp only [update_of_ne hiri, hiri, false_and, or_false]

theorem unpost (h : Follows keysOf table look) (hold : look iri = some old) :
    Follows keysOf (unpost table (keysOf old) iri) (update look iri none) := by
  intro key iri'
  rw [mem_unpost, h key iri']
  by_cases hiri : iri' = iri
  · subst hiri
    simp only [update_self, hold, some.injEq, exists_eq_left', true_and, and_not_self_iff, reduceCtorEq,
      false_and, exists_false]
  · simp only [update_of_ne hiri, hiri, false_and, not_false_eq_true, and_true]

/-- A node with the same keys takes the place of another. -/
theorem rename (h : Follows keysOf table look) (hold : look iri = some old) (hkeys : keysOf skill = keysOf old) :
    Follows keysOf table (update look iri (some skill)) := by
  intro key iri'
  rw [h key iri']
  by_cases hiri : iri' = iri
  · subst hiri
    simp only [update_self, hold, some.injEq, exists_eq_left', hkeys]
  · simp only [update_of_ne hiri]

/-- A node takes the place of another. -/
theorem replace (h : Follows keysOf table look) (hold : look iri = some old) :
    Follows keysOf (SkillGraph.post (SkillGraph.unpost table (keysOf old) iri) (keysOf skill) iri)
      (update look iri (some skill)) := by
  have hnone : ∀ old, update look iri none iri = some old → keysOf old ⊆ keysOf skill := by
    intro old hold
    rw [update_self] at hold
    exact (nomatch hold)
  have hpost := (h.unpost hold).post hnone
  rwa [update_idem] at hpost

end Follows

def tagKeys (toLowercase : String → String) (skill : SkillGraphNode) : List String := skill.tags.map toLowercase

def stackKeys (toLowercase : String → String) (skill : SkillGraphNode) : List String :=
  skill.w2h.where_.targetStack.map toLowercase

def roleKeys (toLowercase : String → String) (skill : SkillGraphNode) : List String :=
  skill.w2h.who.requiredAgentRole.toList.map toLowercase

/-- The index follows the nodes, and none of them is deprecated. -/
structure Indexed (toLowercase : String → String) (look : Look) (index : PreAggregatedIndex) : Prop where
  iris : ∀ iri skill, look iri = some skill → skill.skillIri = iri
  live : ∀ iri skill, look iri = some skill → isLive skill
  summaries : ∀ iri, index.skillSummaries iri = (look iri).map IndexEntry.fromSkill
  tags : Follows (tagKeys toLowercase) index.tagIndex look
  stackIris : Follows (stackKeys toLowercase) index.stackIndex look
  roles : Follows (roleKeys toLowercase) index.roleIndex look
  deps : Exact index.transitiveDeps (succ look)

/-! ### Links -/

variable {look : Look} {iri : String}

theorem succ_update_of_ne {skill : Option SkillGraphNode} :
    ∀ x, x ≠ iri → succ (update look iri skill) x = succ look x := by
  intro x hx
  unfold succ
  rw [update_of_ne hx]

variable {skill : SkillGraphNode}

theorem succ_update_self :
    succ (update look iri (some skill)) iri = prerequisites skill.links := by
  unfold succ
  rw [update_self]

theorem succ_update_none : succ (update look iri none) = update (succ look) iri [] := by
  funext x
  by_cases hx : x = iri
  · subst hx
    unfold succ
    rw [update_self, update_self]
  · rw [succ_update_of_ne x hx, update_of_ne hx]

/-- No skill that depends on this one loses a dependency when its node is replaced or taken out. -/
def KeepsDependents (look : Look) (iri : String) (skill : Option SkillGraphNode) : Prop :=
  Dependents iri (succ look) (succ (update look iri skill))

/-- More prerequisites take no dependency away. -/
theorem keepsDependents_of_subset
    (h : ∀ old, look iri = some old → prerequisites old.links ⊆ prerequisites skill.links) :
    KeepsDependents look iri (some skill) := by
  refine Dependents.of_subset fun x => ?_
  by_cases hx : x = iri
  · subst hx
    rw [succ_update_self]
    unfold succ
    cases hold : look x with
    | none => exact nil_subset _
    | some old => exact h old hold
  · rw [succ_update_of_ne x hx]
    exact List.Subset.refl _

/-! ### Operations on the index -/

/-- What registering a node must not do: a deprecated node is indexed, and what the index holds of an old node under
the same IRI stays. -/
structure Registers (toLowercase : String → String) (look : Look) (skill : SkillGraphNode) : Prop where
  live : isLive skill
  tags : ∀ old, look skill.skillIri = some old → tagKeys toLowercase old ⊆ tagKeys toLowercase skill
  stackIris : ∀ old, look skill.skillIri = some old → stackKeys toLowercase old ⊆ stackKeys toLowercase skill
  roles : ∀ old, look skill.skillIri = some old → roleKeys toLowercase old ⊆ roleKeys toLowercase skill
  dependents : KeepsDependents look skill.skillIri (some skill)
  /-- The old row is kept where there is no new one, and read where the skill is its own prerequisite. -/
  row : prerequisites skill.links = [] ∨ skill.skillIri ∈ prerequisites skill.links →
    ∀ dep, Reaches (succ look) skill.skillIri dep →
      Reaches (succ (update look skill.skillIri (some skill))) skill.skillIri dep

/-- Two functions that are changed in one place stay related. -/
theorem forall_update {α β γ : Type*} [DecidableEq α] (related : α → β → γ → Prop) {f : α → β} {g : α → γ}
    {a : α} {b : β} {c : γ} (hself : related a b c) (hrest : ∀ x, related x (f x) (g x)) :
    ∀ x, related x (update f a b x) (update g a c x) := by
  intro x
  by_cases hx : x = a
  · subst hx
    rw [update_self, update_self]
    exact hself
  · rw [update_of_ne hx, update_of_ne hx]
    exact hrest x

/-- The tier of a node is not in its summary. -/
theorem summary_retier (hskill : look iri = some skill)
    (tier : StorageTier) (iri' : String) :
    (look iri').map IndexEntry.fromSkill =
      (update look iri (some { skill with storageTier := tier }) iri').map IndexEntry.fromSkill := by
  by_cases heq : iri' = iri
  · subst heq
    rw [update_self, hskill]
    rfl
  · rw [update_of_ne heq]

namespace Indexed

variable {toLowercase : String → String} {look : Look} {index : PreAggregatedIndex} {iri : String}
  {old skill : SkillGraphNode}

theorem iris_update (h : Indexed toLowercase look index) (hiri : skill.skillIri = iri) :
    ∀ iri' skill', update look iri (some skill) iri' = some skill' → skill'.skillIri = iri' := by
  rw [forall_update_iff look fun iri' node => ∀ skill', node = some skill' → skill'.skillIri = iri']
  refine ⟨fun skill' heq => ?_, fun iri' _ => h.iris iri'⟩
  rw [← some.inj heq, hiri]

theorem live_update (h : Indexed toLowercase look index) (hlive : isLive skill) :
    ∀ iri' skill', update look iri (some skill) iri' = some skill' → isLive skill' := by
  rw [forall_update_iff look fun _ node => ∀ skill', node = some skill' → isLive skill']
  exact ⟨fun skill' heq => some.inj heq ▸ hlive, fun iri' _ => h.live iri'⟩

/-- A summary is put in for a node, or taken out with it. -/
theorem summaries_update (h : Indexed toLowercase look index) (skill : Option SkillGraphNode) :
    ∀ iri', update index.skillSummaries iri (skill.map IndexEntry.fromSkill) iri' =
      (update look iri skill iri').map IndexEntry.fromSkill :=
  forall_update (fun _ entry (node : Option SkillGraphNode) => entry = node.map IndexEntry.fromSkill) rfl
    h.summaries

theorem indexSkill (h : Indexed toLowercase look index) (hregisters : Registers toLowercase look skill) :
    Indexed toLowercase (update look skill.skillIri (some skill)) (index.indexSkill toLowercase skill) where
  iris := h.iris_update rfl
  live := h.live_update hregisters.live
  summaries := h.summaries_update (some skill)
  tags := h.tags.post hregisters.tags
  stackIris := h.stackIris.post hregisters.stackIris
  roles := h.roles.post hregisters.roles
  deps := by
    have hexact := exact_relink succ_update_of_ne hregisters.dependents (fun x _ y => h.deps x y)
      fun hrow y hy => hregisters.row (succ_update_self ▸ hrow) y ((h.deps _ y).1 hy)
    rw [succ_update_self] at hexact
    exact hexact

theorem updateSkill (h : Indexed toLowercase look index) (hold : look iri = some old) (hiri : skill.skillIri = iri)
    (hlive : isLive skill) (hdependents : KeepsDependents look iri (some skill)) :
    Indexed toLowercase (update look iri (some skill)) (index.updateSkill toLowercase skill) := by
  subst hiri
  have hsummary : index.skillSummaries skill.skillIri = some (.fromSkill old) := by
    rw [h.summaries, hold, map_some]
  unfold PreAggregatedIndex.updateSkill PreAggregatedIndex.removeSkill
  rw [hsummary]
  refine
    { iris := h.iris_update rfl
      live := h.live_update hlive
      summaries := ?_
      tags := h.tags.replace hold
      stackIris := h.stackIris.replace hold
      roles := h.roles.replace hold
      deps := ?_ }
  · intro iri'
    rw [← h.summaries_update (some skill) iri']
    change update (update index.skillSummaries skill.skillIri none) skill.skillIri _ iri' = _
    rw [update_idem]
    rfl
  · have hrows : ∀ x, x ≠ skill.skillIri → ∀ y,
        y ∈ update index.transitiveDeps skill.skillIri ∅ x ↔ Reaches (succ look) x y := by
      intro x hx y
      rw [update_of_ne hx]
      exact h.deps x y
    have hexact := exact_relink succ_update_of_ne hdependents hrows fun _ y hy => by
      rw [update_self] at hy
      exact absurd hy (Finset.notMem_empty y)
    rw [succ_update_self] at hexact
    exact hexact

theorem removeSkill (h : Indexed toLowercase look index) (hold : look iri = some old)
    (hdependents : KeepsDependents look iri none) :
    Indexed toLowercase (update look iri none) (index.removeSkill toLowercase iri) := by
  have hsummary : index.skillSummaries iri = some (.fromSkill old) := by
    rw [h.summaries, hold, map_some]
  have hlook : ∀ iri' skill', update look iri none iri' = some skill' → look iri' = some skill' := by
    rw [forall_update_iff look fun iri' node => ∀ skill', node = some skill' → look iri' = some skill']
    exact ⟨fun _ hnone => (nomatch hnone), fun _ _ _ hlook => hlook⟩
  unfold PreAggregatedIndex.removeSkill
  rw [hsummary]
  refine
    { iris := fun iri' skill' hin => h.iris iri' skill' (hlook iri' skill' hin)
      live := fun iri' skill' hin => h.live iri' skill' (hlook iri' skill' hin)
      summaries := h.summaries_update none
      tags := h.tags.unpost hold
      stackIris := h.stackIris.unpost hold
      roles := h.roles.unpost hold
      deps := ?_ }
  unfold KeepsDependents at hdependents
  rw [succ_update_none] at hdependents ⊢
  exact exact_unlink h.deps hdependents

theorem reindex (h : Indexed toLowercase look index) (hold : look iri = some skill) :
    Indexed toLowercase look (index.updateSkill toLowercase skill) := by
  have hupdate := h.updateSkill hold (h.iris iri skill hold) (h.live iri skill hold)
    (keepsDependents_of_subset fun old hold' => some.inj (hold.symm.trans hold') ▸ List.Subset.refl _)
  rwa [← hold, update_eq_self] at hupdate

end Indexed

/-! ### The store -/

namespace SkillGraphStore

variable {env : SkillEnv} {now : ℤ} {s s' : SkillGraphStore}

/-- The index follows the nodes in memory. -/
def Indexed (env : SkillEnv) (s : SkillGraphStore) : Prop := SkillGraph.Indexed env.toLowercase s.skills.lookup s.index

variable {skills : AList fun _ : String => SkillGraphNode}

theorem lookup_insert (iri : String) (skill : SkillGraphNode) :
    (fun iri' => (skills.insert iri skill).lookup iri') = update (fun iri' => skills.lookup iri') iri (some skill) := by
  funext iri'
  by_cases heq : iri' = iri
  · subst heq
    rw [AList.lookup_insert, update_self]
  · rw [AList.lookup_insert_ne heq, update_of_ne heq]

theorem lookup_erase (iri : String) :
    (fun iri' => (skills.erase iri).lookup iri') = update (fun iri' => skills.lookup iri') iri none := by
  funext iri'
  by_cases heq : iri' = iri
  · subst heq
    rw [AList.lookup_erase, update_self]
  · rw [AList.lookup_erase_ne heq, update_of_ne heq]

variable {skill : SkillGraphNode}

theorem mem_values : skill ∈ s.values ↔ ∃ iri, s.skills.lookup iri = some skill := by
  unfold values
  rw [List.mem_map]
  constructor
  · rintro ⟨⟨iri, skill'⟩, hin, rfl⟩
    exact ⟨iri, mem_lookup_iff.2 hin⟩
  · rintro ⟨iri, hlook⟩
    exact ⟨⟨iri, skill⟩, mem_lookup_iff.1 hlook, rfl⟩

namespace Indexed

theorem mem_values (h : s.Indexed env) : skill ∈ s.values ↔ s.skills.lookup skill.skillIri = some skill := by
  rw [SkillGraphStore.mem_values]
  constructor
  · rintro ⟨iri, hlook⟩
    rw [h.iris iri skill hlook]
    exact hlook
  · exact fun hlook => ⟨_, hlook⟩

end Indexed

/-- Nodes that lie under their IRIs have different ones. -/
theorem nodup_values_of_iris (h : ∀ iri skill, s.skills.lookup iri = some skill → skill.skillIri = iri) :
    (s.values.map (·.skillIri)).Nodup := by
  have hkeys : s.values.map (·.skillIri) = s.skills.keys := by
    unfold values AList.keys List.keys
    rw [List.map_map]
    refine map_congr_left fun row hrow => ?_
    exact h row.1 row.2 (mem_lookup_iff.2 hrow)
  rw [hkeys]
  exact s.skills.keys_nodup

theorem nodup_findSkillsByTags (h : ∀ iri skill, s.skills.lookup iri = some skill → skill.skillIri = iri)
    (order : WalkOrder) (tags : List String) : ((s.findSkillsByTags env order tags).map (·.skillIri)).Nodup := by
  unfold findSkillsByTags
  simp only
  split_ifs
  · have hsublist : ∀ iris : List String,
        ((iris.filterMap fun iri => s.skills.lookup iri).map (·.skillIri)).Sublist iris := by
      intro iris
      induction iris with
      | nil => exact .slnil
      | cons iri iris ih =>
        cases hlook : s.skills.lookup iri with
        | none => simpa only [filterMap_cons, hlook] using ih.cons iri
        | some skill =>
          simpa only [filterMap_cons, hlook, map_cons, h iri skill hlook] using ih.cons_cons iri
    exact ((order.ids_perm _).nodup_iff.2 (PreAggregatedIndex.nodup_findByTagsIntersection tags)).sublist
      (hsublist _)
  · exact (((order.nodes_perm s.values).map _).nodup_iff.2 (nodup_values_of_iris h)).sublist
      (filter_sublist.map _)

variable {tags : List String} {order : WalkOrder}

/-- Without candidates, the nodes are searched. -/
theorem mem_scanned (hnone : s.index.findByTagsIntersection env.toLowercase tags = []) :
    skill ∈ s.findSkillsByTags env order tags ↔
      skill ∈ s.values ∧ ∀ tag ∈ tags, ∃ t ∈ skill.tags, env.toLowercase t = env.toLowercase tag := by
  unfold findSkillsByTags
  simp only [hnone, ne_eq, not_true_eq_false, if_false]
  rw [mem_filter, (order.nodes_perm s.values).mem_iff, List.all_eq_true]
  simp only [carriesTag, List.any_eq_true, decide_eq_true_iff]

theorem mem_looked (hsome : s.index.findByTagsIntersection env.toLowercase tags ≠ []) :
    skill ∈ s.findSkillsByTags env order tags ↔
      ∃ iri ∈ s.index.findByTagsIntersection env.toLowercase tags, s.skills.lookup iri = some skill := by
  unfold findSkillsByTags
  simp only [hsome, ne_eq, not_false_eq_true, if_true]
  rw [mem_filterMap]
  simp only [(order.ids_perm _).mem_iff]

namespace Indexed

/-- An index that follows live nodes equals a scan. -/
theorem equalsScan (h : s.Indexed env) : EqualsScan env s := by
  have hmap : ∀ {keys : List String} {key : String}, env.toLowercase key ∈ keys.map env.toLowercase ↔
      ∃ t ∈ keys, env.toLowercase t = env.toLowercase key := List.mem_map
  have hlive : ∀ {iri : String} {p : SkillGraphNode → Prop}, (∃ skill, s.skills.lookup iri = some skill ∧ p skill) ↔
      ∃ skill, s.skills.lookup iri = some skill ∧ isLive skill ∧ p skill := by
    intro iri p
    refine exists_congr fun skill => and_congr_right fun hlook => ?_
    exact (and_iff_right (h.live iri skill hlook)).symm
  have htags : ∀ tag iri, iri ∈ s.index.findByTag env.toLowercase tag ↔ ∃ skill, s.skills.lookup iri = some skill ∧
      isLive skill ∧ ∃ t ∈ skill.tags, env.toLowercase t = env.toLowercase tag := by
    intro tag iri
    rw [← hlive]
    refine (h.tags _ iri).trans (exists_congr fun skill => and_congr_right fun _ => hmap)
  refine { tags := htags, stackIris := ?_, roles := ?_, found := ?_, deps := h.deps }
  · intro stack iri
    rw [← hlive]
    exact (h.stackIris _ iri).trans (exists_congr fun skill => and_congr_right fun _ => hmap)
  · intro role iri
    rw [← hlive]
    refine (h.roles _ iri).trans (exists_congr fun skill => and_congr_right fun _ => ?_)
    rw [roleKeys, hmap]
    simp only [mem_toList]
    exact Iff.rfl
  · intro order tags
    have hcandidates : ∀ {iri}, iri ∈ s.index.findByTagsIntersection env.toLowercase tags ↔
        tags ≠ [] ∧ ∃ skill, s.skills.lookup iri = some skill ∧
          ∀ tag ∈ tags, ∃ t ∈ skill.tags, env.toLowercase t = env.toLowercase tag := by
      intro iri
      rw [PreAggregatedIndex.mem_findByTagsIntersection]
      refine and_congr_right fun hne => ?_
      constructor
      · intro hall
        obtain ⟨tag, htag⟩ := exists_mem_of_ne_nil tags hne
        obtain ⟨skill, hlook, -⟩ := (htags tag iri).1 (hall tag htag)
        refine ⟨skill, hlook, fun tag htag => ?_⟩
        obtain ⟨skill', hlook', -, hcarries⟩ := (htags tag iri).1 (hall tag htag)
        rwa [some.inj (hlook.symm.trans hlook')]
      · rintro ⟨skill, hlook, hall⟩ tag htag
        exact (htags tag iri).2 ⟨skill, hlook, h.live iri skill hlook, hall tag htag⟩
    refine ⟨nodup_findSkillsByTags h.iris order tags, fun skill => ?_⟩
    by_cases hempty : s.index.findByTagsIntersection env.toLowercase tags = []
    · rw [mem_scanned hempty, h.mem_values]
      exact and_congr_right fun hlook => (and_iff_right (h.live _ skill hlook)).symm
    · rw [mem_looked hempty]
      constructor
      · rintro ⟨iri, hin, hlook⟩
        obtain ⟨-, skill', hlook', hall⟩ := hcandidates.1 hin
        obtain rfl := some.inj (hlook.symm.trans hlook')
        exact ⟨(h.iris iri skill hlook).symm ▸ hlook, h.live iri skill hlook, hall⟩
      · rintro ⟨hlook, -, hall⟩
        obtain ⟨iri, hin⟩ := exists_mem_of_ne_nil _ hempty
        exact ⟨skill.skillIri, hcandidates.2 ⟨(hcandidates.1 hin).1, skill, hlook, hall⟩, hlook⟩

end Indexed

/-! ### Operations on the store -/

theorem persistSkillToL0_eq_ok (h : s.persistSkillToL0 env now skill = .ok s') :
    s'.skills = s.skills ∧ s'.index = s.index := by
  unfold persistSkillToL0 at h
  split at h
  next =>
    cases h
    exact ⟨rfl, rfl⟩
  next l0 hl0 =>
    split_ifs at h
    · cases h
      exact ⟨rfl, rfl⟩
    · split at h
      · exact (nomatch h)
      · cases h
        exact ⟨rfl, rfl⟩

theorem thenPersist_fst (skill : SkillGraphNode) :
    (s.thenPersist env now skill).1.skills = s.skills ∧ (s.thenPersist env now skill).1.index = s.index := by
  unfold thenPersist
  cases hpersist : s.persistSkillToL0 env now skill with
  | error e => exact ⟨rfl, rfl⟩
  | ok s' => exact persistSkillToL0_eq_ok hpersist

/-- Whether L0 takes a node does not depend on the nodes in memory. -/
theorem persistSkillToL0_index (index : PreAggregatedIndex) (skill : SkillGraphNode) :
    ({ s with index }).persistSkillToL0 env now skill =
      (s.persistSkillToL0 env now skill).map fun s' => { s' with index } := by
  unfold persistSkillToL0
  simp only
  split
  · rfl
  · split_ifs
    · rfl
    · split <;> rfl

namespace Indexed

theorem of_eq (h : s.Indexed env) (heq : s'.skills = s.skills ∧ s'.index = s.index) : s'.Indexed env := by
  unfold Indexed
  rw [heq.1, heq.2]
  exact h

theorem hydrateSkill (h : s.Indexed env)
    (hregisters : Registers env.toLowercase (fun iri => s.skills.lookup iri) skill) :
    (s.hydrateSkill env skill).Indexed env := by
  have hindexed := SkillGraph.Indexed.indexSkill h hregisters
  rw [← lookup_insert] at hindexed
  exact hindexed

variable {old : SkillGraphNode}

theorem replaceSkill (h : s.Indexed env) (hold : s.skills.lookup iri = some old)
    (hiri : skill.skillIri = iri) (hlive : isLive skill)
    (hdependents : KeepsDependents (fun iri => s.skills.lookup iri) iri (some skill)) :
    (s.replaceSkill env iri skill).Indexed env := by
  have hindexed := SkillGraph.Indexed.updateSkill h hold hiri hlive hdependents
  rw [← lookup_insert] at hindexed
  exact hindexed

/-- A stored node is replaced by one that has all its links. -/
theorem replaceSkill_of_links (h : s.Indexed env) (hold : s.skills.lookup iri = some old)
    (hiri : skill.skillIri = old.skillIri) (hmaturity : skill.maturity = old.maturity)
    (hlinks : old.links ⊆ skill.links) : (s.replaceSkill env iri skill).Indexed env := by
  refine h.replaceSkill hold (hiri.trans (h.iris iri old hold)) ?_ (keepsDependents_of_subset ?_)
  · unfold isLive
    rw [hmaturity]
    exact h.live iri old hold
  · intro old' hold'
    obtain rfl := some.inj (hold.symm.trans hold')
    unfold SkillGraph.prerequisites
    exact map_subset _ (filter_subset _ hlinks)

theorem thenPersist (h : s.Indexed env) (skill : SkillGraphNode) : (s.thenPersist env now skill).1.Indexed env :=
  h.of_eq (thenPersist_fst skill)

theorem addLink (h : s.Indexed env) (sourceIri : String) (link : SkillLink) :
    (s.addLink env now sourceIri link).1.Indexed env := by
  unfold SkillGraphStore.addLink
  split
  next => exact h
  next source hsource =>
    have hreplace : (s.replaceSkill env sourceIri { source with links := source.links ++ [link] }).Indexed env :=
      h.replaceSkill_of_links hsource rfl rfl (subset_append_left _ _)
    exact hreplace.thenPersist _

theorem batchAddLinks (links : List (String × SkillLink)) :
    ∀ {s : SkillGraphStore}, s.Indexed env → (SkillGraphStore.batchAddLinks env now s links).1.Indexed env := by
  induction links with
  | nil => exact fun h => h
  | cons link links ih => exact fun h => ih (h.addLink link.1 link.2)

theorem linkComponent (h : s.Indexed env) (targetIri componentIri : String) :
    (SkillGraphStore.linkComponent env targetIri s componentIri).Indexed env := by
  unfold SkillGraphStore.linkComponent
  split
  next => exact h
  next component hcomponent =>
    split_ifs
    · exact h
    · exact h.replaceSkill_of_links hcomponent rfl rfl (subset_append_left _ _)

theorem linkComponents (targetIri : String) (componentIris : List String) : ∀ {s : SkillGraphStore}, s.Indexed env →
      (componentIris.foldl (SkillGraphStore.linkComponent env targetIri) s).Indexed env := by
  induction componentIris with
  | nil => exact fun h => h
  | cons iri iris ih => exact fun h => ih (h.linkComponent targetIri iri)

theorem reindexStaleSkills (h : s.Indexed env) (order : WalkOrder) (maxAge : ℤ) :
    (s.reindexStaleSkills env now order maxAge).1.Indexed env := by
  have hfold : ∀ (stale : List SkillGraphNode), (∀ skill ∈ stale, s.skills.lookup skill.skillIri = some skill) →
      ∀ index, SkillGraph.Indexed env.toLowercase (fun iri => s.skills.lookup iri) index →
        SkillGraph.Indexed env.toLowercase (fun iri => s.skills.lookup iri)
          (stale.foldl (fun index skill => index.updateSkill env.toLowercase skill) index) := by
    intro stale
    induction stale with
    | nil => exact fun _ index h => h
    | cons skill stale ih =>
      intro hstored index hindex
      exact ih (fun other hother => hstored other (mem_cons_of_mem _ hother)) _
        (hindex.reindex (hstored skill mem_cons_self))
  refine hfold _ (fun skill hskill => ?_) s.index h
  exact h.mem_values.1 ((order.nodes_perm _).mem_iff.1 (mem_filter.1 hskill).1)

/-- A node is stored with another tier: the index does not show it. -/
theorem retier (h : s.Indexed env) (hskill : s.skills.lookup iri = some skill) (tier : StorageTier) :
    ({ s with skills := s.skills.insert iri { skill with storageTier := tier } }).Indexed env := by
  have hsucc : succ (update (fun iri => s.skills.lookup iri) iri (some { skill with storageTier := tier })) =
      succ fun iri => s.skills.lookup iri := by
    funext x
    by_cases heq : x = iri
    · subst heq
      rw [succ_update_self]
      unfold succ
      simp only [hskill]
    · rw [succ_update_of_ne x heq]
  unfold Indexed
  rw [lookup_insert]
  refine
    { iris := h.iris_update (h.iris iri skill hskill)
      live := h.live_update (h.live iri skill hskill)
      summaries := fun iri' => (h.summaries iri').trans
        (@summary_retier (fun iri => s.skills.lookup iri) _ _ hskill tier iri')
      tags := h.tags.rename hskill rfl
      stackIris := h.stackIris.rename hskill rfl
      roles := h.roles.rename hskill rfl
      deps := ?_ }
  rw [hsucc]
  exact h.deps

theorem archiveAll (iris : List String) : ∀ {s : SkillGraphStore} (archived : ℕ), s.Indexed env →
      (SkillGraphStore.archiveAll env now s iris archived).1.Indexed env := by
  induction iris with
  | nil => exact fun _ h => h
  | cons iri iris ih =>
    intro s archived h
    unfold SkillGraphStore.archiveAll
    split
    next => exact ih archived h
    next skill hskill =>
      have hretier := h.retier hskill .l0Permanent
      simp only
      split
      next => exact hretier
      next s' hpersist => exact ih _ (hretier.of_eq (persistSkillToL0_eq_ok hpersist))

theorem archiveColdSkills (h : s.Indexed env) (order : WalkOrder) (cutoff : ℤ) :
    (s.archiveColdSkills env now order cutoff).1.Indexed env := by
  unfold SkillGraphStore.archiveColdSkills
  simp only
  split_ifs
  · exact h
  · split
    · exact h
    · exact archiveAll _ 0 h

end Indexed

end SkillGraphStore

/-! ### Runs -/

/-- Each node of a list registers, one after the other. -/
def AllRegister (env : SkillEnv) : SkillGraphStore → List SkillGraphNode → Prop
  | _, [] => True
  | s, skill :: skills =>
    Registers env.toLowercase (fun iri => s.skills.lookup iri) skill ∧ AllRegister env (s.hydrateSkill env skill) skills

/-- The operation takes nothing from the index that it does not take out, and stores no deprecated node. -/
def Op.Keeps (env : SkillEnv) (now : ℤ) (s : SkillGraphStore) : Op → Prop
  | .registerSkill skill => Registers env.toLowercase (fun iri => s.skills.lookup iri) skill
  | .updateSkill skill => ∀ old, s.skills.lookup skill.skillIri = some old → isLive skill ∧
      KeepsDependents (fun iri => s.skills.lookup iri) skill.skillIri (some skill) ∧
      ∃ s', s.persistSkillToL0 env now skill = .ok s'
  | .removeSkill skillIri => ∀ old, s.skills.lookup skillIri = some old →
      KeepsDependents (fun iri => s.skills.lookup iri) skillIri none
  | .removeLink sourceIri link => ∀ source, s.skills.lookup sourceIri = some source →
      KeepsDependents (fun iri => s.skills.lookup iri) sourceIri
        (some { source with links := source.links.filter fun other => other ≠ link })
  | .createCompositeSkill targetIri name description componentIris reason =>
      let s := componentIris.foldl (SkillGraphStore.linkComponent env targetIri) s
      Registers env.toLowercase (fun iri => s.skills.lookup iri)
        (s.compositeNode now targetIri name description componentIris reason)
  | .deprecateSkill skillIri => s.skills.lookup skillIri = none
  | .hydrateFromL0 => ∀ l0 entries l0', s.l0Store = some l0 →
      l0.queryByNamedGraph env.l0 now skillGraphNamedGraph = .ok (entries, l0') →
        AllRegister env s (SkillGraphStore.parsedSkills env entries)
  | .addLink _ _ | .batchAddLinks _ | .createFragment _ _ _ _ _ | .recordSkillUsage _ _ | .reindexStaleSkills _ _
  | .archiveColdSkills _ _ => True

namespace SkillGraphStore.Indexed

variable {env : SkillEnv} {now : ℤ} {s : SkillGraphStore}

/-- L0 and the fragments do not show in the index. -/
theorem hydrateAll {skills : List SkillGraphNode} :
    ∀ {s s' : SkillGraphStore}, s.Indexed env → AllRegister env s skills → s'.skills = s.skills ∧ s'.index = s.index →
      (skills.foldl (SkillGraphStore.hydrateSkill env) s').Indexed env := by
  induction skills with
  | nil => exact fun h _ heq => h.of_eq heq
  | cons skill skills ih =>
    intro s s' h hall heq
    refine ih (h.hydrateSkill hall.1) hall.2 ?_
    unfold SkillGraphStore.hydrateSkill
    simp only [heq.1, heq.2, and_self]

theorem step (h : s.Indexed env) {op : Op} (hkeeps : op.Keeps env now s) : (op.step env now s).1.Indexed env := by
  cases op with
  | registerSkill skill => exact (h.hydrateSkill hkeeps).thenPersist skill
  | updateSkill skill =>
    change (SkillGraphStore.updateSkill env now s skill).1.Indexed env
    unfold SkillGraphStore.updateSkill
    split_ifs with hstored
    · obtain ⟨old, hold⟩ := isSome_iff_exists.1 hstored
      obtain ⟨hlive, hdependents, s', hs'⟩ := hkeeps old hold
      simp only [persistSkillToL0_index, hs', Except.map]
      refine (h.replaceSkill hold rfl hlive hdependents).of_eq ?_
      rw [(persistSkillToL0_eq_ok hs').1]
      exact ⟨rfl, rfl⟩
    · exact h
  | removeSkill skillIri =>
    change (SkillGraphStore.removeSkill env s skillIri).1.Indexed env
    unfold SkillGraphStore.removeSkill
    split_ifs with hstored
    · obtain ⟨old, hold⟩ := isSome_iff_exists.1 hstored
      have hremove := SkillGraph.Indexed.removeSkill h hold (hkeeps old hold)
      rw [← lookup_erase] at hremove
      simp only
      split
      · exact hremove
      · split
        · exact hremove
        · exact hremove
    · exact h
  | addLink sourceIri link => exact h.addLink sourceIri link
  | removeLink sourceIri link =>
    change (SkillGraphStore.removeLink env now s sourceIri link).1.Indexed env
    unfold SkillGraphStore.removeLink
    split
    next => exact h
    next source hsource =>
      simp only
      split_ifs
      · exact h
      · have hreplace : (s.replaceSkill env sourceIri
            { source with links := source.links.filter fun other => other ≠ link }).Indexed env :=
          h.replaceSkill hsource (h.iris sourceIri source hsource) (h.live sourceIri source hsource)
            (hkeeps source hsource)
        exact hreplace.thenPersist _
  | batchAddLinks links => exact batchAddLinks links h
  | createFragment fragmentIri attachedTo problem recommendation discoverer =>
    change (SkillGraphStore.createFragment env now s fragmentIri attachedTo problem recommendation discoverer).1.Indexed
      env
    unfold SkillGraphStore.createFragment
    simp only
    split
    next => exact h
    next skill hskill =>
      have hfragments : ∀ fragments, ({ s with fragments }).Indexed env := fun _ => h
      exact (hfragments _).replaceSkill_of_links hskill rfl rfl (List.Subset.refl _)
  | recordSkillUsage skillIri success =>
    change (SkillGraphStore.recordSkillUsage env now s skillIri success).1.Indexed env
    unfold SkillGraphStore.recordSkillUsage
    split
    next => exact h
    next skill hskill => exact h.replaceSkill_of_links hskill rfl rfl (List.Subset.refl _)
  | reindexStaleSkills order maxAge => exact h.reindexStaleSkills order maxAge
  | archiveColdSkills order cutoff => exact h.archiveColdSkills order cutoff
  | createCompositeSkill targetIri name description componentIris reason =>
    exact ((h.linkComponents targetIri componentIris).hydrateSkill hkeeps).thenPersist _
  | deprecateSkill skillIri =>
    change (SkillGraphStore.deprecateSkill env s skillIri).1.Indexed env
    unfold SkillGraphStore.deprecateSkill
    rw [show s.skills.lookup skillIri = none from hkeeps]
    exact h
  | hydrateFromL0 =>
    change (SkillGraphStore.hydrateFromL0 env now s).1.Indexed env
    unfold SkillGraphStore.hydrateFromL0
    split
    next => exact h
    next l0 hl0 =>
      split
      next => exact h
      next entries l0' hquery => exact h.hydrateAll (hkeeps l0 entries l0' hl0 hquery) ⟨rfl, rfl⟩

/-- An empty index follows an empty store. -/
theorem new (l0Store : Option Memory.L0Store) : (SkillGraphStore.new l0Store).Indexed env where
  iris _ _ hlook := (nomatch hlook)
  live _ _ hlook := (nomatch hlook)
  summaries _ := rfl
  tags _ _ := ⟨fun h => absurd h not_mem_nil, fun ⟨_, hlook, _⟩ => (nomatch hlook)⟩
  stackIris _ _ := ⟨fun h => absurd h not_mem_nil, fun ⟨_, hlook, _⟩ => (nomatch hlook)⟩
  roles _ _ := ⟨fun h => absurd h not_mem_nil, fun ⟨_, hlook, _⟩ => (nomatch hlook)⟩
  deps := exact_empty

end SkillGraphStore.Indexed

/-- Operations one after the other, each with its time. -/
def run (env : SkillEnv) : SkillGraphStore → List (ℤ × Op) → SkillGraphStore
  | s, [] => s
  | s, (now, op) :: ops => run env (op.step env now s).1 ops

/-- Every operation of the run keeps the index. -/
def RunKeeps (env : SkillEnv) : SkillGraphStore → List (ℤ × Op) → Prop
  | _, [] => True
  | s, (now, op) :: ops => op.Keeps env now s ∧ RunKeeps env (op.step env now s).1 ops

variable {env : SkillEnv}

theorem indexed_run {ops : List (ℤ × Op)} :
    ∀ {s : SkillGraphStore}, s.Indexed env → RunKeeps env s ops → (run env s ops).Indexed env := by
  induction ops with
  | nil => exact fun h _ => h
  | cons op ops ih => exact fun h hkeeps => ih (h.step hkeeps.1) hkeeps.2

/-- After every run whose operations keep the index, on whatever L0 holds, the index equals a scan. -/
theorem equalsScan_run {env : SkillEnv} {l0Store : Option Memory.L0Store} {ops : List (ℤ × Op)}
    (h : RunKeeps env (.new l0Store) ops) : EqualsScan env (run env (.new l0Store) ops) :=
  (indexed_run (.new l0Store) h).equalsScan

/-! ### Two runs -/

def asListed : WalkOrder := ⟨id, id, fun l => Perm.refl l, fun l => Perm.refl l⟩

/-- A stored node that is deprecated is found: without tags the search goes through the nodes themselves. -/
theorem EqualsScan.live {s : SkillGraphStore} (h : EqualsScan env s) (hlook : s.skills.lookup iri = some skill) :
    isLive skill := by
  have hfound : skill ∈ s.findSkillsByTags env asListed [] := by
    change skill ∈ s.values.filter fun _ => true
    exact mem_filter.2 ⟨SkillGraphStore.mem_values.2 ⟨iri, hlook⟩, rfl⟩
  exact (((h.found asListed []).2 skill).1 hfound).2.1

/-- A node under a new IRI registers, unless it is deprecated. -/
theorem Registers.of_new {toLowercase : String → String}
    (hnew : look skill.skillIri = none) (hlive : isLive skill) : Registers toLowercase look skill := by
  have hno : ∀ {p : SkillGraphNode → Prop}, ∀ old, look skill.skillIri = some old → p old := by
    intro p old hold
    exact (nomatch hnew.symm.trans hold)
  refine
    { live := hlive
      tags := hno
      stackIris := hno
      roles := hno
      dependents := keepsDependents_of_subset hno
      row := fun _ dep hreaches => ?_ }
  refine hreaches.mono fun x => ?_
  by_cases hx : x = skill.skillIri
  · subst hx
    unfold succ
    rw [hnew]
    exact nil_subset _
  · rw [succ_update_of_ne x hx]
    exact List.Subset.refl _

def plainEnv : SkillEnv where
  toLowercase := id
  l0 := ⟨id, fun a _ => a, ""⟩
  toJson := fun _ => ""
  fromJson := fun _ => none
  rateAfter := fun rate _ _ => rate

/-- `SkillGraphNode::new` with a tag and links. -/
def taggedSkill (iri tag : String) (links : List SkillLink) : SkillGraphNode where
  skillIri := iri
  name := iri
  description := iri
  version := "1.0.0"
  nodeType := .atomic
  maturity := "stable"
  tags := [tag]
  w2h := {}
  links
  graphMeta := .new 0
  content := none
  attachedTo := none
  mcpServerId := none
  storageTier := .l0Permanent
  createdAt := 0
  updatedAt := 0
  lastUsedAt := none

/-- A skill and one that requires it. -/
def registerTwo : List (ℤ × Op) :=
  [(0, .registerSkill (taggedSkill "iri://skills/s1" "auth" [])),
    (0, .registerSkill (taggedSkill "iri://skills/s2" "auth"
      [⟨.prerequisite, "iri://skills/s1", .required, "Requires S1"⟩]))]

theorem equalsScan_registerTwo : EqualsScan plainEnv (run plainEnv (.new none) registerTwo) :=
  equalsScan_run ⟨.of_new rfl (by unfold isLive; decide), .of_new (by decide) (by unfold isLive; decide), trivial⟩

/-- A deprecated skill is found by its tag. -/
theorem not_equalsScan_deprecated : ¬EqualsScan plainEnv (run plainEnv (.new none)
      [(0, .registerSkill (taggedSkill "iri://skills/s1" "auth" [])), (0, .deprecateSkill "iri://skills/s1")]) := by
  intro h
  have hlook : (run plainEnv (.new none) [(0, .registerSkill (taggedSkill "iri://skills/s1" "auth" [])),
      (0, .deprecateSkill "iri://skills/s1")]).skills.lookup "iri://skills/s1" =
        some { taggedSkill "iri://skills/s1" "auth" [] with maturity := "deprecated" } := by decide
  exact h.live hlook rfl

end WildAgentOs.SkillGraph
