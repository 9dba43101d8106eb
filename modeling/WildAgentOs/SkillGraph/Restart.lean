import WildAgentOs.SkillGraph.SavedSkills

/-!
# The skill graph after a restart

A store whose L0 holds its skills, and a fresh store that is hydrated from it.  Where a node changes in memory and is
not written, the two differ.

* `getSkillAtLevel`, `Survives`, `Seen`, `InStep`, `Op.Persists`, `survives_run`.
-/

namespace WildAgentOs.SkillGraph

open Json Memory List Function

/-! ### Levels of disclosure -/

inductive DisclosureLevel
  | mocIndex
  | summary5W2H
  | linksExpanded
  | schemaSteps
  | fullContent
  deriving DecidableEq

/-- `{:?}` of a node type. -/
def SkillNodeType.debug : SkillNodeType → String
  | .atomic => "Atomic"
  | .composite => "Composite"
  | .moc => "MOC"
  | .knowledgeFragment => "KnowledgeFragment"
  | .mcpTool => "MCPTool"
  | .bootstrap => "Bootstrap"

/-- `{:?}` of a strength. -/
def LinkStrength.debug : LinkStrength → String
  | .required => "Required"
  | .recommended => "Recommended"
  | .optional => "Optional"
  | .navigation => "Navigation"

/-- How values are written: a float, and the whole of a node. -/
structure LevelEnv where
  number : F32 → Value
  toJsonLd : SkillGraphNode → Value

def strings (items : List String) : Value := .array (items.map .string)

/-- What the index tells of a skill. -/
def summaryAtLevel (level : LevelEnv) (entry : IndexEntry) : DisclosureLevel → Option Value
  | .mocIndex => some <| .object
      [("@id", .string entry.skillIri), ("name", .string entry.name), ("node_type", .string entry.nodeType.debug),
        ("tags", strings entry.tags)]
  | .summary5W2H => some <| .object
      [("@id", .string entry.skillIri), ("name", .string entry.name), ("what", .string entry.what),
        ("why", .string entry.why), ("tags", strings entry.tags), ("success_rate", level.number entry.successRate)]
  | .linksExpanded | .schemaSteps | .fullContent => none

/-- What the node tells. -/
def nodeAtLevel (level : LevelEnv) (skill : SkillGraphNode) : DisclosureLevel → Value
  | .mocIndex => .object
      [("@id", .string skill.skillIri), ("name", .string skill.name), ("description", .string skill.description),
        ("node_type", .string skill.nodeType.debug), ("tags", strings skill.tags)]
  | .summary5W2H => .object
      [("@id", .string skill.skillIri), ("name", .string skill.name), ("what", .string skill.w2h.what),
        ("why", .string skill.w2h.why), ("when", strings skill.w2h.when.applicablePhases),
        ("who", (skill.w2h.who.requiredAgentRole.map Value.string).getD .null), ("tags", strings skill.tags),
        ("success_rate", level.number skill.graphMeta.successRate)]
  | .linksExpanded => .object
      [("@id", .string skill.skillIri), ("name", .string skill.name), ("what", .string skill.w2h.what),
        ("why", .string skill.w2h.why),
        ("links", .array (skill.links.map fun link => .object
          [("type", .string link.linkType.debug), ("target", .string link.targetIri),
            ("strength", .string link.strength.debug), ("description", .string link.description)])),
        ("success_rate", level.number skill.graphMeta.successRate)]
  | .schemaSteps => .object
      [("@id", .string skill.skillIri), ("name", .string skill.name), ("what", .string skill.w2h.what),
        ("steps", .array ((skill.content.elim [] (·.steps)).map fun step => .object
          [("step_id", .string step.stepId), ("order", .number (.posInt step.order.toUInt64)),
            ("action", .string step.action)])),
        ("validation", ((skill.content.bind (·.validation)).elim .null fun validation => .object
          [("method", .string validation.method), ("success_condition", .string validation.successCondition)]))]
  | .fullContent => level.toJsonLd skill

/-- `get_skill_at_level`: the index comes first. -/
def SkillGraphStore.getSkillAtLevel (s : SkillGraphStore) (env : LevelEnv) (skillIri : String)
    (level : DisclosureLevel) : Option Value :=
  ((s.index.getSummary skillIri).bind fun entry => summaryAtLevel env entry level).or
    ((s.skills.lookup skillIri).map fun skill => nodeAtLevel env skill level)

/-- A fresh store that is hydrated from the same L0 has the skills that are not of a session, and answers for them as
this one does. -/
structure Survives (env : SkillEnv) (s fresh : SkillGraphStore) : Prop where
  skills : ∀ iri skill, fresh.skills.lookup iri = some skill ↔
    s.skills.lookup iri = some skill ∧ skill.storageTier ≠ .l1Session
  found : ∀ order order' tags, (fresh.findSkillsByTags env order' tags).Perm
    ((s.findSkillsByTags env order tags).filter fun skill => skill.storageTier ≠ .l1Session)
  levels : ∀ levelEnv iri level skill, s.skills.lookup iri = some skill → skill.storageTier ≠ .l1Session →
    fresh.getSkillAtLevel levelEnv iri level = s.getSkillAtLevel levelEnv iri level

/-! ### The index -/

/-- The index holds the nodes that are seen: all but some of a session. -/
structure Seen (toLowercase : String → String) (look seen : Look) (index : PreAggregatedIndex) : Prop where
  sub : ∀ iri skill, seen iri = some skill → look iri = some skill
  all : ∀ iri skill, look iri = some skill → skill.storageTier ≠ .l1Session → seen iri = some skill
  summaries : ∀ iri, index.skillSummaries iri = (seen iri).map IndexEntry.fromSkill
  tags : Follows (tagKeys toLowercase) index.tagIndex seen

namespace Seen

variable {toLowercase : String → String} {look seen : Look} {index : PreAggregatedIndex} {iri : String}
  {skill : SkillGraphNode}

theorem sub_update (h : Seen toLowercase look seen index) (iri : String) (node node' : Option SkillGraphNode)
    (hnode : ∀ skill, node' = some skill → node = some skill) :
    ∀ iri' skill, update seen iri node' iri' = some skill → update look iri node iri' = some skill :=
  forall_update (fun _ seen look => ∀ skill, seen = some skill → look = some skill) hnode h.sub

theorem all_update (h : Seen toLowercase look seen index) (iri : String) (node node' : Option SkillGraphNode)
    (hnode : ∀ skill, node = some skill → skill.storageTier ≠ .l1Session → node' = some skill) :
    ∀ iri' skill, update look iri node iri' = some skill → skill.storageTier ≠ .l1Session →
      update seen iri node' iri' = some skill :=
  forall_update (fun _ look seen => ∀ skill : SkillGraphNode, look = some skill →
    skill.storageTier ≠ .l1Session → seen = some skill) hnode h.all

theorem summaries_update (h : Seen toLowercase look seen index) (node : Option SkillGraphNode) :
    ∀ iri', update index.skillSummaries iri (node.map IndexEntry.fromSkill) iri' =
      (update seen iri node iri').map IndexEntry.fromSkill :=
  forall_update (fun _ entry (node : Option SkillGraphNode) => entry = node.map IndexEntry.fromSkill) rfl
    h.summaries

/-- A node is indexed, over another whose tags it has. -/
theorem indexSkill (h : Seen toLowercase look seen index)
    (htags : ∀ entry, index.skillSummaries skill.skillIri = some entry →
      entry.tags.map toLowercase ⊆ tagKeys toLowercase skill) :
    Seen toLowercase (update look skill.skillIri (some skill))
      (update seen skill.skillIri (some skill)) (index.indexSkill toLowercase skill) where
  sub := h.sub_update _ _ _ fun _ heq => heq
  all := h.all_update _ _ _ fun _ heq _ => heq
  summaries := h.summaries_update (some skill)
  tags := h.tags.post fun old hold => htags (.fromSkill old) (by rw [h.summaries, hold, Option.map_some])

theorem removeSkill (h : Seen toLowercase look seen index) {node : Option SkillGraphNode}
    (hnode : ∀ skill, node = some skill → skill.storageTier = .l1Session) :
    Seen toLowercase (update look iri node) (update seen iri none) (index.removeSkill toLowercase iri) := by
  have hsub := h.sub_update iri node none fun _ heq => (nomatch heq)
  have hall := h.all_update iri node none fun skill heq hne => absurd (hnode skill heq) hne
  unfold PreAggregatedIndex.removeSkill
  cases hseen : seen iri with
  | none =>
    have hsummary : index.skillSummaries iri = none := by rw [h.summaries, hseen, Option.map_none]
    have hsame : update seen iri none = seen := by rw [← hseen, update_eq_self]
    rw [hsummary]
    refine ⟨hsub, hall, ?_, ?_⟩
    · rw [hsame]
      exact h.summaries
    · rw [hsame]
      exact h.tags
  | some old =>
    have hsummary : index.skillSummaries iri = some (.fromSkill old) := by
      rw [h.summaries, hseen, Option.map_some]
    rw [hsummary]
    exact ⟨hsub, hall, h.summaries_update none, h.tags.unpost hseen⟩

theorem updateSkill (h : Seen toLowercase look seen index) : Seen toLowercase (update look skill.skillIri (some skill))
      (update seen skill.skillIri (some skill)) (index.updateSkill toLowercase skill) := by
  have hremoved : Seen toLowercase (update look skill.skillIri none)
      (update seen skill.skillIri none) (index.removeSkill toLowercase skill.skillIri) :=
    h.removeSkill fun _ heq => (nomatch heq)
  have hindexed : Seen toLowercase _ _ ((index.removeSkill toLowercase skill.skillIri).indexSkill toLowercase skill) :=
    hremoved.indexSkill fun entry hentry => by
      rw [hremoved.summaries, update_self] at hentry
      exact (nomatch hentry)
  rwa [update_idem, update_idem] at hindexed

/-- A node that is seen goes to another tier. -/
theorem retier (h : Seen toLowercase look seen index) (hlook : look iri = some skill)
    (hindexed : index.skillSummaries iri ≠ none) (tier : StorageTier) :
    Seen toLowercase (update look iri (some { skill with storageTier := tier }))
      (update seen iri (some { skill with storageTier := tier })) index := by
  have hseen : seen iri = some skill := by
    cases hseen : seen iri with
    | none => exact absurd (by rw [h.summaries, hseen, Option.map_none]) hindexed
    | some skill' => rw [← hlook, h.sub iri skill' hseen]
  refine
    { sub := h.sub_update _ _ _ fun _ heq => heq
      all := h.all_update _ _ _ fun _ heq _ => heq
      summaries := fun iri' => (h.summaries iri').trans (summary_retier hseen tier iri')
      tags := h.tags.rename hseen rfl }

end Seen

/-! ### The store -/

variable {l0 : L0Store}

namespace SkillGraphStore

variable {env : SkillEnv} {now : ℤ} {s s' : SkillGraphStore}

/-- The nodes by their IRIs. -/
def look (s : SkillGraphStore) : Look := fun iri => s.skills.lookup iri

/-- The nodes lie under their IRIs, the index holds them, and L0 does. -/
structure InStep (env : SkillEnv) (s : SkillGraphStore) : Prop where
  iris : ∀ iri skill, s.look iri = some skill → skill.skillIri = iri
  seen : ∃ seen, Seen env.toLowercase s.look seen s.index
  saved : ∃ l0, s.l0Store = some l0 ∧ Saved env s.look l0

/-- What a node must be for L0, when it is written. -/
def Stores (env : SkillEnv) (now : ℤ) (s : SkillGraphStore) (skill : SkillGraphNode) : Prop :=
  ∀ l0, s.l0Store = some l0 → Storable env now s.look l0 skill

/-- A node that changes in memory alone is of a session. -/
def IsSession (s : SkillGraphStore) (iri : String) : Prop :=
  ∀ skill, s.look iri = some skill → skill.storageTier = .l1Session

/-- Each link of a list is added, one after the other, to a node that is stored. -/
def AllStore (env : SkillEnv) (now : ℤ) : SkillGraphStore → List (String × SkillLink) → Prop
  | _, [] => True
  | s, (source, link) :: links =>
    (∀ skill, s.look source = some skill → s.Stores env now { skill with links := skill.links ++ [link] }) ∧
      AllStore env now (s.addLink env now source link).1 links

/-- Each node of a list is archived, one after the other, and its index shows it. -/
def AllArchive (env : SkillEnv) (now : ℤ) : SkillGraphStore → List String → Prop
  | _, [] => True
  | s, iri :: iris =>
    match s.skills.lookup iri with
    | none => AllArchive env now s iris
    | some skill =>
      let skill := { skill with storageTier := .l0Permanent }
      s.index.skillSummaries iri ≠ none ∧ s.Stores env now skill ∧
        ∀ s', ({ s with skills := s.skills.insert iri skill }).persistSkillToL0 env now skill = .ok s' →
          AllArchive env now s' iris

/-- The skills that `archive_cold_skills` archives. -/
def coldIris (s : SkillGraphStore) (order : WalkOrder) (cutoff : ℤ) : List String :=
  ((order.nodes s.values).filter fun skill =>
    skill.storageTier ≠ .l0Permanent ∧ ∀ used ∈ skill.lastUsedAt, used < cutoff).map (·.skillIri)

/-- The component has its link to the composite. -/
def isLinked (targetIri : String) (component : SkillGraphNode) : Prop :=
  component.links.any (fun link => link.linkType = .composition ∧ link.targetIri = targetIri) = true

theorem look_insert (iri : String) (skill : SkillGraphNode) :
    ({ s with skills := s.skills.insert iri skill }).look = update s.look iri (some skill) :=
  lookup_insert iri skill

theorem look_replaceSkill (iri : String) (skill : SkillGraphNode) :
    (s.replaceSkill env iri skill).look = update s.look iri (some skill) :=
  lookup_insert iri skill

variable {skill : SkillGraphNode} {iri : String} {order : WalkOrder}

namespace InStep

/-- A node is set, in memory, in the index and in L0. -/
theorem of_update (h : s.InStep env) (hiri : skill.skillIri = iri) (hlook : s'.look = update s.look iri (some skill))
    (hseen : ∃ seen, Seen env.toLowercase (update s.look iri (some skill)) seen s'.index)
    (hsaved : ∃ l0, s'.l0Store = some l0 ∧ Saved env (update s.look iri (some skill)) l0) : s'.InStep env := by
  refine ⟨fun iri' skill' hin => ?_, hlook ▸ hseen, hlook ▸ hsaved⟩
  rw [hlook] at hin
  by_cases heq : iri' = iri
  · subst heq
    rw [update_self] at hin
    rw [← Option.some.inj hin]
    exact hiri
  · rw [update_of_ne heq] at hin
    exact h.iris iri' skill' hin

/-- A node is set in memory and in the index, and then persisted. -/
theorem set (h : s.InStep env) (hiri : skill.skillIri = iri) (hstores : s.Stores env now skill)
    (hlook : s'.look = update s.look iri (some skill))
    (hseen : ∃ seen, Seen env.toLowercase (update s.look iri (some skill)) seen s'.index) (hl0 : s'.l0Store = s.l0Store)
    {s'' : SkillGraphStore} (hpersist : s'.persistSkillToL0 env now skill = .ok s'') : s''.InStep env := by
  subst hiri
  obtain ⟨hskills, hindex⟩ := persistSkillToL0_eq_ok hpersist
  obtain ⟨l0, hl0', hsaved⟩ := h.saved
  refine h.of_update rfl ?_ (hindex ▸ hseen) (hsaved.persist (hl0.trans hl0') (hstores l0 hl0') hpersist)
  rw [← hlook]
  unfold look
  rw [hskills]

variable {old : SkillGraphNode}

/-- A node of a session is set in memory alone. -/
theorem setSession (h : s.InStep env) (hold : s.look iri = some old)
    (hiri : skill.skillIri = old.skillIri) (hsession : s.IsSession iri) (htier : skill.storageTier = old.storageTier)
    (hlook : s'.look = update s.look iri (some skill))
    (hseen : ∃ seen, Seen env.toLowercase (update s.look iri (some skill)) seen s'.index)
    (hl0 : s'.l0Store = s.l0Store) : s'.InStep env := by
  have hstores : s.Stores env 0 skill := by
    intro l0 _
    unfold Storable
    rw [if_pos (htier.trans (hsession old hold)), hiri, h.iris iri old hold]
    exact hsession
  have hpersist : s'.persistSkillToL0 env 0 skill = .ok s' := by
    obtain ⟨l0, hl0', -⟩ := h.saved
    unfold persistSkillToL0
    rw [hl0, hl0']
    simp only
    rw [if_pos (htier.trans (hsession old hold))]
  exact h.set (hiri.trans (h.iris iri old hold)) hstores hlook hseen hl0 hpersist

theorem thenPersist (h : s.InStep env) (hiri : skill.skillIri = iri) (hstores : s.Stores env now skill)
    (hlook : s'.look = update s.look iri (some skill))
    (hseen : ∃ seen, Seen env.toLowercase (update s.look iri (some skill)) seen s'.index) (hl0 : s'.l0Store = s.l0Store)
    (hok : (s'.thenPersist env now skill).2.isOk = true) : (s'.thenPersist env now skill).1.InStep env := by
  unfold SkillGraphStore.thenPersist at hok ⊢
  cases hpersist : s'.persistSkillToL0 env now skill with
  | error e =>
    rw [hpersist] at hok
    exact (nomatch hok)
  | ok s'' => exact h.set hiri hstores hlook hseen hl0 hpersist

theorem seen_updateSkill (h : s.InStep env) (hiri : skill.skillIri = iri) :
    ∃ seen, Seen env.toLowercase (update s.look iri (some skill)) seen (s.index.updateSkill env.toLowercase skill) := by
  subst hiri
  obtain ⟨seen, hseen⟩ := h.seen
  exact ⟨_, hseen.updateSkill⟩

theorem registerSkill (h : s.InStep env) (hstores : s.Stores env now skill)
    (htags : ∀ entry, s.index.skillSummaries skill.skillIri = some entry →
      entry.tags.map env.toLowercase ⊆ tagKeys env.toLowercase skill)
    (hok : (s.registerSkill env now skill).2.isOk = true) : (s.registerSkill env now skill).1.InStep env := by
  obtain ⟨seen, hseen⟩ := h.seen
  exact h.thenPersist rfl hstores (look_insert _ _) ⟨_, hseen.indexSkill htags⟩ rfl hok

theorem updateSkill (h : s.InStep env) (hstores : s.Stores env now skill)
    (hok : (s.updateSkill env now skill).2.isOk = true) : (s.updateSkill env now skill).1.InStep env := by
  unfold SkillGraphStore.updateSkill at hok ⊢
  split_ifs at hok ⊢
  · simp only [persistSkillToL0_index] at hok ⊢
    cases hpersist : s.persistSkillToL0 env now skill with
    | error e =>
      rw [hpersist] at hok
      exact (nomatch hok)
    | ok s' =>
      obtain ⟨hskills, -⟩ := persistSkillToL0_eq_ok hpersist
      obtain ⟨l0, hl0, hsaved⟩ := h.saved
      have hpersisted := hsaved.persist hl0 (hstores l0 hl0) hpersist
      refine h.of_update rfl ?_ (h.seen_updateSkill rfl) hpersisted
      refine (look_insert _ _).trans ?_
      unfold look
      simp only [hskills]
  · exact (nomatch hok)

variable {skillIri : String}

theorem removeSkill (h : s.InStep env) (hok : (s.removeSkill env skillIri).2.isOk = true) :
    (s.removeSkill env skillIri).1.InStep env := by
  obtain ⟨l0, hl0, hsaved⟩ := h.saved
  obtain ⟨seen, hseen⟩ := h.seen
  have hremoved : Seen env.toLowercase (update s.look skillIri none) (update seen skillIri none)
      (s.index.removeSkill env.toLowercase skillIri) := hseen.removeSkill fun _ heq => (nomatch heq)
  unfold SkillGraphStore.removeSkill at hok ⊢
  split_ifs at hok ⊢
  · simp only [hl0] at hok ⊢
    cases hdelete : l0.delete env.l0 skillIri with
    | error e =>
      rw [hdelete] at hok
      exact (nomatch hok)
    | ok answer =>
      obtain ⟨removed, l0'⟩ := answer
      have hlook : (fun iri => (s.skills.erase skillIri).lookup iri) = update s.look skillIri none :=
        lookup_erase skillIri
      have hsaved' := hsaved.delete hdelete
      rw [← hlook] at hremoved hsaved'
      refine ⟨fun iri skill hin => ?_, ⟨_, hremoved⟩, l0', rfl, hsaved'⟩
      change (fun iri => (s.skills.erase skillIri).lookup iri) iri = some skill at hin
      rw [hlook] at hin
      by_cases heq : iri = skillIri
      · subst heq
        rw [update_self] at hin
        exact (nomatch hin)
      · rw [update_of_ne heq] at hin
        exact h.iris iri skill hin
  · exact (nomatch hok)

/-- A stored node is replaced by another of its tier, which is written. -/
theorem replaceSkill (h : s.InStep env) (hold : s.look iri = some old)
    (hiri : skill.skillIri = old.skillIri) (hstores : s.Stores env now skill)
    (hok : ((s.replaceSkill env iri skill).thenPersist env now skill).2.isOk = true) :
    ((s.replaceSkill env iri skill).thenPersist env now skill).1.InStep env := by
  have hiri' := hiri.trans (h.iris iri old hold)
  exact h.thenPersist hiri' hstores (look_insert _ _) (h.seen_updateSkill hiri') rfl hok

variable {sourceIri : String} {link : SkillLink}

theorem addLink (h : s.InStep env)
    (hstores : ∀ skill, s.look sourceIri = some skill → s.Stores env now { skill with links := skill.links ++ [link] })
    (hok : (s.addLink env now sourceIri link).2.isOk = true) : (s.addLink env now sourceIri link).1.InStep env := by
  unfold SkillGraphStore.addLink at hok ⊢
  cases hsource : s.skills.lookup sourceIri with
  | none =>
    rw [hsource] at hok
    exact (nomatch hok)
  | some source =>
    rw [hsource] at hok
    exact h.replaceSkill hsource rfl (hstores source hsource) hok

theorem removeLink (h : s.InStep env) (hstores : ∀ skill, s.look sourceIri = some skill →
      s.Stores env now { skill with links := skill.links.filter fun other => other ≠ link })
    (hok : (s.removeLink env now sourceIri link).2.isOk = true) :
    (s.removeLink env now sourceIri link).1.InStep env := by
  unfold SkillGraphStore.removeLink at hok ⊢
  cases hsource : s.skills.lookup sourceIri with
  | none =>
    rw [hsource] at hok
    exact (nomatch hok)
  | some source =>
    rw [hsource] at hok
    simp only at hok ⊢
    split_ifs at hok ⊢
    · exact (nomatch hok)
    · exact h.replaceSkill hsource rfl (hstores source hsource) hok

/-- A link that cannot be added is passed over: its source is not stored. -/
theorem batchAddLinks (links : List (String × SkillLink)) :
    ∀ {s : SkillGraphStore}, s.InStep env → AllStore env now s links →
      (SkillGraphStore.batchAddLinks env now s links).1.InStep env := by
  induction links with
  | nil => exact fun h _ => h
  | cons link links ih =>
    intro s h hall
    refine ih (?_ : (s.addLink env now link.1 link.2).1.InStep env) hall.2
    cases hsource : s.look link.1 with
    | none =>
      unfold SkillGraphStore.addLink
      rw [show s.skills.lookup link.1 = none from hsource]
      exact h
    | some source =>
      refine h.addLink hall.1 ?_
      obtain ⟨l0, hl0, hsaved⟩ := h.saved
      unfold SkillGraphStore.addLink SkillGraphStore.thenPersist
      rw [show s.skills.lookup link.1 = some source from hsource]
      simp only
      have hold : s.look source.skillIri = some source := by
        rw [h.iris _ _ hsource]
        exact hsource
      let skill : SkillGraphNode := { source with links := source.links ++ [link.2] }
      obtain ⟨s', hs'⟩ : ∃ s', (s.replaceSkill env link.1 skill).persistSkillToL0 env now skill = .ok s' :=
        hsaved.persist_ok hl0 hold rfl
      rw [hs']
      rfl

/-- A stored node of a session is replaced, and nothing written. -/
theorem replaceSession (h : s.InStep env) (hold : s.look iri = some old)
    (hiri : skill.skillIri = old.skillIri) (hsession : s.IsSession iri) (htier : skill.storageTier = old.storageTier) :
    (s.replaceSkill env iri skill).InStep env :=
  h.setSession hold hiri hsession htier (look_insert _ _) (h.seen_updateSkill (hiri.trans (h.iris iri old hold))) rfl

theorem createFragment (h : s.InStep env) {fragmentIri attachedTo problem recommendation : String}
    {discoverer : Option String} (hsession : s.IsSession attachedTo) :
    (s.createFragment env now fragmentIri attachedTo problem recommendation discoverer).1.InStep env := by
  have hfragments : ∀ fragments, ({ s with fragments }).InStep env := fun _ => ⟨h.iris, h.seen, h.saved⟩
  unfold SkillGraphStore.createFragment
  simp only
  split
  next => exact hfragments _
  next skill hskill => exact (hfragments _).replaceSession hskill rfl hsession rfl

theorem recordSkillUsage (h : s.InStep env) {success : Bool} (hsession : s.IsSession skillIri) :
    (s.recordSkillUsage env now skillIri success).1.InStep env := by
  unfold SkillGraphStore.recordSkillUsage
  split
  next => exact h
  next skill hskill => exact h.replaceSession hskill rfl hsession rfl

theorem deprecateSkill (h : s.InStep env) (hsession : s.IsSession skillIri) :
    (s.deprecateSkill env skillIri).1.InStep env := by
  unfold SkillGraphStore.deprecateSkill
  split
  next => exact h
  next skill hskill =>
    obtain ⟨seen, hseen⟩ := h.seen
    have hremoved : Seen env.toLowercase
        (update s.look skillIri (some { skill with maturity := "deprecated" }))
        (update seen skillIri none) (s.index.removeSkill env.toLowercase skillIri) := by
      refine hseen.removeSkill ?_
      rintro skill' ⟨⟩
      exact hsession skill hskill
    exact h.setSession hskill (by rfl) hsession (by rfl) (look_insert _ _) ⟨_, hremoved⟩ rfl

theorem reindexStaleSkills (h : s.InStep env) (order : WalkOrder) (maxAge : ℤ) :
    (s.reindexStaleSkills env now order maxAge).1.InStep env := by
  have hfold : ∀ (stale : List SkillGraphNode), (∀ skill ∈ stale, s.look skill.skillIri = some skill) →
      ∀ index, (∃ seen, Seen env.toLowercase s.look seen index) →
        ∃ seen, Seen env.toLowercase s.look seen
          (stale.foldl (fun index skill => index.updateSkill env.toLowercase skill) index) := by
    intro stale
    induction stale with
    | nil => exact fun _ index hindex => hindex
    | cons skill stale ih =>
      rintro hstored index ⟨seen, hseen⟩
      have hself : update s.look skill.skillIri (some skill) = s.look := by
        rw [← hstored skill mem_cons_self, update_eq_self]
      exact ih (fun other hother => hstored other (mem_cons_of_mem _ hother)) _ ⟨_, hself ▸ hseen.updateSkill⟩
  refine ⟨h.iris, hfold _ (fun skill hskill => ?_) s.index h.seen, h.saved⟩
  obtain ⟨iri, hlook⟩ := mem_values.1 ((order.nodes_perm _).mem_iff.1 (mem_filter.1 hskill).1)
  rw [h.iris iri skill hlook]
  exact hlook

theorem archiveAll (iris : List String) :
    ∀ {s : SkillGraphStore} (archived : ℕ), s.InStep env → AllArchive env now s iris →
      (SkillGraphStore.archiveAll env now s iris archived).2.isOk = true →
        (SkillGraphStore.archiveAll env now s iris archived).1.InStep env := by
  induction iris with
  | nil => exact fun _ h _ _ => h
  | cons iri iris ih =>
    intro s archived h hall hok
    unfold SkillGraphStore.archiveAll at hok ⊢
    unfold AllArchive at hall
    cases hskill : s.skills.lookup iri with
    | none =>
      rw [hskill] at hall hok
      exact ih archived h hall hok
    | some skill =>
      rw [hskill] at hall hok
      simp only at hall hok ⊢
      obtain ⟨hindexed, hstores, hrest⟩ := hall
      split at hok
      · exact (nomatch hok)
      · next s' hpersist =>
        obtain ⟨seen, hseen⟩ := h.seen
        have hiri : ({ skill with storageTier := .l0Permanent } : SkillGraphNode).skillIri = iri :=
          h.iris iri skill hskill
        exact ih _ (h.set hiri hstores (look_insert _ _) ⟨_, hseen.retier hskill hindexed .l0Permanent⟩ rfl hpersist)
          (hrest s' hpersist) hok

theorem archiveColdSkills (h : s.InStep env) {cutoff : ℤ} (hall : AllArchive env now s (s.coldIris order cutoff))
    (hok : (s.archiveColdSkills env now order cutoff).2.isOk = true) :
    (s.archiveColdSkills env now order cutoff).1.InStep env := by
  obtain ⟨l0, hl0, -⟩ := h.saved
  unfold SkillGraphStore.archiveColdSkills at hok ⊢
  simp only at hok ⊢
  split_ifs at hok ⊢
  · exact h
  · rw [hl0] at hok ⊢
    exact archiveAll _ 0 h hall hok

/-- Components of a session are linked, and no others. -/
theorem linkComponents (targetIri : String) (componentIris : List String) : ∀ {s : SkillGraphStore}, s.InStep env →
      (∀ iri ∈ componentIris, ∀ component, s.look iri = some component →
        isLinked targetIri component ∨ component.storageTier = .l1Session) →
      (componentIris.foldl (linkComponent env targetIri) s).InStep env := by
  induction componentIris with
  | nil => exact fun h _ => h
  | cons iri iris ih =>
    intro s h hcomponents
    rw [foldl_cons]
    unfold linkComponent
    cases hcomponent : s.skills.lookup iri with
    | none => exact ih h fun iri' hiri' => hcomponents iri' (mem_cons_of_mem _ hiri')
    | some component =>
      simp only
      split_ifs with hlinked
      · exact ih h fun iri' hiri' => hcomponents iri' (mem_cons_of_mem _ hiri')
      · have htier := (hcomponents iri mem_cons_self component hcomponent).resolve_left hlinked
        have hsession : s.IsSession iri := fun skill hskill =>
          Option.some.inj (hcomponent.symm.trans hskill) ▸ htier
        have hreplaced : (s.replaceSkill env iri { component with
            links := component.links ++
              [⟨.composition, targetIri, .recommended, "Is a composite skill"⟩] }).InStep env :=
          h.replaceSession hcomponent (by rfl) hsession (by rfl)
        refine ih hreplaced fun iri' hiri' component' hcomponent' => ?_
        rw [look_replaceSkill] at hcomponent'
        by_cases heq : iri' = iri
        · subst heq
          rw [update_self] at hcomponent'
          rw [← Option.some.inj hcomponent']
          exact .inr htier
        · rw [update_of_ne heq] at hcomponent'
          exact hcomponents iri' (mem_cons_of_mem _ hiri') component' hcomponent'

end InStep

/-! ### Hydration -/

/-- The nodes of a list are inserted into the fresh store. -/
theorem hydrateAll {old : Look} {skills : List SkillGraphNode}
    (hskills : ∀ skill ∈ skills, old skill.skillIri = some skill) :
    ∀ {s : SkillGraphStore}, (∀ iri skill, s.look iri = some skill → old iri = some skill) →
      Seen env.toLowercase s.look s.look s.index →
        (∀ iri skill, (skills.foldl (hydrateSkill env) s).look iri = some skill ↔
          s.look iri = some skill ∨ skill ∈ skills ∧ skill.skillIri = iri) ∧
        Seen env.toLowercase (skills.foldl (hydrateSkill env) s).look (skills.foldl (hydrateSkill env) s).look
          (skills.foldl (hydrateSkill env) s).index := by
  induction skills with
  | nil => exact fun _ hseen => ⟨fun iri skill => by simp, hseen⟩
  | cons skill skills ih =>
    intro s hold hseen
    have hskill := hskills skill mem_cons_self
    have hlook : (s.hydrateSkill env skill).look = update s.look skill.skillIri (some skill) := lookup_insert _ _
    have hsub : ∀ iri other, (s.hydrateSkill env skill).look iri = some other ↔
        s.look iri = some other ∨ other = skill ∧ other.skillIri = iri := by
      intro iri other
      rw [hlook]
      by_cases heq : iri = skill.skillIri
      · subst heq
        rw [update_self]
        constructor
        · rintro ⟨⟩
          exact .inr ⟨rfl, rfl⟩
        · rintro (hother | ⟨rfl, -⟩)
          · rw [← hskill, hold _ _ hother]
          · rfl
      · rw [update_of_ne heq]
        refine (or_iff_left ?_).symm
        rintro ⟨rfl, rfl⟩
        exact heq rfl
    have hindexed : Seen env.toLowercase (s.hydrateSkill env skill).look (s.hydrateSkill env skill).look
        (s.hydrateSkill env skill).index := by
      rw [hlook]
      refine hseen.indexSkill fun entry hentry => ?_
      rw [hseen.summaries] at hentry
      obtain ⟨old', hold', rfl⟩ := Option.map_eq_some_iff.1 hentry
      obtain rfl := Option.some.inj ((hold _ _ hold').symm.trans hskill)
      exact List.Subset.refl _
    obtain ⟨hfinal, hseen'⟩ := ih (fun other hother => hskills other (mem_cons_of_mem _ hother))
      (s := s.hydrateSkill env skill) (fun iri other hother => by
        obtain hother | ⟨rfl, rfl⟩ := (hsub iri other).1 hother
        · exact hold iri other hother
        · exact hskill) hindexed
    refine ⟨fun iri other => ?_, hseen'⟩
    rw [foldl_cons, hfinal, hsub, mem_cons, or_and_right, or_assoc]

/-- An empty index holds the nodes of an empty store. -/
theorem seen_new (env : SkillEnv) (l0Store : Option L0Store) :
    Seen env.toLowercase (new l0Store).look (new l0Store).look (new l0Store).index where
  sub _ _ hlook := hlook
  all _ _ hlook _ := hlook
  summaries _ := rfl
  tags _ _ := ⟨fun h => absurd h not_mem_nil, fun ⟨_, hlook, _⟩ => (nomatch hlook)⟩

variable {tags : List String} {seen : Look}

/-- What a search finds of the skills that are not of a session. -/
theorem mem_findSkillsByTags_of_seen (hiris : ∀ iri skill, s.look iri = some skill → skill.skillIri = iri)
    (hseen : Seen env.toLowercase s.look seen s.index)
    (hne : skill.storageTier ≠ .l1Session) : skill ∈ s.findSkillsByTags env order tags ↔
      s.look skill.skillIri = some skill ∧ ∀ tag ∈ tags, ∃ t ∈ skill.tags, env.toLowercase t = env.toLowercase tag := by
  have hposted : ∀ {iri tag}, iri ∈ s.index.findByTag env.toLowercase tag ↔ ∃ skill, seen iri = some skill ∧
      ∃ t ∈ skill.tags, env.toLowercase t = env.toLowercase tag := by
    intro iri tag
    refine (hseen.tags _ iri).trans (exists_congr fun skill => and_congr_right fun _ => ?_)
    exact mem_map
  by_cases hnone : s.index.findByTagsIntersection env.toLowercase tags = []
  · rw [mem_scanned hnone, mem_values]
    refine and_congr_left fun _ => ⟨?_, fun hlook => ⟨_, hlook⟩⟩
    rintro ⟨iri, hlook⟩
    rw [hiris iri skill hlook]
    exact hlook
  · rw [mem_looked hnone]
    constructor
    · rintro ⟨iri, hin, hlook⟩
      obtain rfl := hiris iri skill hlook
      refine ⟨hlook, fun tag htag => ?_⟩
      obtain ⟨skill', hskill', hcarries⟩ := hposted.1 ((PreAggregatedIndex.mem_findByTagsIntersection.1 hin).2 tag htag)
      obtain rfl := Option.some.inj ((hseen.all _ skill hlook hne).symm.trans hskill')
      exact hcarries
    · rintro ⟨hlook, hall⟩
      refine ⟨skill.skillIri, PreAggregatedIndex.mem_findByTagsIntersection.2 ⟨?_, fun tag htag => ?_⟩, hlook⟩
      · rintro rfl
        exact hnone rfl
      · exact hposted.2 ⟨skill, hseen.all _ skill hlook hne, hall tag htag⟩

/-- What is told of a skill that is not of a session. -/
theorem getSkillAtLevel_of_seen (hseen : Seen env.toLowercase s.look seen s.index) {levelEnv : LevelEnv}
    {level : DisclosureLevel} (hlook : s.look iri = some skill) (hne : skill.storageTier ≠ .l1Session) :
    s.getSkillAtLevel levelEnv iri level =
      (summaryAtLevel levelEnv (.fromSkill skill) level).or (some (nodeAtLevel levelEnv skill level)) := by
  have hsummary : s.index.getSummary iri = some (.fromSkill skill) := by
    refine (hseen.summaries iri).trans ?_
    rw [hseen.all iri skill hlook hne, Option.map_some]
  unfold getSkillAtLevel
  rw [hsummary, show s.skills.lookup iri = some skill from hlook]
  rfl

theorem exists_look_of_found (h : skill ∈ s.findSkillsByTags env order tags) : ∃ iri, s.look iri = some skill := by
  by_cases hnone : s.index.findByTagsIntersection env.toLowercase tags = []
  · exact mem_values.1 ((mem_scanned hnone).1 h).1
  · obtain ⟨iri, -, hlook⟩ := (mem_looked hnone).1 h
    exact ⟨iri, hlook⟩

theorem hydrateFromL0_eq {l0 l0' : L0Store} {entries : List L0Entry} (hl0 : s.l0Store = some l0)
    (hquery : l0.queryByNamedGraph env.l0 now skillGraphNamedGraph = .ok (entries, l0')) :
    s.hydrateFromL0 env now = ((parsedSkills env entries).foldl (hydrateSkill env) { s with l0Store := some l0' },
      .ok (parsedSkills env entries).length) := by
  unfold hydrateFromL0
  rw [hl0]
  simp only
  rw [hquery]

namespace InStep

/-- A store in step survives a restart. -/
theorem survives (h : s.InStep env) (hl0 : s.l0Store = some l0) (now : ℤ) :
    ∃ fresh count, (new (some l0)).hydrateFromL0 env now = (fresh, .ok count) ∧ Survives env s fresh := by
  obtain ⟨l0', hl0', hsaved⟩ := h.saved
  obtain rfl := Option.some.inj (hl0.symm.trans hl0')
  obtain ⟨seen, hseen⟩ := h.seen
  obtain ⟨entries, l0', hquery, hparsed⟩ := hsaved.parsed h.iris now
  have hnew : ∀ iri skill, (new (some l0')).look iri = some skill → s.look iri = some skill :=
    fun _ _ hlook => (nomatch hlook)
  obtain ⟨hlook, hfresh⟩ := hydrateAll (fun skill hskill => ((hparsed skill).1 hskill).1) hnew
    (seen_new env (some l0'))
  refine ⟨(parsedSkills env entries).foldl (hydrateSkill env) (new (some l0')), _, hydrateFromL0_eq rfl hquery, ?_⟩
  have hskills : ∀ iri skill, ((parsedSkills env entries).foldl (hydrateSkill env) (new (some l0'))).look iri =
      some skill ↔ s.look iri = some skill ∧ skill.storageTier ≠ .l1Session := by
    intro iri skill
    rw [hlook]
    constructor
    · rintro (hin | ⟨hin, rfl⟩)
      · exact (nomatch hin)
      · exact (hparsed skill).1 hin
    · rintro ⟨hin, hne⟩
      obtain rfl := h.iris iri skill hin
      exact .inr ⟨(hparsed skill).2 ⟨hin, hne⟩, rfl⟩
  have hiris : ∀ iri skill, ((parsedSkills env entries).foldl (hydrateSkill env) (new (some l0'))).look iri =
      some skill → skill.skillIri = iri := fun iri skill hin => h.iris iri skill ((hskills iri skill).1 hin).1
  refine ⟨hskills, fun order order' tags => ?_, fun levelEnv iri level skill hin hne => ?_⟩
  · refine (perm_ext_iff_of_nodup ?_ ?_).2 fun skill => ?_
    · exact (nodup_findSkillsByTags hiris order' tags).of_map
    · exact ((nodup_findSkillsByTags h.iris order tags).of_map).filter _
    · rw [mem_filter, decide_eq_true_iff]
      by_cases hne : skill.storageTier = .l1Session
      · refine iff_of_false (fun hin => ?_) fun hin => hin.2 hne
        obtain ⟨iri, hlook⟩ := exists_look_of_found hin
        exact ((hskills iri skill).1 hlook).2 hne
      · rw [and_iff_left hne, mem_findSkillsByTags_of_seen h.iris hseen hne,
        mem_findSkillsByTags_of_seen hiris hfresh hne, hskills, and_iff_left hne]
  · rw [getSkillAtLevel_of_seen hseen hin hne, getSkillAtLevel_of_seen hfresh ((hskills iri skill).2 ⟨hin, hne⟩) hne]

end InStep

end SkillGraphStore

/-! ### Runs -/

/-- What an operation must not do: change a node in memory alone, unless it is of a session, write one that is not read
back, or leave it in the index under other tags.  Hydrating is not one of the operations. -/
def Op.Persists (env : SkillEnv) (now : ℤ) (s : SkillGraphStore) : Op → Prop
  | .registerSkill skill => s.Stores env now skill ∧
      ∀ entry, s.index.skillSummaries skill.skillIri = some entry →
        entry.tags.map env.toLowercase ⊆ tagKeys env.toLowercase skill
  | .updateSkill skill => s.Stores env now skill
  | .addLink sourceIri link => ∀ skill, s.look sourceIri = some skill →
      s.Stores env now { skill with links := skill.links ++ [link] }
  | .removeLink sourceIri link => ∀ skill, s.look sourceIri = some skill →
      s.Stores env now { skill with links := skill.links.filter fun other => other ≠ link }
  | .batchAddLinks links => SkillGraphStore.AllStore env now s links
  | .createFragment _ attachedTo _ _ _ => s.IsSession attachedTo
  | .recordSkillUsage skillIri _ | .deprecateSkill skillIri => s.IsSession skillIri
  | .archiveColdSkills order cutoff => SkillGraphStore.AllArchive env now s (s.coldIris order cutoff)
  | .createCompositeSkill targetIri name description componentIris reason =>
      (∀ iri ∈ componentIris, ∀ component, s.look iri = some component →
        SkillGraphStore.isLinked targetIri component ∨ component.storageTier = .l1Session) ∧
      let s := componentIris.foldl (SkillGraphStore.linkComponent env targetIri) s
      let composite := s.compositeNode now targetIri name description componentIris reason
      s.Stores env now composite ∧
        ∀ entry, s.index.skillSummaries targetIri = some entry →
          entry.tags.map env.toLowercase ⊆ tagKeys env.toLowercase composite
  | .hydrateFromL0 => False
  | .removeSkill _ | .reindexStaleSkills _ _ => True

namespace SkillGraphStore.InStep

variable {env : SkillEnv} {now : ℤ} {s : SkillGraphStore}

theorem step (h : s.InStep env) {op : Op} (hpersists : op.Persists env now s) (hok : (op.step env now s).2 = true) :
    (op.step env now s).1.InStep env := by
  cases op with
  | registerSkill skill => exact h.registerSkill hpersists.1 hpersists.2 hok
  | updateSkill skill => exact h.updateSkill hpersists hok
  | removeSkill skillIri => exact h.removeSkill hok
  | addLink sourceIri link => exact h.addLink hpersists hok
  | removeLink sourceIri link => exact h.removeLink hpersists hok
  | batchAddLinks links => exact batchAddLinks links h hpersists
  | createFragment fragmentIri attachedTo problem recommendation discoverer => exact h.createFragment hpersists
  | recordSkillUsage skillIri success => exact h.recordSkillUsage hpersists
  | reindexStaleSkills order maxAge => exact h.reindexStaleSkills order maxAge
  | archiveColdSkills order cutoff => exact h.archiveColdSkills hpersists hok
  | createCompositeSkill targetIri name description componentIris reason =>
    obtain ⟨hcomponents, hstores, htags⟩ := hpersists
    refine (h.linkComponents targetIri componentIris hcomponents).registerSkill hstores htags ?_
    change (((componentIris.foldl (linkComponent env targetIri) s).registerSkill env now _).2.map _).isOk = true at hok
    revert hok
    cases ((componentIris.foldl (linkComponent env targetIri) s).registerSkill env now _).2 <;> exact id
  | deprecateSkill skillIri => exact h.deprecateSkill hpersists
  | hydrateFromL0 => exact hpersists.elim

/-- A store without skills is in step with an L0 that holds none. -/
theorem new (hl0 : Saved env (fun _ => none) l0) : (SkillGraphStore.new (some l0)).InStep env where
  iris _ _ hlook := (nomatch hlook)
  seen := ⟨_, seen_new env (some l0)⟩
  saved := ⟨l0, rfl, hl0⟩

end SkillGraphStore.InStep

/-- Every operation of the run succeeds and persists what it does. -/
def RunPersists (env : SkillEnv) : SkillGraphStore → List (ℤ × Op) → Prop
  | _, [] => True
  | s, (now, op) :: ops =>
    (op.step env now s).2 = true ∧ op.Persists env now s ∧ RunPersists env (op.step env now s).1 ops

theorem inStep_run {env : SkillEnv} {ops : List (ℤ × Op)} :
    ∀ {s : SkillGraphStore}, s.InStep env → RunPersists env s ops → (run env s ops).InStep env := by
  induction ops with
  | nil => exact fun h _ => h
  | cons op ops ih => exact fun h hpersists => ih (h.step hpersists.2.1 hpersists.1) hpersists.2.2

/-- After every run of such operations, on an L0 that holds no skills at first, the skill graph survives a restart. -/
theorem survives_run {env : SkillEnv} {l0 l0' : L0Store} {ops : List (ℤ × Op)} (hl0 : Saved env (fun _ => none) l0)
    (h : RunPersists env (.new (some l0)) ops) (hl0' : (run env (.new (some l0)) ops).l0Store = some l0') (now : ℤ) :
    ∃ fresh count, (SkillGraphStore.new (some l0')).hydrateFromL0 env now = (fresh, .ok count) ∧
      Survives env (run env (.new (some l0)) ops) fresh :=
  (inStep_run (.new hl0) h).survives hl0' now

/-! ### A run -/

theorem saved_new (env : SkillEnv) (writable : Bool) : Saved env (fun _ => none) (.new writable) where
  indexed := .new writable
  proper _ _ hlookup := (nomatch hlookup)
  writable _ _ hlook := (nomatch hlook)
  listed _ _ hlookup := (nomatch hlookup)
  finite _ hin := absurd hin not_mem_nil
  sound _ hin := absurd hin not_mem_nil
  complete _ _ hlook := (nomatch hlook)

def sampleSkill : SkillGraphNode := taggedSkill "iri://skills/s1" "auth" []

/-- The JSON of one node is read back. -/
def savingEnv : SkillEnv :=
  { plainEnv with
    toJson := (·.skillIri)
    fromJson := fun content => if content = "iri://skills/s1" then some sampleSkill else none }

theorem runPersists_register : RunPersists savingEnv (.new (some (.new true))) [(0, .registerSkill sampleSkill)] := by
  refine ⟨by decide +kernel, ⟨?_, fun _ hentry => (nomatch hentry)⟩, trivial⟩
  rintro l0 ⟨⟩
  exact ⟨by decide, by decide, by decide, fun _ hentry => (nomatch hentry)⟩

theorem survives_register : ∃ l0', (run savingEnv (.new (some (.new true))) [(0, .registerSkill sampleSkill)]).l0Store =
      some l0' ∧
    ∃ fresh count, (SkillGraphStore.new (some l0')).hydrateFromL0 savingEnv 1 = (fresh, .ok count) ∧
      Survives savingEnv (run savingEnv (.new (some (.new true))) [(0, .registerSkill sampleSkill)]) fresh := by
  obtain ⟨l0', hl0', -⟩ := (inStep_run (.new (saved_new savingEnv true)) runPersists_register).saved
  exact ⟨l0', hl0', survives_run (saved_new savingEnv true) runPersists_register hl0' 1⟩

/-- A skill is used, and its use is not written. -/
def usedSkill : List (ℤ × Op) := [(0, .registerSkill sampleSkill), (1, .recordSkillUsage "iri://skills/s1" true)]

theorem not_survives_used : ∃ l0' fresh count, (run savingEnv (.new (some (.new true))) usedSkill).l0Store = some l0' ∧
    (SkillGraphStore.new (some l0')).hydrateFromL0 savingEnv 2 = (fresh, .ok count) ∧
      ¬Survives savingEnv (run savingEnv (.new (some (.new true))) usedSkill) fresh := by
  obtain ⟨l0', hl0', -⟩ := (inStep_run (.new (saved_new savingEnv true)) runPersists_register).saved
  obtain ⟨fresh, count, hhydrate, hsurvives⟩ :=
    (inStep_run (.new (saved_new savingEnv true)) runPersists_register).survives hl0' 2
  refine ⟨l0', fresh, count, hl0', hhydrate, fun h => ?_⟩
  have hbefore : (run savingEnv (.new (some (.new true))) [(0, .registerSkill sampleSkill)]).skills.lookup
      "iri://skills/s1" = some sampleSkill := by decide +kernel
  have hafter : ((run savingEnv (.new (some (.new true))) usedSkill).skills.lookup "iri://skills/s1").map
      (·.graphMeta.usageCount) = some 1 := by decide +kernel
  have hfresh := (hsurvives.skills "iri://skills/s1" sampleSkill).2 ⟨hbefore, by decide⟩
  rw [((h.skills "iri://skills/s1" sampleSkill).1 hfresh).1] at hafter
  exact absurd hafter (by decide)

end WildAgentOs.SkillGraph
