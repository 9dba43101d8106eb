import WildAgentOs.Lib.Closure
import WildAgentOs.Memory.L0Store

/-!
# Skills and their index

`skill_graph/types.rs` and `skill_graph/index.rs`: the nodes of the skill graph, the postings of their tags,
stacks and roles, and the table of transitive dependencies.  A posting that is not there is empty, as is a row of
the table.  `to_lowercase` is a parameter.  The security information of a node is left out: nothing here reads it.

* `SkillGraphNode`, `IndexEntry`, `PreAggregatedIndex`;
* `indexSkill`, `removeSkill`, `updateSkill`, `findByTagsIntersection`;
* `mem_post`, `mem_unpost`: the postings after each.
-/

namespace WildAgentOs.SkillGraph

open Memory List Function

inductive SkillNodeType
  | atomic
  | composite
  | moc
  | knowledgeFragment
  | mcpTool
  | bootstrap
  deriving DecidableEq

inductive SkillLinkType
  | prerequisite
  | composition
  | related
  | alternative
  | extends
  | generalization
  deriving DecidableEq

inductive LinkStrength
  | required
  | recommended
  | optional
  | navigation
  deriving DecidableEq

structure SkillLink where
  linkType : SkillLinkType
  targetIri : String
  strength : LinkStrength
  description : String
  deriving DecidableEq

structure SkillRole where
  roleName : String := ""
  requiredAgentRole : Option String := none
  deriving DecidableEq

structure SkillTrigger where
  applicablePhases : List String := []
  triggerCondition : Option String := none
  deadlineConstraint : Option String := none
  deriving DecidableEq

structure SkillContext where
  targetStack : List String := []
  repoPattern : Option String := none
  deriving DecidableEq

structure SkillApproach where
  approach : String := ""
  planIri : Option String := none
  deriving DecidableEq

structure SkillCost where
  avgTokenCost : UInt32 := 0
  avgDurationSeconds : UInt32 := 0
  maxSubAgents : UInt32 := 0
  deriving DecidableEq

structure Skill5W2H where
  what : String := ""
  why : String := ""
  who : SkillRole := {}
  when : SkillTrigger := {}
  where_ : SkillContext := {}
  how : SkillApproach := {}
  howMuch : SkillCost := {}
  deriving DecidableEq

structure FailureMode where
  mode : String
  discoveredBy : Option String
  mitigation : String
  deriving DecidableEq

structure SkillGraphMeta where
  createdAt : Option ℤ
  lastVerifiedAt : Option ℤ
  usageCount : UInt32
  successRate : F32
  avgTokenConsumption : UInt32
  knownFailureModes : List FailureMode
  deriving DecidableEq

structure SkillStep where
  stepId : String
  order : UInt32
  action : String
  code : Option String
  references : List String
  deriving DecidableEq

structure SkillValidation where
  method : String
  successCondition : String
  deriving DecidableEq

structure SkillContent where
  summary : String
  steps : List SkillStep
  validation : Option SkillValidation
  deriving DecidableEq

inductive StorageTier
  | l0Permanent
  | l1Session
  | l2Blackboard
  | l3Projection
  deriving DecidableEq

structure SkillGraphNode where
  skillIri : String
  name : String
  description : String
  version : String
  nodeType : SkillNodeType
  maturity : String
  tags : List String
  w2h : Skill5W2H
  links : List SkillLink
  graphMeta : SkillGraphMeta
  content : Option SkillContent
  attachedTo : Option String
  mcpServerId : Option String
  storageTier : StorageTier
  createdAt : ℤ
  updatedAt : ℤ
  lastUsedAt : Option ℤ
  deriving DecidableEq

def SkillGraphMeta.new (now : ℤ) : SkillGraphMeta where
  createdAt := some now
  lastVerifiedAt := none
  usageCount := 0
  -- `1.0`
  successRate := ⟨0x3F800000⟩
  avgTokenConsumption := 0
  knownFailureModes := []

structure IndexEntry where
  skillIri : String
  name : String
  nodeType : SkillNodeType
  maturity : String
  tags : List String
  what : String
  why : String
  stack : List String
  role : Option String
  successRate : F32
  avgTokenCost : UInt32
  deriving DecidableEq

def IndexEntry.fromSkill (skill : SkillGraphNode) : IndexEntry where
  skillIri := skill.skillIri
  name := skill.name
  nodeType := skill.nodeType
  maturity := skill.maturity
  tags := skill.tags
  what := skill.w2h.what
  why := skill.w2h.why
  stack := skill.w2h.where_.targetStack
  role := skill.w2h.who.requiredAgentRole
  successRate := skill.graphMeta.successRate
  avgTokenCost := skill.w2h.howMuch.avgTokenCost

/-! ### Postings -/

/-- The IRIs that are listed under each key. -/
abbrev Postings := String → List String

/-- The IRI is listed under each of the keys. -/
def post (table : Postings) (keys : List String) (iri : String) : Postings :=
  keys.foldl (fun table key => update table key (table key ++ [iri])) table

/-- The IRI is listed under none of the keys. -/
def unpost (table : Postings) (keys : List String) (iri : String) : Postings :=
  keys.foldl (fun table key => update table key ((table key).filter (· ≠ iri))) table

variable {iri iri' key : String} {keys : List String} {table : Postings}

theorem mem_post : iri' ∈ post table keys iri key ↔ iri' ∈ table key ∨ iri' = iri ∧ key ∈ keys := by
  induction keys generalizing table with
  | nil => simp [post]
  | cons k keys ih =>
    change iri' ∈ post (update table k (table k ++ [iri])) keys iri key ↔ _
    rw [ih, mem_cons]
    by_cases hk : key = k
    · subst hk
      rw [update_self, mem_append, mem_singleton]
      tauto
    · rw [update_of_ne hk]
      tauto

theorem mem_unpost : iri' ∈ unpost table keys iri key ↔ iri' ∈ table key ∧ ¬(iri' = iri ∧ key ∈ keys) := by
  induction keys generalizing table with
  | nil => simp [unpost]
  | cons k keys ih =>
    change iri' ∈ unpost (update table k ((table k).filter (· ≠ iri))) keys iri key ↔ _
    rw [ih, mem_cons]
    by_cases hk : key = k
    · subst hk
      rw [update_self, mem_filter, decide_eq_true_iff]
      tauto
    · rw [update_of_ne hk]
      tauto

/-! ### The index -/

structure PreAggregatedIndex where
  tagIndex : Postings
  stackIndex : Postings
  roleIndex : Postings
  transitiveDeps : String → Finset String
  skillSummaries : String → Option IndexEntry

/-- What the prerequisites among some links point to. -/
def prerequisites (links : List SkillLink) : List String :=
  (links.filter fun link => link.linkType = .prerequisite).map (·.targetIri)

namespace PreAggregatedIndex

def new : PreAggregatedIndex := ⟨fun _ => [], fun _ => [], fun _ => [], fun _ => ∅, fun _ => none⟩

variable (toLowercase : String → String) (index : PreAggregatedIndex)

def computeTransitiveDeps (skillIri : String) (links : List SkillLink) : PreAggregatedIndex :=
  { index with transitiveDeps := Closure.relink index.transitiveDeps skillIri (prerequisites links) }

def indexSkill (skill : SkillGraphNode) : PreAggregatedIndex :=
  let entry := IndexEntry.fromSkill skill
  let iri := skill.skillIri
  let index := { index with
    skillSummaries := update index.skillSummaries iri (some entry)
    tagIndex := post index.tagIndex (skill.tags.map toLowercase) iri
    stackIndex := post index.stackIndex (skill.w2h.where_.targetStack.map toLowercase) iri
    roleIndex := post index.roleIndex (skill.w2h.who.requiredAgentRole.toList.map toLowercase) iri }
  index.computeTransitiveDeps iri skill.links

def removeSkill (skillIri : String) : PreAggregatedIndex :=
  let index :=
    match index.skillSummaries skillIri with
    | some entry =>
      { index with
        skillSummaries := update index.skillSummaries skillIri none
        tagIndex := unpost index.tagIndex (entry.tags.map toLowercase) skillIri
        stackIndex := unpost index.stackIndex (entry.stack.map toLowercase) skillIri
        roleIndex := unpost index.roleIndex (entry.role.toList.map toLowercase) skillIri }
    | none => index
  { index with transitiveDeps := update index.transitiveDeps skillIri ∅ }

def updateSkill (skill : SkillGraphNode) : PreAggregatedIndex :=
  (index.removeSkill toLowercase skill.skillIri).indexSkill toLowercase skill

def findByTag (tag : String) : List String := index.tagIndex (toLowercase tag)

def findByStack (stack : String) : List String := index.stackIndex (toLowercase stack)

def findByRole (role : String) : List String := index.roleIndex (toLowercase role)

def getTransitiveDeps (skillIri : String) : Finset String := index.transitiveDeps skillIri

def getSummary (skillIri : String) : Option IndexEntry := index.skillSummaries skillIri

def findByTagsIntersection : List String → List String
  | [] => []
  | tag :: tags =>
    tags.foldl (fun prev tag => prev.filter (· ∈ index.findByTag toLowercase tag))
      (index.findByTag toLowercase tag).dedup

variable {toLowercase index}

theorem mem_findByTagsIntersection {tags : List String} {iri : String} :
    iri ∈ index.findByTagsIntersection toLowercase tags ↔
      tags ≠ [] ∧ ∀ tag ∈ tags, iri ∈ index.findByTag toLowercase tag := by
  have hfold : ∀ (tags prev : List String),
      iri ∈ tags.foldl (fun prev tag => prev.filter (· ∈ index.findByTag toLowercase tag)) prev ↔
        iri ∈ prev ∧ ∀ tag ∈ tags, iri ∈ index.findByTag toLowercase tag := by
    intro tags
    induction tags with
    | nil => simp
    | cons tag tags ih =>
      intro prev
      rw [foldl_cons, ih, mem_filter, decide_eq_true_iff, forall_mem_cons, and_assoc]
  cases tags with
  | nil => simp [findByTagsIntersection]
  | cons tag tags =>
    unfold findByTagsIntersection
    rw [hfold, mem_dedup, forall_mem_cons]
    simp

theorem nodup_findByTagsIntersection (tags : List String) : (index.findByTagsIntersection toLowercase tags).Nodup := by
  have hfold : ∀ (tags prev : List String), prev.Nodup →
      (tags.foldl (fun prev tag => prev.filter (· ∈ index.findByTag toLowercase tag)) prev).Nodup := by
    intro tags
    induction tags with
    | nil => exact fun _ h => h
    | cons tag tags ih => exact fun prev h => ih _ (h.filter _)
  cases tags with
  | nil => exact nodup_nil
  | cons tag tags => exact hfold tags _ (nodup_dedup _)

end PreAggregatedIndex

end WildAgentOs.SkillGraph
