import Mathlib.Data.List.Destutter
import WildAgentOs.SkillGraph.Index

/-!
# The skill graph store

`skill_graph/graph_store.rs`: the nodes in memory, their index, and the entries in L0.  Every operation is given its
time, and the order in which it walks a map where that order shows.  The mirror in the triple store, whose
failures are only logged, is left out, as are the maps that hold no skills.

* `SkillGraphStore`, `SkillEnv`;
* `registerSkill`, `updateSkill`, `removeSkill`, `addLink`, `removeLink`, `batchAddLinks`, `createFragment`,
  `recordSkillUsage`, `reindexStaleSkills`, `archiveColdSkills`, `createCompositeSkill`, `deprecateSkill`;
* `persistSkillToL0`, `hydrateFromL0`, `findSkillsByTags`, `Op`, `step`.
-/

namespace WildAgentOs.SkillGraph

open Memory

inductive GraphError
  | core (error : CoreError)
  | skillNotFound (iri : String)
  | validationFailed (message : String)
  deriving DecidableEq

structure KnowledgeFragment where
  fragmentIri : String
  name : String
  description : String
  attachedTo : String
  problem : String
  recommendation : String
  discoveredBy : Option String
  discoveredAt : Option ℤ
  deriving DecidableEq

/-- `{:?}` of a link type. -/
def SkillLinkType.debug : SkillLinkType → String
  | .prerequisite => "Prerequisite"
  | .composition => "Composition"
  | .related => "Related"
  | .alternative => "Alternative"
  | .extends => "Extends"
  | .generalization => "Generalization"

/-- What the store uses of others: `to_lowercase`, the L0 store's own surroundings, the JSON of a node, and the floats
of `record_usage`, from the old rate and the old count. -/
structure SkillEnv where
  toLowercase : String → String
  l0 : L0Env
  toJson : SkillGraphNode → String
  fromJson : String → Option SkillGraphNode
  rateAfter : F32 → UInt32 → Bool → F32

/-- The order in which identifiers and nodes are walked. -/
structure WalkOrder where
  ids : List String → List String
  nodes : List SkillGraphNode → List SkillGraphNode
  ids_perm : ∀ l, (ids l).Perm l
  nodes_perm : ∀ l, (nodes l).Perm l

structure SkillGraphStore where
  skills : AList fun _ : String => SkillGraphNode
  fragments : AList fun _ : String => KnowledgeFragment
  index : PreAggregatedIndex
  l0Store : Option L0Store

def skillGraphNamedGraph : String := "system:skill_graph"

/-- `record_usage`; the count wraps, as in a release build. -/
def SkillGraphMeta.recordUsage (env : SkillEnv) (now : ℤ) (success : Bool) (usage : SkillGraphMeta) : SkillGraphMeta :=
  { usage with
    usageCount := usage.usageCount + 1
    successRate := env.rateAfter usage.successRate usage.usageCount success
    lastVerifiedAt := some now }

namespace SkillGraphStore

def new (l0Store : Option L0Store) : SkillGraphStore := ⟨∅, ∅, .new, l0Store⟩

variable (env : SkillEnv) (now : ℤ) (s : SkillGraphStore)

def values : List SkillGraphNode := s.skills.entries.map (·.2)

/-! ### Persistence -/

/-- The entry of a skill in L0. -/
def skillEntry (skill : SkillGraphNode) : L0Entry where
  iri := skill.skillIri
  content := env.toJson skill
  importance := skill.graphMeta.successRate
  accessCount := 0
  createdAt := skill.createdAt
  lastAccessed := now
  tags := skill.tags
  metadata := []
  mesiState := .shared
  contentHash := ""
  namedGraph := some skillGraphNamedGraph
  jsonldContext := none
  jsonldTypes := ["skill:Skill"]
  hyperspacePointId := none

def persistSkillToL0 (skill : SkillGraphNode) : Except GraphError SkillGraphStore :=
  match s.l0Store with
  | none => .ok s
  | some l0 =>
    if skill.storageTier = .l1Session then .ok s
    else
      match l0.storeEntry env.l0 now (skillEntry env now skill) with
      | .error e => .error (.core e)
      | .ok l0 => .ok { s with l0Store := some l0 }

/-- A node that was read is indexed and inserted. -/
def hydrateSkill (skill : SkillGraphNode) : SkillGraphStore :=
  { s with
    index := s.index.indexSkill env.toLowercase skill
    skills := s.skills.insert skill.skillIri skill }

/-- The nodes among the entries: what cannot be parsed is skipped. -/
def parsedSkills (entries : List L0Entry) : List SkillGraphNode :=
  entries.filterMap fun entry => env.fromJson entry.content

def hydrateFromL0 : SkillGraphStore × Except GraphError ℕ :=
  match s.l0Store with
  | none => (s, .error (.core (.internal "L0 store not configured — cannot hydrate")))
  | some l0 =>
    match l0.queryByNamedGraph env.l0 now skillGraphNamedGraph with
    | .error e => (s, .error (.core e))
    | .ok (entries, l0) =>
      let skills := parsedSkills env entries
      (skills.foldl (hydrateSkill env) { s with l0Store := some l0 }, .ok skills.length)

/-! ### Skills -/

/-- The state and the answer of an operation that ends by writing a skill to L0. -/
def thenPersist (skill : SkillGraphNode) : SkillGraphStore × Except GraphError Unit :=
  match s.persistSkillToL0 env now skill with
  | .error e => (s, .error e)
  | .ok s => (s, .ok ())

def registerSkill (skill : SkillGraphNode) : SkillGraphStore × Except GraphError Unit :=
  (s.hydrateSkill env skill).thenPersist env now skill

/-- `update_skill`: the node is replaced once L0 has it. -/
def updateSkill (skill : SkillGraphNode) : SkillGraphStore × Except GraphError Unit :=
  if (s.skills.lookup skill.skillIri).isSome then
    let s := { s with index := s.index.updateSkill env.toLowercase skill }
    match s.persistSkillToL0 env now skill with
    | .error e => (s, .error e)
    | .ok s => ({ s with skills := s.skills.insert skill.skillIri skill }, .ok ())
  else (s, .error (.skillNotFound ("Skill not found: " ++ skill.skillIri)))

def removeSkill (skillIri : String) : SkillGraphStore × Except GraphError Unit :=
  if (s.skills.lookup skillIri).isSome then
    let s := { s with
      skills := s.skills.erase skillIri
      index := s.index.removeSkill env.toLowercase skillIri }
    match s.l0Store with
    | none => (s, .ok ())
    | some l0 =>
      match l0.delete env.l0 skillIri with
      | .error e => (s, .error (.core e))
      | .ok (_, l0) => ({ s with l0Store := some l0 }, .ok ())
  else (s, .error (.skillNotFound ("Skill not found: " ++ skillIri)))

/-- A stored node is replaced, and its index with it. -/
def replaceSkill (iri : String) (skill : SkillGraphNode) : SkillGraphStore :=
  { s with
    skills := s.skills.insert iri skill
    index := s.index.updateSkill env.toLowercase skill }

def addLink (sourceIri : String) (link : SkillLink) : SkillGraphStore × Except GraphError Unit :=
  match s.skills.lookup sourceIri with
  | none => (s, .error (.skillNotFound ("Source skill not found: " ++ sourceIri)))
  | some source =>
    let skill := { source with links := source.links ++ [link] }
    (s.replaceSkill env sourceIri skill).thenPersist env now skill

def removeLink (sourceIri : String) (link : SkillLink) : SkillGraphStore × Except GraphError Unit :=
  match s.skills.lookup sourceIri with
  | none => (s, .error (.skillNotFound ("Source skill not found: " ++ sourceIri)))
  | some source =>
    let links := source.links.filter fun other => other ≠ link
    if links.length = source.links.length then
      (s, .error (.validationFailed ("Link not found: " ++ sourceIri ++ " -> " ++ link.targetIri ++ " (" ++
        link.linkType.debug ++ ")")))
    else
      let skill := { source with links }
      (s.replaceSkill env sourceIri skill).thenPersist env now skill

/-- `batch_add_links`: the number of links that were added. -/
def batchAddLinks : SkillGraphStore → List (String × SkillLink) → SkillGraphStore × ℕ
  | s, [] => (s, 0)
  | s, (source, link) :: links =>
    let (s, added) := s.addLink env now source link
    let (s, count) := batchAddLinks s links
    (s, if added.isOk then count + 1 else count)

/-- `KnowledgeFragment::new` with the discoverer. -/
def newFragment (fragmentIri attachedTo problem recommendation : String) (discoverer : Option String) :
    KnowledgeFragment where
  fragmentIri
  name := "Fragment: " ++ problem
  description := problem
  attachedTo
  problem
  recommendation
  discoveredBy := discoverer
  discoveredAt := some now

def createFragment (fragmentIri attachedTo problem recommendation : String) (discoverer : Option String) :
    SkillGraphStore × KnowledgeFragment :=
  let fragment := newFragment now fragmentIri attachedTo problem recommendation discoverer
  let s := { s with fragments := s.fragments.insert fragmentIri fragment }
  match s.skills.lookup attachedTo with
  | none => (s, fragment)
  | some skill =>
    let failure : FailureMode := ⟨problem, discoverer, recommendation⟩
    let skill := { skill with graphMeta :=
      { skill.graphMeta with knownFailureModes := skill.graphMeta.knownFailureModes ++ [failure] } }
    (s.replaceSkill env attachedTo skill, fragment)

def recordSkillUsage (skillIri : String) (success : Bool) : SkillGraphStore × Except GraphError Unit :=
  match s.skills.lookup skillIri with
  | none => (s, .error (.skillNotFound ("Skill not found: " ++ skillIri)))
  | some skill =>
    (s.replaceSkill env skillIri { skill with graphMeta := skill.graphMeta.recordUsage env now success }, .ok ())

def findStaleSkills (order : WalkOrder) (maxAge : ℤ) : List SkillGraphNode :=
  (order.nodes s.values).filter fun skill => skill.storageTier ≠ .l1Session ∧ skill.updatedAt < now - maxAge

def reindexStaleSkills (order : WalkOrder) (maxAge : ℤ) : SkillGraphStore × ℕ :=
  let stale := s.findStaleSkills now order maxAge
  ({ s with index := stale.foldl (fun index skill => index.updateSkill env.toLowercase skill) s.index }, stale.length)

/-- The loop of `archive_cold_skills`, with the number of skills that it has archived. -/
def archiveAll : SkillGraphStore → List String → ℕ → SkillGraphStore × Except GraphError ℕ
  | s, [], archived => (s, .ok archived)
  | s, iri :: iris, archived =>
    match s.skills.lookup iri with
    | none => archiveAll s iris archived
    | some skill =>
      let skill := { skill with storageTier := .l0Permanent }
      let s := { s with skills := s.skills.insert iri skill }
      match s.persistSkillToL0 env now skill with
      | .error e => (s, .error e)
      | .ok s => archiveAll s iris (archived + 1)

def archiveColdSkills (order : WalkOrder) (cutoff : ℤ) : SkillGraphStore × Except GraphError ℕ :=
  let cold := (order.nodes s.values).filter fun skill =>
    skill.storageTier ≠ .l0Permanent ∧ ∀ used ∈ skill.lastUsedAt, used < cutoff
  let coldIris := cold.map (·.skillIri)
  if coldIris = [] then (s, .ok 0)
  else
    match s.l0Store with
    | none => (s, .error (.core (.internal "L0 store not configured — cannot archive")))
    | some _ => archiveAll env now s coldIris 0

/-- A component is linked to its composite, unless it is already. -/
def linkComponent (targetIri : String) (s : SkillGraphStore) (componentIri : String) : SkillGraphStore :=
  match s.skills.lookup componentIri with
  | none => s
  | some component =>
    if component.links.any fun link => link.linkType = .composition ∧ link.targetIri = targetIri then s
    else
      let link : SkillLink := ⟨.composition, targetIri, .recommended, "Is a composite skill"⟩
      s.replaceSkill env componentIri { component with links := component.links ++ [link] }

/-- The tags of the components, sorted and without repetitions. -/
def compositeTags (componentIris : List String) : List String :=
  (((componentIris.filterMap s.skills.lookup).flatMap (·.tags)).mergeSort fun a b => decide (a ≤ b)).destutter (· ≠ ·)

/-- The node of a composite skill. -/
def compositeNode (targetIri name description : String) (componentIris : List String) (reason : String) :
    SkillGraphNode where
  skillIri := targetIri
  name
  description
  version := "1.0.0"
  nodeType := .composite
  maturity := "experimental"
  tags := s.compositeTags componentIris
  w2h := {}
  links := componentIris.map fun componentIri =>
    ⟨.composition, componentIri, .required, "Composite part: " ++ reason⟩
  graphMeta := .new now
  content := none
  attachedTo := none
  mcpServerId := none
  storageTier := .l0Permanent
  createdAt := now
  updatedAt := now
  lastUsedAt := none

def createCompositeSkill (targetIri name description : String) (componentIris : List String) (reason : String) :
    SkillGraphStore × Except GraphError SkillGraphNode :=
  let s := componentIris.foldl (linkComponent env targetIri) s
  let composite := s.compositeNode now targetIri name description componentIris reason
  let (s, registered) := s.registerSkill env now composite
  (s, registered.map fun _ => composite)

def deprecateSkill (skillIri : String) : SkillGraphStore × Except GraphError Unit :=
  match s.skills.lookup skillIri with
  | none => (s, .error (.skillNotFound ("Skill not found: " ++ skillIri)))
  | some skill =>
    ({ s with
      skills := s.skills.insert skillIri { skill with maturity := "deprecated" }
      index := s.index.removeSkill env.toLowercase skillIri }, .ok ())

/-! ### Queries -/

/-- The skill carries the tag, in whatever case. -/
def carriesTag (skill : SkillGraphNode) (tag : String) : Bool :=
  skill.tags.any fun t => env.toLowercase t = env.toLowercase tag

def findSkillsByTags (order : WalkOrder) (tags : List String) : List SkillGraphNode :=
  let candidates := s.index.findByTagsIntersection env.toLowercase tags
  if candidates ≠ [] then (order.ids candidates).filterMap s.skills.lookup
  else (order.nodes s.values).filter fun skill => tags.all (carriesTag env skill)

end SkillGraphStore

/-! ### Operations -/

inductive Op
  | registerSkill (skill : SkillGraphNode)
  | updateSkill (skill : SkillGraphNode)
  | removeSkill (skillIri : String)
  | addLink (sourceIri : String) (link : SkillLink)
  | removeLink (sourceIri : String) (link : SkillLink)
  | batchAddLinks (links : List (String × SkillLink))
  | createFragment (fragmentIri attachedTo problem recommendation : String) (discoverer : Option String)
  | recordSkillUsage (skillIri : String) (success : Bool)
  | reindexStaleSkills (order : WalkOrder) (maxAge : ℤ)
  | archiveColdSkills (order : WalkOrder) (cutoff : ℤ)
  | createCompositeSkill (targetIri name description : String) (componentIris : List String) (reason : String)
  | deprecateSkill (skillIri : String)
  | hydrateFromL0

/-- The store after an operation, and whether it has succeeded. -/
def Op.step (env : SkillEnv) (now : ℤ) (s : SkillGraphStore) : Op → SkillGraphStore × Bool
  | .registerSkill skill => (s.registerSkill env now skill).map id Except.isOk
  | .updateSkill skill => (s.updateSkill env now skill).map id Except.isOk
  | .removeSkill skillIri => (s.removeSkill env skillIri).map id Except.isOk
  | .addLink sourceIri link => (s.addLink env now sourceIri link).map id Except.isOk
  | .removeLink sourceIri link => (s.removeLink env now sourceIri link).map id Except.isOk
  | .batchAddLinks links => (SkillGraphStore.batchAddLinks env now s links).map id fun _ => true
  | .createFragment fragmentIri attachedTo problem recommendation discoverer =>
    (s.createFragment env now fragmentIri attachedTo problem recommendation discoverer).map id fun _ => true
  | .recordSkillUsage skillIri success => (s.recordSkillUsage env now skillIri success).map id Except.isOk
  | .reindexStaleSkills order maxAge => (s.reindexStaleSkills env now order maxAge).map id fun _ => true
  | .archiveColdSkills order cutoff => (s.archiveColdSkills env now order cutoff).map id Except.isOk
  | .createCompositeSkill targetIri name description componentIris reason =>
    (s.createCompositeSkill env now targetIri name description componentIris reason).map id Except.isOk
  | .deprecateSkill skillIri => (s.deprecateSkill env skillIri).map id Except.isOk
  | .hydrateFromL0 => (s.hydrateFromL0 env now).map id Except.isOk

end WildAgentOs.SkillGraph
