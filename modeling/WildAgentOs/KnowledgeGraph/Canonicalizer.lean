import WildAgentOs.Lib.TripleStore
import WildAgentOs.Memory.TagSearch

/-!
# Canonicalization of extractions

`knowledge_graph/canonicalizer.rs`: candidates are mapped to the object types and link types of an ontology.  A map of
properties is the list of its entries, as they are walked.

* `normalize`, `indexTerms`, `resolve`: which term a candidate names;
* `canonicalNode`, `canonicalEdge`, `canonicalize`, `MatchesOne`, `Distinguished`;
* `NodesDecided`, `EdgeDecided`, `Canonicalized`.
-/

namespace WildAgentOs.KnowledgeGraph.Canonicalizer

open Text Json Memory List

/-- What a candidate is matched with. -/
structure Term where
  id : String
  label : String
  iri : String
  deriving DecidableEq

/-- With the names of its properties. -/
structure ObjectType extends Term where
  properties : List String

structure LinkType extends Term where
  source : String
  target : String

structure OntologyDefinition where
  objectTypes : List ObjectType
  linkTypes : List LinkType

structure NodeDef where
  id : String
  nodeType : String
  label : String
  description : Option String
  properties : List (String × Value)

structure EdgeDef where
  source : String
  target : String
  relation : String
  properties : List (String × Value)

structure LLMExtractionOutput where
  nodes : List NodeDef
  edges : List EdgeDef

inductive CanonicalizationStatus
  | accepted
  | needsReview
  | rejected
  deriving DecidableEq

structure CanonicalizationDecision where
  kind : String
  candidate : String
  status : CanonicalizationStatus
  canonicalIri : Option String
  candidates : List String
  reason : String
  deriving DecidableEq

inductive Resolution
  | accepted (iri : String)
  | needsReview (candidates : List String)
  | rejected
  deriving DecidableEq

def normalize (value : String) : String :=
  String.ofList ((value.toList.filter fun c => !isWhitespace c).map Char.toLower)

def indexTerms (terms : List Term) : IriIndex :=
  terms.foldl (fun index term =>
    [term.id, term.label, term.iri].foldl (fun index key => index.addIri (normalize key) term.iri) index) ∅

def resolve (index : IriIndex) (candidate : String) : Resolution :=
  match index.lookup (normalize candidate) with
  | some [iri] => .accepted iri
  | some candidates => .needsReview candidates
  | none => .rejected

def accepted (kind candidate iri : String) : CanonicalizationDecision :=
  ⟨kind, candidate, .accepted, some iri, [], "exact match to a promoted ontology term"⟩

def rejectedEdge (edge : EdgeDef) (reason : String) : CanonicalizationDecision :=
  ⟨"link_type", edge.relation, .rejected, none, [], reason ++ "; edge " ++ edge.source ++ " -> " ++ edge.target⟩

/-- The decision on a property that is dropped. -/
def droppedProperty (node : NodeDef) (property : String × Value) : CanonicalizationDecision :=
  ⟨"property", node.id ++ "." ++ property.1, .rejected, none, [],
    "property is not declared by the canonical ObjectType"⟩

def canonicalizeProperties (node : NodeDef) (declared : List String) :
    List (String × Value) × List CanonicalizationDecision :=
  (node.properties.filter (·.1 ∈ declared), (node.properties.filter (·.1 ∉ declared)).map (droppedProperty node))

variable (o : OntologyDefinition)

def OntologyDefinition.objectTerms : List Term := o.objectTypes.map (·.toTerm)

def OntologyDefinition.linkTerms : List Term := o.linkTypes.map (·.toTerm)

/-- The properties of the first type with an IRI.  An IRI that is resolved has one. -/
def OntologyDefinition.declared (iri : String) : List String :=
  ((o.objectTypes.find? (·.iri = iri)).map (·.properties)).getD []

/-- A type with the identifier that a link names has the IRI. -/
def OntologyDefinition.isTypeOf (id iri : String) : Bool := o.objectTypes.any fun object => object.id = id ∧ object.iri = iri

/-- A node behind those whose identifiers are seen, with the decisions on it. -/
def canonicalNode (seen : List String) (node : NodeDef) : Option NodeDef × List CanonicalizationDecision :=
  if node.id ∈ seen then (none, [⟨"node", node.id, .rejected, none, [], "duplicate node identifier"⟩])
  else match resolve (indexTerms o.objectTerms) node.nodeType with
    | .accepted iri =>
      let (properties, dropped) := canonicalizeProperties node (o.declared iri)
      (some { node with nodeType := iri, properties }, dropped ++ [accepted "object_type" node.nodeType iri])
    | .needsReview candidates => (none, [⟨"object_type", node.nodeType, .needsReview, none, candidates,
        "multiple promoted ObjectTypes match this candidate"⟩])
    | .rejected => (none, [⟨"object_type", node.nodeType, .rejected, none, [],
        "no promoted ObjectType matches this candidate"⟩])

def canonicalNodes : List String → List NodeDef → List (Option NodeDef × List CanonicalizationDecision)
  | _, [] => []
  | seen, node :: nodes => canonicalNode o seen node :: canonicalNodes (node.id :: seen) nodes

/-- An edge between nodes whose types are known, with the decision on it. -/
def canonicalEdge (nodeTypes : List (String × String)) (edge : EdgeDef) : Option EdgeDef × CanonicalizationDecision :=
  match nodeTypes.lookup edge.source with
  | none => (none, rejectedEdge edge "source was not canonicalized to a promoted ObjectType")
  | some sourceType =>
    match nodeTypes.lookup edge.target with
    | none => (none, rejectedEdge edge "target was not canonicalized to a promoted ObjectType")
    | some targetType =>
      match resolve (indexTerms o.linkTerms) edge.relation with
      | .accepted iri =>
        if (o.linkTypes.find? (·.iri = iri)).any fun link =>
            o.isTypeOf link.source sourceType && o.isTypeOf link.target targetType then
          (some { edge with relation := iri }, accepted "link_type" edge.relation iri)
        else (none, rejectedEdge edge
          "canonical LinkType source/target constraints do not match canonical node types")
      | .needsReview candidates => (none, ⟨"link_type", edge.relation, .needsReview, none, candidates,
          "multiple promoted LinkTypes match this candidate"⟩)
      | .rejected => (none, rejectedEdge edge "no promoted LinkType matches this candidate")

/-- The types of the nodes that are kept, by their identifiers. -/
def nodeTypes (nodes : List NodeDef) : List (String × String) := nodes.map fun node => (node.id, node.nodeType)

def canonicalize (extracted : LLMExtractionOutput) : LLMExtractionOutput × List CanonicalizationDecision :=
  let nodes := canonicalNodes o [] extracted.nodes
  let kept := nodes.filterMap (·.1)
  let edges := extracted.edges.map (canonicalEdge o (nodeTypes kept))
  (⟨kept, edges.filterMap (·.1)⟩, nodes.flatMap (·.2) ++ edges.map (·.2))

/-! ### What is decided -/

/-- The key is the normalized identifier, label or IRI of the term. -/
def Term.Matches (term : Term) (key : String) : Prop :=
  key = normalize term.id ∨ key = normalize term.label ∨ key = normalize term.iri

instance (term : Term) (key : String) : Decidable (term.Matches key) := inferInstanceAs (Decidable (_ ∨ _))

/-- No IRI names another term. -/
def Distinguished (terms : List Term) : Prop :=
  terms.Pairwise fun t t' => ¬t'.Matches (normalize t.iri) ∧ ¬t.Matches (normalize t'.iri)

/-- The candidate names the term and no other one. -/
structure MatchesOne (terms : List Term) (candidate : String) (term : Term) : Prop where
  mem : term ∈ terms
  hit : term.Matches (normalize candidate)
  only : ∀ t ∈ terms, t.Matches (normalize candidate) → t = term

/-- The type is of the ontology, and the properties are its own. -/
def Typed (node : NodeDef) : Prop :=
  ∃ object ∈ o.objectTypes, object.iri = node.nodeType ∧ ∀ property ∈ node.properties, property.1 ∈ object.properties

/-- A node is kept exactly if it is the first with its identifier and names one type. -/
inductive NodesDecided : List NodeDef → List NodeDef → List (Option NodeDef × List CanonicalizationDecision) → Prop
  | nil {before : List NodeDef} : NodesDecided before [] []
  | kept {before nodes : List NodeDef} {node : NodeDef} {outs : List (Option NodeDef × List CanonicalizationDecision)}
      {object : ObjectType} (hfirst : node.id ∉ before.map (·.id)) (hobject : object ∈ o.objectTypes)
      (hmatch : MatchesOne o.objectTerms node.nodeType object.toTerm) (h : NodesDecided (before ++ [node]) nodes outs) :
      NodesDecided before (node :: nodes)
        ((some { node with
            nodeType := object.iri
            properties := node.properties.filter (·.1 ∈ object.properties) },
          (node.properties.filter (·.1 ∉ object.properties)).map (droppedProperty node) ++
            [accepted "object_type" node.nodeType object.iri]) :: outs)
  | refused {before nodes : List NodeDef} {node : NodeDef}
      {outs : List (Option NodeDef × List CanonicalizationDecision)} {decision : CanonicalizationDecision}
      (hnot : node.id ∈ before.map (·.id) ∨ ∀ object, ¬MatchesOne o.objectTerms node.nodeType object)
      (hdecision : decision.status ≠ .accepted) (h : NodesDecided (before ++ [node]) nodes outs) :
      NodesDecided before (node :: nodes) ((none, [decision]) :: outs)

/-- The link joins types of two nodes that are kept. -/
structure Joins (nodes : List NodeDef) (link : LinkType) (edge : EdgeDef) : Prop where
  source : ∃ node ∈ nodes, node.id = edge.source ∧ o.isTypeOf link.source node.nodeType = true
  target : ∃ node ∈ nodes, node.id = edge.target ∧ o.isTypeOf link.target node.nodeType = true

/-- The relation is a link of the ontology that joins the ends. -/
def Joined (nodes : List NodeDef) (edge : EdgeDef) : Prop :=
  ∃ link ∈ o.linkTypes, link.iri = edge.relation ∧ Joins o nodes link edge

/-- An edge is kept exactly if its relation names one link type, and this joins its ends. -/
inductive EdgeDecided (nodes : List NodeDef) (edge : EdgeDef) : Option EdgeDef × CanonicalizationDecision → Prop
  | kept {link : LinkType} (hlink : link ∈ o.linkTypes) (hmatch : MatchesOne o.linkTerms edge.relation link.toTerm)
      (hjoins : Joins o nodes link edge) : EdgeDecided nodes edge
        (some { edge with relation := link.iri }, accepted "link_type" edge.relation link.iri)
  | refused {decision : CanonicalizationDecision} (hnot : ∀ link ∈ o.linkTypes,
      MatchesOne o.linkTerms edge.relation link.toTerm → ¬Joins o nodes link edge)
      (hdecision : decision.status ≠ .accepted) : EdgeDecided nodes edge (none, decision)

/-- The decisions on the nodes and the edges, one by one; what is kept is of the ontology, and stays as it is. -/
structure Canonicalized (extracted kept : LLMExtractionOutput) (decisions : List CanonicalizationDecision) : Prop where
  decided : ∃ nodes edges, NodesDecided o [] extracted.nodes nodes ∧
    List.Forall₂ (EdgeDecided o kept.nodes) extracted.edges edges ∧
    kept.nodes = nodes.filterMap (·.1) ∧ kept.edges = edges.filterMap (·.1) ∧
    decisions = nodes.flatMap (·.2) ++ edges.map (·.2)
  nodup : (kept.nodes.map (·.id)).Nodup
  typed : ∀ node ∈ kept.nodes, Typed o node
  joined : ∀ edge ∈ kept.edges, Joined o kept.nodes edge
  idempotent : (canonicalize o kept).1 = kept

/-! ### Which term a candidate names -/

variable {o} {terms : List Term} {term : Term} {candidate iri : String}

theorem indexTerms_append :
    indexTerms (terms ++ [term]) = (((indexTerms terms).addIri (normalize term.id) term.iri).addIri
    (normalize term.label) term.iri).addIri (normalize term.iri) term.iri := by
  unfold indexTerms
  rw [foldl_append]
  rfl

theorem mem_indexTerms {key : String} :
    iri ∈ (indexTerms terms).iris key ↔ ∃ term ∈ terms, term.iri = iri ∧ term.Matches key := by
  induction terms using reverseRecOn with
  | nil => exact iff_of_false not_mem_nil fun ⟨_, hin, _⟩ => not_mem_nil hin
  | append_singleton terms term ih =>
    simp only [indexTerms_append, IriIndex.mem_iris_addIri, ih, mem_append, mem_singleton, or_and_right, exists_or,
      exists_eq_left]
    constructor
    · rintro (⟨rfl, rfl⟩ | ⟨rfl, rfl⟩ | ⟨rfl, rfl⟩ | h)
      · exact .inr ⟨rfl, .inr (.inr rfl)⟩
      · exact .inr ⟨rfl, .inr (.inl rfl)⟩
      · exact .inr ⟨rfl, .inl rfl⟩
      · exact .inl h
    · rintro (h | ⟨rfl, h | h | h⟩)
      · exact .inr (.inr (.inr h))
      · exact .inr (.inr (.inl ⟨h, rfl⟩))
      · exact .inr (.inl ⟨h, rfl⟩)
      · exact .inl ⟨h, rfl⟩

theorem proper_indexTerms (terms : List Term) : (indexTerms terms).Proper := by
  induction terms using reverseRecOn with
  | nil => exact fun key iris h => by cases h
  | append_singleton terms term ih =>
    rw [indexTerms_append]
    exact ((ih.addIri _ _).addIri _ _).addIri _ _

theorem resolve_eq_accepted : resolve (indexTerms terms) candidate = .accepted iri ↔
      ∀ iri', iri' ∈ (indexTerms terms).iris (normalize candidate) ↔ iri' = iri := by
  have hlookup := (proper_indexTerms terms).lookup_eq (normalize candidate)
  have hproper := proper_indexTerms terms (normalize candidate)
  unfold resolve
  rw [hlookup] at hproper ⊢
  generalize (indexTerms terms).iris (normalize candidate) = iris at hproper
  rcases iris with _ | ⟨a, _ | ⟨b, iris⟩⟩
  · exact iff_of_false (by simp) fun h => not_mem_nil ((h iri).2 rfl)
  · simp [eq_comm]
  · refine iff_of_false (by simp) fun h => ?_
    have hnodup := (hproper _ (if_neg (cons_ne_nil _ _))).2
    have hsame : a = b := ((h a).1 mem_cons_self).trans ((h b).1 (mem_cons_of_mem _ mem_cons_self)).symm
    exact (nodup_cons.1 hnodup).1 (hsame ▸ mem_cons_self)

section

variable {α : Type} {f : α → Term} {xs : List α} {x : α} (h : Distinguished (xs.map f))
include h

theorem Distinguished.eq_of_matches {y : α} (hx : x ∈ xs) (hy : y ∈ xs)
    (hmatch : (f y).Matches (normalize (f x).iri)) : x = y := by
  by_contra hne
  have hsymm : Std.Symm fun x y => ¬(f y).Matches (normalize (f x).iri) ∧ ¬(f x).Matches (normalize (f y).iri) :=
    ⟨fun _ _ => And.symm⟩
  exact ((pairwise_map.1 h).forall hx hy hne).1 hmatch

theorem Distinguished.eq_of_iri {y : α} (hx : x ∈ xs) (hy : y ∈ xs) (hiri : (f y).iri = (f x).iri) : x = y :=
  h.eq_of_matches hx hy (.inr (.inr (congrArg normalize hiri.symm)))

theorem Distinguished.find?_iri (hx : x ∈ xs) : xs.find? (fun y => (f y).iri = (f x).iri) = some x := by
  cases hfind : xs.find? (fun y => (f y).iri = (f x).iri) with
  | none => exact absurd (decide_eq_true rfl) (find?_eq_none.1 hfind x hx)
  | some y => rw [h.eq_of_iri hx (mem_of_find?_eq_some hfind) (by simpa using find?_some hfind)]

/-- **A candidate is resolved exactly if it names one term.** -/
theorem Distinguished.resolve_iff : resolve (indexTerms (xs.map f)) candidate = .accepted iri ↔
    ∃ x ∈ xs, MatchesOne (xs.map f) candidate (f x) ∧ (f x).iri = iri := by
  simp only [resolve_eq_accepted, mem_indexTerms]
  constructor
  · intro hall
    obtain ⟨term, hin, hiri, hhit⟩ := (hall iri).2 rfl
    obtain ⟨x, hx, rfl⟩ := mem_map.1 hin
    refine ⟨x, hx, ⟨hin, hhit, fun t ht hmatch => ?_⟩, hiri⟩
    obtain ⟨y, hy, rfl⟩ := mem_map.1 ht
    rw [h.eq_of_iri hx hy (((hall _).1 ⟨f y, ht, rfl, hmatch⟩).trans hiri.symm)]
  · rintro ⟨x, -, hmatch, rfl⟩ iri'
    constructor
    · rintro ⟨t, ht, rfl, hhit⟩
      rw [hmatch.only t ht hhit]
    · rintro rfl
      exact ⟨f x, hmatch.mem, rfl, hmatch.hit⟩

theorem Distinguished.resolve_iri (hx : x ∈ xs) : resolve (indexTerms (xs.map f)) (f x).iri = .accepted (f x).iri := by
  refine h.resolve_iff.2 ⟨x, hx, ⟨mem_map_of_mem hx, .inr (.inr rfl), fun t ht hmatch => ?_⟩, rfl⟩
  obtain ⟨y, hy, rfl⟩ := mem_map.1 ht
  rw [h.eq_of_matches hx hy hmatch]

theorem Distinguished.not_matchesOne {r : Resolution} (hresolve : resolve (indexTerms (xs.map f)) candidate = r)
    (hne : ∀ iri, r ≠ .accepted iri) : ¬MatchesOne (xs.map f) candidate term := by
  intro hmatch
  obtain ⟨x, hx, rfl⟩ := mem_map.1 hmatch.mem
  exact hne _ (hresolve.symm.trans (h.resolve_iff.2 ⟨x, hx, hmatch, rfl⟩))

end

/-! ### Nodes -/

variable {seen : List String} {before nodes : List NodeDef} {node : NodeDef} {edge : EdgeDef}

section

variable (hobjects : Distinguished o.objectTerms)
include hobjects

theorem canonicalNode_accepted {object : ObjectType} (hobject : object ∈ o.objectTypes) (hfirst : node.id ∉ seen)
    (hresolve : resolve (indexTerms o.objectTerms) node.nodeType = .accepted object.iri) :
    canonicalNode o seen node = (some { node with
        nodeType := object.iri
        properties := node.properties.filter (·.1 ∈ object.properties) },
      (node.properties.filter (·.1 ∉ object.properties)).map (droppedProperty node) ++
        [accepted "object_type" node.nodeType object.iri]) := by
  have hfind : o.objectTypes.find? (·.iri = object.iri) = some object := hobjects.find?_iri hobject
  have hdeclared : o.declared object.iri = object.properties := by
    unfold OntologyDefinition.declared
    rw [hfind]
    rfl
  unfold canonicalNode canonicalizeProperties
  rw [if_neg hfirst, hresolve]
  simp only [hdeclared]

theorem nodesDecided (hseen : ∀ id, id ∈ seen ↔ id ∈ before.map (·.id)) (nodes : List NodeDef) :
    NodesDecided o before nodes (canonicalNodes o seen nodes) := by
  induction nodes generalizing seen before with
  | nil => exact .nil
  | cons node nodes ih =>
    have hrest : NodesDecided o (before ++ [node]) nodes (canonicalNodes o (node.id :: seen) nodes) := ih fun id => by
      simp [hseen, or_comm]
    change NodesDecided o before (node :: nodes) (canonicalNode o seen node :: canonicalNodes o (node.id :: seen) nodes)
    by_cases hfirst : node.id ∈ seen
    · rw [canonicalNode, if_pos hfirst]
      exact .refused (.inl ((hseen _).1 hfirst)) CanonicalizationStatus.noConfusion hrest
    cases hresolve : resolve (indexTerms o.objectTerms) node.nodeType with
    | accepted iri =>
      obtain ⟨object, hobject, hmatch, rfl⟩ := hobjects.resolve_iff.1 hresolve
      rw [canonicalNode_accepted hobjects hobject hfirst hresolve]
      exact .kept (fun hin => hfirst ((hseen _).2 hin)) hobject hmatch hrest
    | needsReview candidates =>
      rw [canonicalNode, if_neg hfirst, hresolve]
      exact .refused (.inr fun _ => hobjects.not_matchesOne hresolve (by simp)) CanonicalizationStatus.noConfusion hrest
    | rejected =>
      rw [canonicalNode, if_neg hfirst, hresolve]
      exact .refused (.inr fun _ => hobjects.not_matchesOne hresolve (by simp)) CanonicalizationStatus.noConfusion hrest

/-- Typed nodes with identifiers of their own stay as they are. -/
theorem canonicalNodes_typed (htyped : ∀ node ∈ nodes, Typed o node) (hnodup : (nodes.map (·.id)).Nodup)
    (hseen : ∀ node ∈ nodes, node.id ∉ seen) : (canonicalNodes o seen nodes).filterMap (·.1) = nodes := by
  induction nodes generalizing seen with
  | nil => rfl
  | cons node nodes ih =>
    rw [forall_mem_cons] at htyped hseen
    rw [map_cons, nodup_cons] at hnodup
    obtain ⟨⟨object, hobject, hiri, hproperties⟩, htyped⟩ := htyped
    have hresolve : resolve (indexTerms o.objectTerms) object.iri = .accepted object.iri := hobjects.resolve_iri hobject
    have hall : node.properties.filter (·.1 ∈ object.properties) = node.properties :=
      filter_eq_self.2 fun property hin => decide_eq_true (hproperties property hin)
    change ((canonicalNode o seen node :: canonicalNodes o (node.id :: seen) nodes).filterMap (·.1)) = _
    rw [canonicalNode_accepted hobjects hobject hseen.1 (hiri ▸ hresolve), hall, hiri]
    refine congrArg (node :: ·) (ih htyped hnodup.2 fun other hin => ?_)
    rw [mem_cons, not_or]
    exact ⟨fun hsame => hnodup.1 (hsame ▸ mem_map_of_mem hin), hseen.2 other hin⟩

end

section

variable {outs : List (Option NodeDef × List CanonicalizationDecision)} (h : NodesDecided o before nodes outs)
include h

theorem NodesDecided.typed : ∀ node ∈ outs.filterMap (·.1), Typed o node := by
  induction h with
  | nil => exact fun _ hin => absurd hin not_mem_nil
  | kept _ hobject _ _ ih =>
    exact forall_mem_cons.2 ⟨⟨_, hobject, rfl, fun _ hin => of_decide_eq_true (mem_filter.1 hin).2⟩, ih⟩
  | refused _ _ _ ih => exact ih

theorem NodesDecided.nodup : ((outs.filterMap (·.1)).map (·.id)).Nodup ∧
    ∀ node ∈ outs.filterMap (·.1), node.id ∉ before.map (·.id) := by
  induction h with
  | nil => exact ⟨nodup_nil, fun _ hin => absurd hin not_mem_nil⟩
  | kept hfirst _ _ _ ih =>
    simp only [map_append, mem_append, not_or] at ih
    refine ⟨nodup_cons.2 ⟨fun hin => ?_, ih.1⟩, forall_mem_cons.2 ⟨hfirst, fun other hin => (ih.2 other hin).1⟩⟩
    obtain ⟨other, hother, hsame⟩ := mem_map.1 hin
    exact (ih.2 other hother).2 (hsame ▸ mem_singleton_self _)
  | refused _ _ _ ih =>
    simp only [map_append, mem_append, not_or] at ih
    exact ⟨ih.1, fun other hin => (ih.2 other hin).1⟩

end

/-! ### Edges -/

section

variable (hnodup : (nodes.map (·.id)).Nodup)
include hnodup

theorem lookup_nodeTypes {id nodeType : String} :
    (nodeTypes nodes).lookup id = some nodeType ↔ ∃ node ∈ nodes, node.id = id ∧ node.nodeType = nodeType := by
  have hkeys : (nodeTypes nodes).map (·.1) = nodes.map (·.id) := map_map
  rw [TripleStore.lookup_eq_some_iff (hkeys ▸ hnodup), nodeTypes, mem_map]
  simp only [Prod.mk.injEq]

theorem isTypeOf_iff {id nodeType type : String} (hlookup : (nodeTypes nodes).lookup id = some nodeType) :
    (∃ node ∈ nodes, node.id = id ∧ o.isTypeOf type node.nodeType = true) ↔ o.isTypeOf type nodeType = true := by
  constructor
  · rintro ⟨node, hin, hid, htype⟩
    have hsame := hlookup.symm.trans ((lookup_nodeTypes hnodup).2 ⟨node, hin, hid, rfl⟩)
    cases hsame
    exact htype
  · intro htype
    obtain ⟨node, hin, hid, rfl⟩ := (lookup_nodeTypes hnodup).1 hlookup
    exact ⟨node, hin, hid, htype⟩

variable {link : LinkType}

theorem joins_iff : Joins o nodes link edge ↔ ∃ sourceType targetType,
    (nodeTypes nodes).lookup edge.source = some sourceType ∧ (nodeTypes nodes).lookup edge.target = some targetType ∧
      (o.isTypeOf link.source sourceType && o.isTypeOf link.target targetType) = true := by
  constructor
  · rintro ⟨⟨source, hsource, hsid, hstype⟩, target, htarget, htid, httype⟩
    exact ⟨_, _, (lookup_nodeTypes hnodup).2 ⟨source, hsource, hsid, rfl⟩,
      (lookup_nodeTypes hnodup).2 ⟨target, htarget, htid, rfl⟩, Bool.and_eq_true_iff.2 ⟨hstype, httype⟩⟩
  · rintro ⟨sourceType, targetType, hsource, htarget, hboth⟩
    rw [Bool.and_eq_true_iff] at hboth
    exact ⟨(isTypeOf_iff hnodup hsource).2 hboth.1, (isTypeOf_iff hnodup htarget).2 hboth.2⟩

variable (hlinks : Distinguished o.linkTerms)
include hlinks

theorem canonicalEdge_accepted (hlink : link ∈ o.linkTypes) (hjoins : Joins o nodes link edge)
    (hresolve : resolve (indexTerms o.linkTerms) edge.relation = .accepted link.iri) :
    canonicalEdge o (nodeTypes nodes) edge =
      (some { edge with relation := link.iri }, accepted "link_type" edge.relation link.iri) := by
  obtain ⟨sourceType, targetType, hsource, htarget, hboth⟩ := (joins_iff hnodup).1 hjoins
  have hfind : o.linkTypes.find? (·.iri = link.iri) = some link := hlinks.find?_iri hlink
  unfold canonicalEdge
  rw [hsource, htarget, hresolve]
  dsimp only
  rw [hfind, Option.any_some, if_pos hboth]

theorem edgeDecided (edge : EdgeDef) : EdgeDecided o nodes edge (canonicalEdge o (nodeTypes nodes) edge) := by
  by_cases hkept : ∃ link ∈ o.linkTypes, MatchesOne o.linkTerms edge.relation link.toTerm ∧ Joins o nodes link edge
  · obtain ⟨link, hlink, hmatch, hjoins⟩ := hkept
    rw [canonicalEdge_accepted hnodup hlinks hlink hjoins (hlinks.resolve_iff.2 ⟨link, hlink, hmatch, rfl⟩)]
    exact .kept hlink hmatch hjoins
  have hnot : ∀ link ∈ o.linkTypes, MatchesOne o.linkTerms edge.relation link.toTerm → ¬Joins o nodes link edge :=
    fun link hlink hmatch hjoins => hkept ⟨link, hlink, hmatch, hjoins⟩
  unfold canonicalEdge
  cases hsource : (nodeTypes nodes).lookup edge.source with
  | none => exact .refused hnot CanonicalizationStatus.noConfusion
  | some sourceType =>
    cases htarget : (nodeTypes nodes).lookup edge.target with
    | none => exact .refused hnot CanonicalizationStatus.noConfusion
    | some targetType =>
      cases hresolve : resolve (indexTerms o.linkTerms) edge.relation with
      | needsReview candidates => exact .refused hnot CanonicalizationStatus.noConfusion
      | rejected => exact .refused hnot CanonicalizationStatus.noConfusion
      | accepted iri =>
        obtain ⟨link, hlink, hmatch, rfl⟩ := hlinks.resolve_iff.1 hresolve
        have hfind : o.linkTypes.find? (·.iri = link.iri) = some link := hlinks.find?_iri hlink
        have hfails : ¬(o.isTypeOf link.source sourceType && o.isTypeOf link.target targetType) = true :=
          fun hboth => hnot link hlink hmatch ((joins_iff hnodup).2 ⟨_, _, hsource, htarget, hboth⟩)
        dsimp only
        rw [hfind, Option.any_some, if_neg hfails]
        exact .refused hnot CanonicalizationStatus.noConfusion

/-- Joined edges stay as they are. -/
theorem canonicalEdges_joined {edges : List EdgeDef} (hjoined : ∀ edge ∈ edges, Joined o nodes edge) :
    (edges.map (canonicalEdge o (nodeTypes nodes))).filterMap (·.1) = edges := by
  rw [filterMap_map]
  refine (filterMap_congr fun edge hin => ?_).trans filterMap_some
  obtain ⟨link, hlink, hiri, hjoins⟩ := hjoined edge hin
  have hresolve : resolve (indexTerms o.linkTerms) link.iri = .accepted link.iri := hlinks.resolve_iri hlink
  rw [Function.comp_apply, canonicalEdge_accepted hnodup hlinks hlink hjoins (hiri ▸ hresolve), hiri]

end

/-! ### The output -/

/-- What is of the ontology stays as it is. -/
theorem canonicalize_typed (hobjects : Distinguished o.objectTerms) (hlinks : Distinguished o.linkTerms)
    {x : LLMExtractionOutput} (htyped : ∀ node ∈ x.nodes, Typed o node) (hnodup : (x.nodes.map (·.id)).Nodup)
    (hjoined : ∀ edge ∈ x.edges, Joined o x.nodes edge) : (canonicalize o x).1 = x := by
  have hnodes := canonicalNodes_typed hobjects htyped hnodup fun _ _ => not_mem_nil
  unfold canonicalize
  simp only [hnodes, canonicalEdges_joined hnodup hlinks hjoined]

/-- **What is kept is of the ontology and stays as it is, and each input is decided once.** -/
theorem canonicalized (hobjects : Distinguished o.objectTerms) (hlinks : Distinguished o.linkTerms)
    (extracted : LLMExtractionOutput) :
    Canonicalized o extracted (canonicalize o extracted).1 (canonicalize o extracted).2 := by
  have hdecided : NodesDecided o [] extracted.nodes (canonicalNodes o [] extracted.nodes) :=
    nodesDecided hobjects (fun _ => Iff.rfl) _
  have hnodup := hdecided.nodup.1
  have hedges : Forall₂ (EdgeDecided o (canonicalize o extracted).1.nodes) extracted.edges
      (extracted.edges.map (canonicalEdge o (nodeTypes (canonicalize o extracted).1.nodes))) :=
    forall₂_map_right_iff.2 (forall₂_same.2 fun edge _ => edgeDecided hnodup hlinks edge)
  have hjoined : ∀ edge ∈ (canonicalize o extracted).1.edges, Joined o (canonicalize o extracted).1.nodes edge := by
    intro kept hkept
    obtain ⟨out, hout, hsome⟩ := mem_filterMap.1 hkept
    obtain ⟨edge, -, rfl⟩ := mem_map.1 hout
    have hone := edgeDecided hnodup hlinks edge
    generalize canonicalEdge o _ edge = out at hone hsome
    cases hone with
    | kept hlink _ hjoins =>
      cases hsome
      exact ⟨_, hlink, rfl, hjoins.source, hjoins.target⟩
    | refused => cases hsome
  exact ⟨⟨_, _, hdecided, hedges, rfl, rfl, rfl⟩, hnodup, hdecided.typed, hjoined,
    canonicalize_typed hobjects hlinks hdecided.typed hnodup hjoined⟩

/-- People who know each other. -/
def people : OntologyDefinition where
  objectTypes := [⟨⟨"person", "Person", "ex:Person"⟩, ["name"]⟩, ⟨⟨"place", "Place", "ex:Place"⟩, []⟩]
  linkTypes := [⟨⟨"knows", "knows", "ex:knows"⟩, "person", "person"⟩]

theorem canonicalized_people : Canonicalized people ⟨[⟨"a", "Person", "Ann", none, []⟩], [⟨"a", "a", "knows", []⟩]⟩
    (canonicalize people ⟨[⟨"a", "Person", "Ann", none, []⟩], [⟨"a", "a", "knows", []⟩]⟩).1
    (canonicalize people ⟨[⟨"a", "Person", "Ann", none, []⟩], [⟨"a", "a", "knows", []⟩]⟩).2 :=
  canonicalized (o := people) (pairwise_pair.2 (by decide +kernel)) (pairwise_singleton _ _) _

end WildAgentOs.KnowledgeGraph.Canonicalizer
