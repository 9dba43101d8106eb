import WildAgentOs.KnowledgeGraph.Canonicalizer

/-!
# Graphs of tool results

`tools/result_router/graphify.rs`: `json_to_graph` makes nodes and edges of a JSON value.

* `childrenOf`, `entities`: the objects that may get nodes;
* `addItems`, `jsonToGraph`: what is kept of them;
* `WellFormed`, `reached`, `wellFormed_iff`.
-/

namespace WildAgentOs.Tools.Graphify

open Json List KnowledgeGraph.Canonicalizer

/-- The first of the keys whose value can be read. -/
def firstOf (obj : List (String × Value)) (read : Value → Option String) (keys : List String) : Option String :=
  keys.findSome? fun key => (obj.lookup key).bind read

/-- `printNumber` is the print of `serde_json`. -/
def extractId (printNumber : Number → String) (obj : List (String × Value)) (idx : ℕ) (callId : String) : String :=
  (firstOf obj (fun value => match value with
    | .string s => some s
    | .number n => some (printNumber n)
    | _ => none) ["id", "ID", "_id", "uid", "key"]).getD (callId ++ "_" ++ toString idx)

def extractLabel (obj : List (String × Value)) (fallback : String) : String :=
  (firstOf obj Value.asStr ["name", "title", "label", "displayName"]).getD fallback

def toIri (s : String) : String :=
  if ["http://", "https://", "iri://"].any fun scheme => scheme.toList <+: s.toList then s
  else "https://agentos.ontology/tool-result/" ++ s

def extractType (obj : List (String × Value)) : String :=
  ((firstOf obj Value.asStr ["@type", "type", "kind", "category"]).map toIri).getD
    "https://agentos.ontology/tool-result/Entity"

def toIriShort (s : String) : String := String.ofList (s.toList.reverse.takeWhile (· ≠ '/')).reverse

def isScalar (value : Value) : Bool := value.asObject.isNone && value.asArray.isNone

/-- The members that are kept in the node of an object. -/
def scalars (obj : List (String × Value)) : List (String × Value) := obj.filter fun member => isScalar member.2

/-- An object that is a member, or an item of a member, of another. -/
structure Child where
  key : String
  id : String
  nodeType : String
  object : List (String × Value)

def Child.node (c : Child) : NodeDef := ⟨c.id, c.nodeType, extractLabel c.object c.id, none, scalars c.object⟩

def Child.edge (parent : String) (c : Child) : EdgeDef := ⟨parent, c.id, "has_" ++ c.key, []⟩

def childrenOf (id : String) (childType itemType : String → String) : String × Value → List Child
  | (key, .object obj) => [⟨key, id ++ "_" ++ key, childType key, obj⟩]
  | (key, .array items) => items.zipIdx.filterMap fun item =>
      item.1.asObject.map fun obj => ⟨key, id ++ "_" ++ key ++ "_" ++ toString item.2, itemType key, obj⟩
  | _ => []

/-- A value at the top, with the object that it is and the objects below it. -/
structure Entity where
  top : NodeDef
  object : Option (List (String × Value))
  children : List Child

def Entity.nodes (e : Entity) : List NodeDef := e.top :: e.children.map Child.node

def Entity.edges (e : Entity) : List EdgeDef := e.children.map (Child.edge e.top.id)

def objectEntity (id nodeType : String) (childType itemType : String → String) (obj : List (String × Value)) : Entity :=
  ⟨⟨id, nodeType, extractLabel obj id, none, scalars obj⟩, some obj, obj.flatMap (childrenOf id childType itemType)⟩

def scalarEntity (id nodeType label : String) (value : Value) : Entity :=
  ⟨⟨id, "https://agentos.ontology/tool-result/" ++ nodeType, label, none, [("value", value)]⟩, none, []⟩

def itemEntity (printNumber : Number → String) (callId : String) : Value × ℕ → Entity
  | (.object obj, idx) =>
    let below := "https://agentos.ontology/tool-result/" ++ toIriShort (extractType obj) ++ "_"
    objectEntity (extractId printNumber obj idx callId) (extractType obj) (below ++ ·) (below ++ · ++ "_item") obj
  | (item, idx) => scalarEntity (callId ++ "_" ++ toString idx) "ScalarItem" ("Item " ++ toString idx) item

def entities (printNumber : Number → String) (callId : String) : Value → List Entity
  | .array items => items.zipIdx.map (itemEntity printNumber callId)
  | .object obj => [objectEntity (callId ++ "_root") "https://agentos.ontology/tool-result/RootObject"
      ("https://agentos.ontology/tool-result/Child_" ++ ·)
      ("https://agentos.ontology/tool-result/" ++ · ++ "_item") obj]
  | json => [scalarEntity (callId ++ "_value") "ScalarValue" "Value" json]

/-- A child is kept while there is room. -/
def pushChild (max : ℕ) (parent : String) (graph : List NodeDef × List EdgeDef) (c : Child) :
    List NodeDef × List EdgeDef :=
  if graph.1.length < max then (graph.1 ++ [c.node], graph.2 ++ [c.edge parent]) else graph

/-- The node of an object is inserted after those of its children, in front. -/
def addEntity (max : ℕ) (graph : List NodeDef × List EdgeDef) (e : Entity) : List NodeDef × List EdgeDef :=
  let (nodes, edges) := e.children.foldl (pushChild max e.top.id) graph
  (if e.object.isSome then e.top :: nodes else nodes ++ [e.top], edges)

/-- The loop over an array. -/
def addItems (max : ℕ) : List NodeDef × List EdgeDef → List Entity → List NodeDef × List EdgeDef
  | graph, [] => graph
  | graph, e :: es => if max ≤ graph.1.length then graph else addItems max (addEntity max graph e) es

def jsonToGraph (printNumber : Number → String) (callId : String) (max : ℕ) (json : Value) :
    List NodeDef × List EdgeDef :=
  if json.asArray.isSome then addItems max ([], []) (entities printNumber callId json)
  else (entities printNumber callId json).foldl (addEntity max) ([], [])

/-- The graph is within the bound, its identifiers are distinct, its edges join its nodes, each child that is kept has one
edge to it, from the object around it, and scalars are kept. -/
structure WellFormed (es : List Entity) (max : ℕ) (graph : List NodeDef × List EdgeDef) : Prop where
  bounded : graph.1.length ≤ max
  distinct : (graph.1.map (·.id)).Nodup
  joined : ∀ edge ∈ graph.2, edge.source ∈ graph.1.map (·.id) ∧ edge.target ∈ graph.1.map (·.id)
  enclosed : ∃ all kept : List Entity, all <+: es ∧
    Forall₂ (fun e e' => e.top = e'.top ∧ e.children <+ e'.children) kept all ∧
    graph.1 ~ kept.flatMap Entity.nodes ∧
    ∀ e ∈ kept, ∀ c ∈ e.children, graph.2.filter (·.target = c.id) = [c.edge e.top.id]
  scalars : ∀ e ∈ es, (∀ obj ∈ e.object, ∀ member ∈ obj, isScalar member.2 = true → member ∈ e.top.properties) ∧
    ∀ c ∈ e.children, ∀ member ∈ c.object, isScalar member.2 = true → member ∈ c.node.properties

/-- The entities before the bound is reached, as far as they are not cut. -/
def reached (max : ℕ) : ℕ → List Entity → List Entity
  | _, [] => []
  | n, e :: es => if max ≤ n then [] else e :: reached max (n + e.nodes.length) es

variable {max : ℕ} {graph : List NodeDef × List EdgeDef} {e : Entity} {es : List Entity}

theorem foldl_pushChild (parent : String) (cs : List Child) : cs.foldl (pushChild max parent) graph =
    (graph.1 ++ (cs.take (max - graph.1.length)).map Child.node,
      graph.2 ++ (cs.take (max - graph.1.length)).map (Child.edge parent)) := by
  induction cs generalizing graph with
  | nil => simp
  | cons c cs ih =>
    rw [foldl_cons, ih]
    unfold pushChild
    split_ifs with hroom
    · have hless : max - graph.1.length = max - (graph.1.length + 1) + 1 := by omega
      simp [hless]
    · simp [Nat.sub_eq_zero_of_le (not_lt.1 hroom)]

theorem length_addEntity :
    (addEntity max graph e).1.length = graph.1.length + min (max - graph.1.length) e.children.length + 1 := by
  unfold addEntity
  rw [foldl_pushChild]
  split_ifs
  · simp
  · simp only [length_append, length_map, length_take, length_singleton]

/-- An entity that fits is added whole. -/
theorem addEntity_fits (hfits : graph.1.length + e.nodes.length ≤ max) :
    (addEntity max graph e).1 ~ graph.1 ++ e.nodes ∧ (addEntity max graph e).2 = graph.2 ++ e.edges := by
  have hall : e.children.take (max - graph.1.length) = e.children := by
    rw [Entity.nodes, length_cons, length_map] at hfits
    exact take_of_length_le (by omega)
  unfold addEntity
  rw [foldl_pushChild, hall]
  refine ⟨?_, rfl⟩
  change (if e.object.isSome then e.top :: (graph.1 ++ _) else (graph.1 ++ _) ++ [e.top]) ~ graph.1 ++ e.top :: _
  split_ifs
  · exact perm_middle.symm
  · exact (perm_append_singleton _ _).trans perm_middle.symm

theorem addItems_of_full (hfull : max ≤ graph.1.length) : addItems max graph es = graph := by
  cases es with
  | nil => rfl
  | cons e es => exact if_pos hfull

/-- **Where all that is reached fits, it is what is returned.** -/
theorem addItems_fits (hfits : graph.1.length + ((reached max graph.1.length es).flatMap Entity.nodes).length ≤ max) :
    (addItems max graph es).1 ~ graph.1 ++ (reached max graph.1.length es).flatMap Entity.nodes ∧
      (addItems max graph es).2 = graph.2 ++ (reached max graph.1.length es).flatMap Entity.edges := by
  induction es generalizing graph with
  | nil => simp [addItems, reached]
  | cons e es ih =>
    unfold reached at hfits ⊢
    split_ifs at hfits ⊢ with hfull
    · simp [addItems_of_full hfull]
    · rw [flatMap_cons, length_append] at hfits
      obtain ⟨hnodes, hedges⟩ := @addEntity_fits max graph e (by omega)
      have hlength := hnodes.length_eq
      rw [length_append] at hlength
      obtain ⟨hnodes', hedges'⟩ := @ih (addEntity max graph e) (by rw [hlength]; omega)
      rw [hlength] at hnodes' hedges'
      rw [addItems, if_neg hfull, flatMap_cons, flatMap_cons, ← append_assoc, ← append_assoc, ← hedges]
      exact ⟨hnodes'.trans (hnodes.append_right _), hedges'⟩

/-- **Where it does not fit, there are too many nodes.** -/
theorem addItems_overflows (hroom : graph.1.length ≤ max)
    (hmore : max < graph.1.length + ((reached max graph.1.length es).flatMap Entity.nodes).length) :
    max < (addItems max graph es).1.length := by
  induction es generalizing graph with
  | nil => exact absurd hmore (by simpa [reached] using hroom)
  | cons e es ih =>
    unfold reached at hmore
    split_ifs at hmore with hfull
    · exact absurd hmore (by simpa using hroom)
    · rw [flatMap_cons, length_append] at hmore
      rw [addItems, if_neg hfull]
      have hlength := @length_addEntity max graph e
      have hnodes : e.nodes.length = e.children.length + 1 := by simp [Entity.nodes]
      by_cases hfits : graph.1.length + e.nodes.length ≤ max
      · have hsame : (addEntity max graph e).1.length = graph.1.length + e.nodes.length := by omega
        exact ih (by omega) (by rw [hsame]; omega)
      · rw [addItems_of_full (by omega)]
        omega

theorem jsonToGraph_eq (printNumber : Number → String) (callId : String) (json : Value) :
    jsonToGraph printNumber callId (max + 1) json = addItems (max + 1) ([], []) (entities printNumber callId json) := by
  cases json <;> rfl

/-- **At most one node too many** is returned. -/
theorem length_jsonToGraph_le (printNumber : Number → String) (callId : String) (max : ℕ) (json : Value) :
    (jsonToGraph printNumber callId (max + 1) json).1.length ≤ max + 2 := by
  have hitems : ∀ es graph, graph.1.length ≤ max + 2 → (addItems (max + 1) graph es).1.length ≤ max + 2 := by
    intro es
    induction es with
    | nil => exact fun _ h => h
    | cons e es ih =>
      intro graph h
      rw [addItems]
      split_ifs with hfull
      · exact h
      · exact ih _ (by rw [length_addEntity]; omega)
  rw [jsonToGraph_eq]
  exact hitems _ _ (Nat.zero_le _)

theorem properties_of_mem {printNumber : Number → String} {callId : String} {json : Value}
    (he : e ∈ entities printNumber callId json) {obj : List (String × Value)} (hobj : obj ∈ e.object) :
    e.top.properties = scalars obj := by
  cases json with
  | array items =>
    obtain ⟨⟨item, idx⟩, -, rfl⟩ := mem_map.1 he
    cases item with
    | object obj =>
      cases hobj
      rfl
    | _ => cases hobj
  | object obj =>
    cases mem_singleton.1 he
    cases hobj
    rfl
  | _ =>
    cases mem_singleton.1 he
    cases hobj

theorem reached_isPrefix (n : ℕ) : reached max n es <+: es := by
  induction es generalizing n with
  | nil => exact prefix_rfl
  | cons e es ih =>
    unfold reached
    split_ifs
    · exact nil_prefix
    · exact (prefix_cons_inj e).2 (ih _)

theorem targets_sublist : (es.flatMap Entity.edges).map (·.target) <+ (es.flatMap Entity.nodes).map (·.id) := by
  induction es with
  | nil => exact Sublist.refl _
  | cons e es ih =>
    have hedges : e.edges.map (·.target) = e.children.map (·.id) := map_map
    have hnodes : e.nodes.map (·.id) = e.top.id :: e.children.map (·.id) := congrArg (e.top.id :: ·) map_map
    simp only [flatMap_cons, map_append, hedges, hnodes]
    exact (sublist_cons_self _ _).append ih

theorem filter_eq_singleton {edges : List EdgeDef} {edge : EdgeDef} (hnodup : (edges.map (·.target)).Nodup)
    (hin : edge ∈ edges) : edges.filter (·.target = edge.target) = [edge] := by
  induction edges with
  | nil => cases hin
  | cons other edges ih =>
    rw [map_cons, nodup_cons] at hnodup
    obtain rfl | hin := mem_cons.1 hin
    · rw [filter_cons_of_pos (by simp), filter_eq_nil_iff.2 fun e he hsame => ?_]
      exact hnodup.1 (of_decide_eq_true hsame ▸ mem_map_of_mem he)
    · have hne : other.target ≠ edge.target := fun hsame => hnodup.1 (hsame ▸ mem_map_of_mem hin)
      rw [filter_cons_of_neg (by simpa using hne), ih hnodup.2 hin]

/-- **The graph is well formed exactly if the entities that are reached fit under the bound, under distinct
identifiers.** -/
theorem wellFormed_iff (printNumber : Number → String) (callId : String) (max : ℕ) (json : Value) :
    WellFormed (entities printNumber callId json) (max + 1) (jsonToGraph printNumber callId (max + 1) json) ↔
      ((reached (max + 1) 0 (entities printNumber callId json)).flatMap Entity.nodes).length ≤ max + 1 ∧
        (((reached (max + 1) 0 (entities printNumber callId json)).flatMap Entity.nodes).map (·.id)).Nodup := by
  rw [jsonToGraph_eq]
  by_cases hfits : ((reached (max + 1) 0 (entities printNumber callId json)).flatMap Entity.nodes).length ≤ max + 1
  · obtain ⟨hnodes, hedges⟩ := @addItems_fits _ ([], []) (entities printNumber callId json)
      (by simpa using hfits)
    rw [nil_append] at hnodes hedges
    have hids := hnodes.map (·.id)
    refine ⟨fun h => ⟨hfits, hids.nodup_iff.1 h.distinct⟩, fun ⟨_, hnodup⟩ => ?_⟩
    refine ⟨hnodes.length_eq.trans_le hfits, hids.nodup_iff.2 hnodup, fun edge hedge => ?_,
      ⟨_, _, reached_isPrefix 0, forall₂_same.2 fun e _ => ⟨rfl, Sublist.refl _⟩, hnodes, fun e he c hc => ?_⟩,
      fun e he => ⟨fun obj hobj member hmember hscalar => ?_, fun c _ member hmember hscalar => ?_⟩⟩
    · rw [hedges] at hedge
      obtain ⟨e, he, hedge⟩ := mem_flatMap.1 hedge
      obtain ⟨c, hc, rfl⟩ := mem_map.1 hedge
      rw [hids.mem_iff, hids.mem_iff]
      exact ⟨mem_map_of_mem (mem_flatMap.2 ⟨e, he, mem_cons_self⟩),
        mem_map.2 ⟨c.node, mem_flatMap.2 ⟨e, he, mem_cons_of_mem _ (mem_map_of_mem hc)⟩, rfl⟩⟩
    · rw [hedges]
      exact @filter_eq_singleton _ (c.edge e.top.id) (hnodup.sublist targets_sublist)
        (mem_flatMap.2 ⟨e, he, mem_map_of_mem hc⟩)
    · rw [properties_of_mem he hobj]
      exact mem_filter.2 ⟨hmember, hscalar⟩
    · exact mem_filter.2 ⟨hmember, hscalar⟩
  · refine iff_of_false (fun h => ?_) fun h => hfits h.1
    exact absurd h.bounded (not_le.2 (addItems_overflows (Nat.zero_le _) (by simpa using not_le.1 hfits)))

/-- One object with another in it, where there may be one node. -/
theorem not_wellFormed_nested : ¬∀ printNumber callId max json,
    WellFormed (entities printNumber callId json) (max + 1) (jsonToGraph printNumber callId (max + 1) json) :=
  fun h => absurd (h (fun _ => "") "call" 0 (.array [.object [("a", .object [])]])).bounded (by decide)

end WildAgentOs.Tools.Graphify
