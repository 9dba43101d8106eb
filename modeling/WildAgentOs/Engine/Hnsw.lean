import WildAgentOs.Engine.HyperVector
import WildAgentOs.Engine.JsonldMeta
import WildAgentOs.Lib.GraphSearch

/-!
# The incremental HNSW index

`hnsw.rs`: nodes by id, each with a list of neighbours for every layer, and the searches that
descend from the entry point.  `none` is a panic (an index out of range, an `unwrap` of
`None`, a distance that panics) or a loop that does not end.

* `searchLayerSingle`, `searchLayer`;
* `insert`, with the level its random draw gives; `remove`; `exportNodes`, `importNodes`;
* `searchWithFilter`, `search`.
-/

namespace WildAgentOs.Engine

structure HnswConfig where
  efSearch : ℕ
  m : ℕ
  m0 : ℕ
  deriving DecidableEq

structure Node where
  vector : EmbeddingVector
  neighbors0 : List UInt32
  neighborsUpper : List (List UInt32)
  level : ℕ
  deriving DecidableEq

/-- The neighbour list of a layer. -/
def Node.neighbors (node : Node) : ℕ → List UInt32
  | 0 => node.neighbors0
  | layer + 1 => node.neighborsUpper.getD layer []

/-- Replace the list of a layer; there is none above the level of the node. -/
def Node.setNeighbors (ids : List UInt32) : ℕ → Node → Node
  | 0, node => { node with neighbors0 := ids }
  | layer + 1, node => { node with neighborsUpper := node.neighborsUpper.set layer ids }

structure SerializableNode where
  coords : List F64
  metricTag : MetricKind
  alpha : F64
  neighbors0 : List UInt32
  neighborsUpper : List (List UInt32)
  level : ℕ
  deriving DecidableEq

/-- `SerializableNode::from`. -/
def SerializableNode.ofNode (n : Node) : SerializableNode where
  coords := n.vector.coords
  metricTag := n.vector.metric
  alpha := n.vector.alpha
  neighbors0 := n.neighbors0
  neighborsUpper := n.neighborsUpper
  level := n.level

def SerializableNode.toEmbedding (sn : SerializableNode) (metricKind : MetricKind) : EmbeddingVector :=
  ⟨sn.coords, metricKind, sn.alpha⟩

/-- A visit counter is a `usize` in the source; it does not come near its bound. -/
structure IncrementalHNSW where
  nodes : List (Option Node)
  entryPoint : UInt32
  maxLayer : ℕ
  config : HnswConfig
  generation : ℕ
  visitedGen : List ℕ
  deriving DecidableEq

/-- What the index calls outside its own code: the metric, and `binary_search_by` on the
distances of the results, which returns some position of the slice or its end. -/
structure HnswEnv where
  metric : Metric
  position : List F64 → F64 → ℕ
  position_le : ∀ l d, position l d ≤ l.length

/-- The place behind the distances that are less is a position. -/
theorem length_filter_not_totalLe_le (l : List F64) (d : F64) :
    (l.filter fun x => !F64.totalLe d x).length ≤ l.length :=
  List.length_filter_le _ _

/-- `u32::MAX`, the entry point of an empty index. -/
def noEntry : UInt32 := 0xFFFFFFFF

/-- The order in which candidates leave the heap: nearest first, then by id. -/
def candidateBefore (c c' : UInt32 × F64) : Bool :=
  if c.2.totalRank = c'.2.totalRank then c.1 ≤ c'.1 else c.2.totalLe c'.2

namespace IncrementalHNSW

def new (config : HnswConfig) : IncrementalHNSW := ⟨[], noEntry, 0, config, 1, []⟩

/-! ### Nodes -/

/-- `nodes.get(id).and_then(|n| n.as_ref())`. -/
def node? (idx : IncrementalHNSW) (id : UInt32) : Option Node := (idx.nodes[id.toNat]?).join

def contains (idx : IncrementalHNSW) (id : UInt32) : Bool := (idx.node? id).isSome

def len (idx : IncrementalHNSW) : ℕ := (idx.nodes.filter Option.isSome).length

def getNeighbors (idx : IncrementalHNSW) (id : UInt32) (layer : ℕ) : List UInt32 :=
  match idx.node? id with
  | some n => (n.neighbors layer).filter idx.contains
  | none => []

def modifyNode (idx : IncrementalHNSW) (id : UInt32) (f : Node → Node) : IncrementalHNSW :=
  { idx with nodes := idx.nodes.modify id.toNat (Option.map f) }

/-- The id and level of the node with the highest level, the last such. -/
def highest (idx : IncrementalHNSW) : Option (UInt32 × ℕ) :=
  (idx.nodes.zipIdx.filterMap fun p => p.1.map fun n => (UInt32.ofNat p.2, n.level)).foldl
    (fun best c =>
      match best with
      | some b => if b.2 ≤ c.2 then some c else some b
      | none => some c)
    none

def fixEntryPoint (idx : IncrementalHNSW) : IncrementalHNSW :=
  let best := idx.highest.getD (noEntry, 0)
  { idx with entryPoint := best.1, maxLayer := best.2 }

def fixMaxLayer (idx : IncrementalHNSW) : IncrementalHNSW :=
  { idx with
    maxLayer := ((idx.nodes.filterMap id).map Node.level).foldr max 0 }

def remove (idx : IncrementalHNSW) (id : UInt32) : IncrementalHNSW :=
  let idx := { idx with nodes := idx.nodes.set id.toNat none }
  if idx.entryPoint = id then idx.fixEntryPoint else idx.fixMaxLayer

/-! ### Searches in one layer -/

section
variable (env : HnswEnv)

/-- One layer as a search from `query` sees it, with the visit tag `gen`. -/
def space (idx : IncrementalHNSW) (layer : ℕ) (query : EmbeddingVector) (gen : ℕ) :
    GraphSearch.Space UInt32 F64 (List ℕ) where
  neighbors i := idx.getNeighbors i layer
  dist i := (idx.node? i).bind fun n => env.metric.distance query n.vector
  lt := F64.lt
  before := candidateBefore
  position := env.position
  seen v i := v[i.toNat]? == some gen
  mark v i := v.set i.toNat gen

def searchLayerSingleExternal (idx : IncrementalHNSW) (layer : ℕ) (entry : UInt32)
    (query : EmbeddingVector) : Option UInt32 :=
  if idx.contains entry then
    (idx.space env layer query 0).greedy (idx.nodes.length + 1) entry
  else some entry

/-- `search_layer_single`: the query is a node of the index. -/
def searchLayerSingle (idx : IncrementalHNSW) (layer : ℕ) (entry queryId : UInt32) : Option UInt32 :=
  match idx.node? queryId with
  | some n => idx.searchLayerSingleExternal env layer entry n.vector
  | none => some entry

/-- The beam search of `search_layer_top_k` and `search_layer0_external`. -/
def searchLayer (idx : IncrementalHNSW) (layer : ℕ) (entry : UInt32) (query : EmbeddingVector)
    (ef : ℕ) : Option (List (UInt32 × F64) × IncrementalHNSW) :=
  let gen := idx.generation
  let idx := { idx with generation := gen + 1 }
  if idx.contains entry then
    if entry.toNat < idx.visitedGen.length then do
      let b ← (idx.space env layer query gen).beam ef (idx.nodes.length + 2) entry idx.visitedGen
      some (b.results, { idx with visitedGen := b.visited })
    else none
  else some ([], idx)

def searchLayerTopK (idx : IncrementalHNSW) (layer : ℕ) (entry queryId : UInt32) (ef : ℕ) :
    Option (List UInt32 × IncrementalHNSW) :=
  match idx.node? queryId with
  | some n => do
    let (results, idx) ← idx.searchLayer env layer entry n.vector ef
    some (results.map Prod.fst, idx)
  | none => some ([], { idx with generation := idx.generation + 1 })

def searchLayer0External (idx : IncrementalHNSW) (query : EmbeddingVector) (ef : ℕ)
    (entry : UInt32) : Option (List (UInt32 × F64) × IncrementalHNSW) :=
  idx.searchLayer env 0 entry query ef

/-! ### Insertion -/

/-- `resize` of a vector to a length that is no smaller. -/
def resize {α : Type} (l : List α) (n : ℕ) (x : α) : List α := l ++ List.replicate (n - l.length) x

/-- The start of `insert`: room for the id, and its new node. -/
def place (idx : IncrementalHNSW) (id : UInt32) (vector : EmbeddingVector) (level : ℕ) : IncrementalHNSW :=
  let nodes := resize idx.nodes (id.toNat + 1) none
  let visitedGen :=
    if idx.visitedGen.length ≤ id.toNat then
      resize idx.visitedGen (max (max idx.visitedGen.length (id.toNat + 1)) 1024) 0
    else idx.visitedGen
  { idx with
    nodes := nodes.set id.toNat (some ⟨vector, [], List.replicate level [], level⟩)
    visitedGen }

/-- Sort the candidates of a backlink by their distance from its source.  All of them are
nodes of the index, so that no `unwrap` fails here. -/
def sortByDistance (idx : IncrementalHNSW) (source : EmbeddingVector) (ids : List UInt32) : Option (List UInt32) := do
  let keyed ← ids.mapM fun i => do
    let n ← idx.node? i
    let d ← env.metric.distance source n.vector
    some (i, d)
  some ((keyed.insertionSort fun c c' => F64.totalLe c.2 c'.2 = true).map Prod.fst)

def addBacklink (idx : IncrementalHNSW) (neighborId id : UInt32) (layer maxNeighbors : ℕ) : Option IncrementalHNSW :=
  match idx.node? neighborId with
  | none => some idx
  | some source => do
    let neighbors := idx.getNeighbors neighborId layer
    let candidates := if id ∈ neighbors then neighbors else neighbors ++ [id]
    let sorted ← idx.sortByDistance env source.vector candidates
    some (idx.modifyNode neighborId (Node.setNeighbors (sorted.take maxNeighbors) layer))

/-- One layer of the second phase: search it, link both ways, and move to the nearest node. -/
def connect (id : UInt32) (s : IncrementalHNSW × UInt32) (layer : ℕ) : Option (IncrementalHNSW × UInt32) := do
  let ef := if layer = 0 then s.1.config.m0 else s.1.config.m
  let (nearest, idx) ← s.1.searchLayerTopK env layer s.2 id ef
  let neighborIds := nearest.take ef
  let idx := idx.modifyNode id (Node.setNeighbors neighborIds layer)
  let idx ← neighborIds.foldlM (fun idx nid => idx.addBacklink env nid id layer ef) idx
  some (idx, nearest.headD s.2)

/-- The layers `hi, …, lo + 1`. -/
def layersDown (lo hi : ℕ) : List ℕ := (List.range' (lo + 1) (hi - lo)).reverse

/-- The layers above the bottom one: descend to the level of the node, then search and connect
down to layer 1.  The second component is where the search of layer 0 starts. -/
def connectUpper (idx : IncrementalHNSW) (id : UInt32) (level epLevel : ℕ) : Option (IncrementalHNSW × UInt32) := do
  let maxLevel := max epLevel level
  let currEp ←
    if level < epLevel then
      (layersDown level maxLevel).foldlM
        (fun currEp layer => idx.searchLayerSingle env layer currEp id) idx.entryPoint
    else some idx.entryPoint
  (layersDown 0 (min level maxLevel)).foldlM (connect env id) (idx, currEp)

/-- `insert`, with the level that was drawn. -/
def insert (idx : IncrementalHNSW) (id : UInt32) (vector : EmbeddingVector) (level : ℕ) : Option IncrementalHNSW :=
  let idx := idx.place id vector level
  if idx.entryPoint = noEntry then some { idx with entryPoint := id, maxLayer := level }
  else do
    let slot ← idx.nodes[idx.entryPoint.toNat]?
    let epLevel := (slot.map Node.level).getD 0
    let upper ← idx.connectUpper env id level epLevel
    let (idx, _) ← connect env id upper 0
    some (if epLevel < level then { idx with entryPoint := id, maxLayer := level } else idx)

/-! ### Search -/

def filterAwareEf (idx : IncrementalHNSW) (topK : ℕ) (allowed : Option Bitmap) : ℕ :=
  let baseEf := max idx.config.efSearch topK
  match allowed with
  | none => baseEf
  | some allowed =>
    let total := idx.len
    if total = 0 ∨ allowed.card = 0 then baseEf
    else
      let saturate (n : ℕ) : ℕ := min n (2 ^ 64 - 1)
      let quotient := (saturate (topK * total) + allowed.card - 1) / allowed.card
      min (max baseEf (saturate (quotient * 2))) total

def exactFilteredSearch (idx : IncrementalHNSW) (query : EmbeddingVector) (topK : ℕ)
    (allowed : Bitmap) : Option (List (UInt32 × F64)) := do
  let live := (allowed.sort (· ≤ ·)).filterMap fun i => (idx.node? i).map (Prod.mk i)
  let results ← live.mapM fun p => do
    let d ← env.metric.distance query p.2.vector
    some (p.1, d)
  some ((results.insertionSort fun c c' => candidateBefore c c' = true).take topK)

def exactFilteredSearchLimit : ℕ := 5000

def searchWithFilter (idx : IncrementalHNSW) (query : EmbeddingVector) (topK : ℕ)
    (allowed : Option Bitmap) : Option (List (UInt32 × F64) × IncrementalHNSW) :=
  match allowed.filter fun allowed => allowed.card ≤ exactFilteredSearchLimit with
  | some allowed => do
    let results ← idx.exactFilteredSearch env query topK allowed
    some (results, idx)
  | none => do
    let idx := if idx.entryPoint ≠ noEntry ∧ ¬ idx.contains idx.entryPoint then idx.fixEntryPoint else idx
    if idx.entryPoint = noEntry then some ([], idx)
    else do
      let ef := idx.filterAwareEf topK allowed
      let currEp ← (layersDown 0 idx.maxLayer).foldlM
        (fun currEp layer => idx.searchLayerSingleExternal env layer currEp query) idx.entryPoint
      let (results, idx) ← idx.searchLayer0External env query ef currEp
      let results :=
        match allowed with
        | some allowed => results.filter fun r : UInt32 × F64 => r.1 ∈ allowed
        | none => results
      some (results.take topK, idx)

/-- `search`: no filter. -/
def search (idx : IncrementalHNSW) (query : EmbeddingVector) (topK : ℕ) :
    Option (List (UInt32 × F64) × IncrementalHNSW) :=
  idx.searchWithFilter env query topK none

/-! ### Snapshot support -/

def exportNodes (idx : IncrementalHNSW) : List (Option SerializableNode) :=
  idx.nodes.map (Option.map SerializableNode.ofNode)

def importNodes (idx : IncrementalHNSW) (nodes : List (Option SerializableNode)) : IncrementalHNSW :=
  let node (s : SerializableNode) : Node := ⟨s.toEmbedding env.metric.kind, s.neighbors0, s.neighborsUpper, s.level⟩
  let idx := { idx with nodes := nodes.map (Option.map node) }
  let idx := idx.fixEntryPoint
  { idx with
    visitedGen := resize idx.visitedGen (max (max idx.visitedGen.length idx.nodes.length) 1024) 0 }

end

end IncrementalHNSW

end WildAgentOs.Engine
