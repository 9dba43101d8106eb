import WildAgentOs.Invocations.Pagination
import WildAgentOs.KnowledgeGraph.Store
import WildAgentOs.Lib.Result

/-!
# Materialization and its anchor

`materialize_staging_with_anchor_for_claims`: the staging graph is added to the production graph without a word of what
was added, and both are counted.  The storage may refuse a query, and the inferences of a query are a parameter.

* `countRows`, `parseCountResult`: how a count is read;
* `commitStagingForClaims`, `materializeStagingWithAnchorForClaims`, `AnchorTells`, `anchorTells`.
-/

namespace WildAgentOs.KnowledgeGraph

open Text Json List Invocations

inductive LimitedRdfsInference
  | disabled
  | queryTime
  deriving DecidableEq

/-- The mode of the scoped reads, the graph that a query sees under inference, and the messages of the storage. -/
structure AnchorEnv (T : Type) where
  inference : LimitedRdfsInference
  closure : Finset T → Finset T
  subset_closure : ∀ graph, graph ⊆ closure graph
  stagingFault : Option String
  beforeFault : Option String
  mergeFault : Option String
  afterFault : Option String

structure MaterializationAnchor where
  stagingTripleCount : ℕ
  productionTripleCountBefore : ℕ
  productionTripleCountAfter : ℕ
  passed : Bool
  deriving DecidableEq

/-! ### Counts -/

/-- The rows of `SELECT (COUNT(*) AS ?count)`. -/
def countRows (n : ℕ) : List Value := [.object [("?count", .string (toString n))]]

def parseCountResult (rows : List Value) (scope : String) : Except String ℕ :=
  match ((rows.head?.bind (·.get "?count")).bind Value.asStr).bind parseUsize with
  | some count => .ok count
  | none => .error ("SPARQL " ++ scope ++ " anchor did not return a count")

variable {T : Type} (env : AnchorEnv T)

/-- The graph that a scoped query sees. -/
def AnchorEnv.seen (graph : Finset T) : Finset T :=
  match env.inference with
  | .disabled => graph
  | .queryTime => env.closure graph

/-- `graph_triple_count_for_staging`, where inference is off. -/
def graphTripleCountForStaging (graphs : String → Finset T) (claims : IsolationClaims) (stagingId : String) :
    Except String ℕ :=
  match stagingGraphIriForClaims claims stagingId with
  | .error e => .error e
  | .ok graph =>
    match env.stagingFault with
    | some e => .error ("SPARQL query failed: " ++ e)
    | none => parseCountResult (countRows (graphs graph).card) "staging"

def graphTripleCountForClaims (fault : Option String) (graphs : String → Finset T) (claims : IsolationClaims) :
    Except String ℕ :=
  match fault with
  | some e => .error ("knowledge graph query failed: " ++ e)
  | none => parseCountResult (countRows (env.seen (graphs claims.graphIri)).card) "production"

variable [DecidableEq T]

/-- `commit_staging_for_claims`, where `ADD SILENT` adds some triples. -/
def commitStagingForClaims (added : Finset T) (graphs : String → Finset T) (claims : IsolationClaims)
    (stagingId : String) : Except String (String → Finset T) :=
  match stagingGraphIriForClaims claims stagingId with
  | .error e => .error e
  | .ok _ =>
    match env.mergeFault with
    | some e => .error ("claims-scoped staging merge failed: " ++ e)
    | none => .ok (Function.update graphs claims.graphIri (graphs claims.graphIri ∪ added))

/-- `materialize_staging_with_anchor_for_claims`, with the graphs that it leaves. -/
def materializeStagingWithAnchorForClaims (added : Finset T) (graphs : String → Finset T) (claims : IsolationClaims)
    (stagingId : String) : Except String (MaterializationAnchor × (String → Finset T)) := do
  let stagingTripleCount ← graphTripleCountForStaging env graphs claims stagingId
  if stagingTripleCount = 0 then throw "staging graph has no triples to materialize"
  let productionTripleCountBefore ← graphTripleCountForClaims env env.beforeFault graphs claims
  let graphs' ← commitStagingForClaims env added graphs claims stagingId
  let productionTripleCountAfter ← graphTripleCountForClaims env env.afterFault graphs' claims
  return ({ stagingTripleCount, productionTripleCountBefore, productionTripleCountAfter
            passed := stagingTripleCount ≤ productionTripleCountAfter }, graphs')

/-- The anchor compares what the two graphs count: the staged triples and the triples that a scoped read sees. -/
structure AnchorTells (staged before after : Finset T) (anchor : MaterializationAnchor) : Prop where
  staging : anchor.stagingTripleCount = staged.card
  nonempty : staged.Nonempty
  productionBefore : anchor.productionTripleCountBefore = (env.seen before).card
  productionAfter : anchor.productionTripleCountAfter = (env.seen after).card
  passed_iff : anchor.passed = true ↔ staged.card ≤ (env.seen after).card
  of_complete : staged ⊆ after → anchor.passed = true
  evidence : anchor.passed = true → env.seen after ⊆ staged → env.seen after = staged

/-! ### How a count is read -/

theorem parseUsize_toString (n : ℕ) : parseUsize (toString n) = (some n).filter (· < 2 ^ 64) := by
  have hlist : (toString n).toList = Nat.toDigits 10 n := Nat.toList_repr
  have hdigit : ∀ c ∈ Nat.toDigits 10 n, c.isDigit = true := fun c hc =>
    Nat.isDigit_of_mem_toDigits (by decide) (by decide) hc
  have hhead : (Nat.toDigits 10 n).head? ≠ some '+' := fun h =>
    absurd (hdigit '+' (mem_of_head? h)) (by decide)
  unfold parseUsize
  simp only [hlist, if_neg hhead]
  rw [if_pos ⟨Nat.toDigits_ne_nil, all_eq_true.2 hdigit⟩]
  change (some (Nat.ofDigitChars 10 (Nat.toDigits 10 n) 0)).filter _ = _
  rw [Nat.ofDigitChars_toDigits (by decide) (by decide)]

/-- A count is the number of the triples, if it fits. -/
theorem parseCountResult_countRows (n : ℕ) (scope : String) : parseCountResult (countRows n) scope =
      if n < 2 ^ 64 then .ok n else .error ("SPARQL " ++ scope ++ " anchor did not return a count") := by
  have hcount : ((countRows n).head?.bind (·.get "?count")).bind Value.asStr = some (toString n) := rfl
  unfold parseCountResult
  rw [hcount, Option.bind_some, parseUsize_toString, Option.filter_some]
  by_cases hn : n < 2 ^ 64
  · rw [if_pos hn, if_pos (decide_eq_true hn)]
  · rw [if_neg hn, if_neg (mt of_decide_eq_true hn)]

theorem eq_of_parseCountResult {n k : ℕ} {scope : String} (h : parseCountResult (countRows n) scope = .ok k) :
    k = n := by
  rw [parseCountResult_countRows] at h
  split_ifs at h
  cases h
  rfl

variable {env} {graphs graphs' : String → Finset T} {claims : IsolationClaims} {stagingId graph : String} {n : ℕ}

omit [DecidableEq T] in
theorem eq_of_graphTripleCountForStaging (hgraph : stagingGraphIriForClaims claims stagingId = .ok graph)
    (h : graphTripleCountForStaging env graphs claims stagingId = .ok n) : n = (graphs graph).card := by
  unfold graphTripleCountForStaging at h
  simp only [hgraph] at h
  split at h
  · cases h
  · exact eq_of_parseCountResult h

omit [DecidableEq T] in
theorem eq_of_graphTripleCountForClaims {fault : Option String}
    (h : graphTripleCountForClaims env fault graphs claims = .ok n) : n = (env.seen (graphs claims.graphIri)).card := by
  unfold graphTripleCountForClaims at h
  split at h
  · cases h
  · exact eq_of_parseCountResult h

theorem eq_of_commitStagingForClaims {added : Finset T}
    (h : commitStagingForClaims env added graphs claims stagingId = .ok graphs') :
    graphs' = Function.update graphs claims.graphIri (graphs claims.graphIri ∪ added) := by
  unfold commitStagingForClaims at h
  split at h
  · cases h
  · split at h
    · cases h
    · cases h
      rfl

omit [DecidableEq T] in
theorem AnchorEnv.subset_seen (graph : Finset T) : graph ⊆ env.seen graph := by
  unfold AnchorEnv.seen
  split
  · exact Finset.Subset.refl graph
  · exact env.subset_closure graph

/-- **An anchor is evidence of a number of triples, whatever was added.** -/
theorem anchorTells {added : Finset T} {anchor : MaterializationAnchor}
    (hgraph : stagingGraphIriForClaims claims stagingId = .ok graph)
    (h : materializeStagingWithAnchorForClaims env added graphs claims stagingId = .ok (anchor, graphs')) :
    graphs' = Function.update graphs claims.graphIri (graphs claims.graphIri ∪ added) ∧
      AnchorTells env (graphs graph) (graphs claims.graphIri) (graphs' claims.graphIri) anchor := by
  obtain ⟨staging, hstaging, h⟩ := Except.bind_eq_ok_iff.1 h
  obtain rfl := eq_of_graphTripleCountForStaging hgraph hstaging
  split_ifs at h with hempty
  · cases h
  · obtain ⟨before, hbefore, h⟩ := Except.bind_eq_ok_iff.1 h
    obtain ⟨merged, hmerged, h⟩ := Except.bind_eq_ok_iff.1 h
    obtain ⟨after, hafter, h⟩ := Except.bind_eq_ok_iff.1 h
    cases h
    obtain rfl := eq_of_graphTripleCountForClaims hafter
    have hpassed : decide ((graphs graph).card ≤ (env.seen (graphs' claims.graphIri)).card) = true ↔
        (graphs graph).card ≤ (env.seen (graphs' claims.graphIri)).card := decide_eq_true_iff
    exact ⟨eq_of_commitStagingForClaims hmerged, {
      staging := rfl
      nonempty := Finset.card_ne_zero.1 hempty
      productionBefore := eq_of_graphTripleCountForClaims hbefore
      productionAfter := rfl
      passed_iff := hpassed
      of_complete := fun hall => hpassed.2 (Finset.card_le_card (hall.trans (env.subset_seen _)))
      evidence := fun hpass hsub => Finset.eq_of_subset_of_card_le hsub (hpassed.1 hpass) }⟩

/-! ### A merge that adds nothing -/

def plainEnv : AnchorEnv ℕ where
  inference := .disabled
  closure := id
  subset_closure := Finset.Subset.refl
  stagingFault := none
  beforeFault := none
  mergeFault := none
  afterFault := none

/-- Two triples in production, and one that is staged. -/
def stagedGraphs : String → Finset ℕ := fun graph =>
  if graph = "graph://acme/p1" then {1, 2} else if graph = "graph://acme/p1/staging/e1" then {3} else ∅

theorem staging_acme : stagingGraphIriForClaims acme "e1" = .ok "graph://acme/p1/staging/e1" := by decide

theorem anchorTells_acme : Function.update stagedGraphs acme.graphIri ({1, 2} ∪ {3}) =
        Function.update stagedGraphs acme.graphIri (stagedGraphs acme.graphIri ∪ {3}) ∧
      AnchorTells plainEnv {3} {1, 2} ({1, 2} ∪ {3}) ⟨1, 2, 3, true⟩ :=
  anchorTells staging_acme (show materializeStagingWithAnchorForClaims plainEnv {3} stagedGraphs acme "e1" =
    .ok (⟨1, 2, 3, true⟩, Function.update stagedGraphs acme.graphIri ({1, 2} ∪ {3})) from rfl)

/-- The anchor passes over what was in production before. -/
theorem passed_of_nothing_added :
    ¬∀ (graphs graphs' : String → Finset ℕ) (added : Finset ℕ) (claims : IsolationClaims) (stagingId graph : String)
      (anchor : MaterializationAnchor), stagingGraphIriForClaims claims stagingId = .ok graph →
      added ⊆ graphs graph →
      materializeStagingWithAnchorForClaims plainEnv added graphs claims stagingId = .ok (anchor, graphs') →
      anchor.passed = true → graphs graph ⊆ graphs' claims.graphIri := by
  intro hall
  have h := hall stagedGraphs (Function.update stagedGraphs acme.graphIri ({1, 2} ∪ ∅)) ∅ acme "e1" _ ⟨1, 2, 2, true⟩
    staging_acme (Finset.empty_subset _) rfl rfl
  exact absurd h (by decide)

end WildAgentOs.KnowledgeGraph
