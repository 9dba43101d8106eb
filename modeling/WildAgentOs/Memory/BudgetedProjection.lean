import WildAgentOs.Jsonld.Budget
import WildAgentOs.Memory.NodeQueries

/-!
# Projections within a budget

`memory/l3_projection.rs`: `project_with_budget` puts the framed nodes of a task into a projection until the next
one does not fit, which is cut down to what is left of the budget.

* `projectWithBudget`, `documents`;
* `FramesFit`: whether the frames keep to the budget;
* `staysInBudget_iff`, `not_staysInBudget`.
-/

namespace WildAgentOs.Memory

open Json Jsonld List

/-- The context of the frame, and of the projection. -/
def agentContext : Value := .object [("agent", .string "https://wildagentos.org/ontology/agent#")]

def defaultFrame : FrameTemplate where
  context := agentContext
  embedRules _ := none
  includeProperties := []
  maxDepth := some 3

namespace Blackboard

section

variable (print : Number → String) (env : BlackboardEnv) (now : ℤ) (budget : ℕ)

/-- The loop over the nodes of a task. -/
def budgetLoop : Blackboard → ℕ → List Value → List String → Blackboard × List Value × ℕ
  | s, currentTokens, artifacts, [] => (s, artifacts, currentTokens)
  | s, currentTokens, artifacts, nodeIri :: nodeIris =>
    let (s, node) := s.readNode env now nodeIri
    match node.bind fun node => (env.fromStr node.jsonLd).toOption with
    | none => budgetLoop s currentTokens artifacts nodeIris
    | some parsed =>
      if budget < currentTokens + estimateTokens print parsed then
        let remaining := budget - currentTokens
        (s, if 10 < remaining then artifacts ++ [fitToBudget print parsed remaining defaultFrame] else artifacts,
          currentTokens)
      else
        let framed := applyFrame parsed defaultFrame
        budgetLoop s (currentTokens + estimateTokens print framed) (artifacts ++ [framed]) nodeIris

def projectWithBudget (s : Blackboard) (taskIri : String) : Blackboard × Value :=
  let (s, artifacts, currentTokens) := s.budgetLoop print env now budget 0 [] (s.taskList taskIri)
  (s, .object [("@context", agentContext), ("task_iri", .string taskIri), ("artifacts", .array artifacts),
    ("token_budget", .number (.posInt (UInt64.ofNat budget))),
    ("estimated_tokens", .number (.posInt (UInt64.ofNat currentTokens)))])

/-- The documents of nodes, as far as they are read and parsed. -/
def documents (s : Blackboard) : List String → List Value
  | [] => []
  | nodeIri :: nodeIris =>
    ((s.readNode env now nodeIri).2.bind fun node => (env.fromStr node.jsonLd).toOption).toList ++
      documents (s.readNode env now nodeIri).1 nodeIris

/-- The artifacts for documents. -/
def artifactsOf : ℕ → List Value → List Value
  | _, [] => []
  | currentTokens, parsed :: rest =>
    if budget < currentTokens + estimateTokens print parsed then
      if 10 < budget - currentTokens then [fitToBudget print parsed (budget - currentTokens) defaultFrame] else []
    else applyFrame parsed defaultFrame ::
      artifactsOf (currentTokens + estimateTokens print (applyFrame parsed defaultFrame)) rest

/-- A document that fits still fits when it is framed; and of the first that does not, a variant or the summary fits
into what is left, if that is more than 10. -/
def FramesFit : ℕ → List Value → Prop
  | _, [] => True
  | currentTokens, parsed :: rest =>
    if budget < currentTokens + estimateTokens print parsed then
      10 < budget - currentTokens →
        (∃ variant ∈ defaultFrame.variants, estimateTokens print (applyFrame parsed variant) ≤ budget - currentTokens) ∨
        estimateTokens print (filterToSummary parsed) ≤ budget - currentTokens
    else currentTokens + estimateTokens print (applyFrame parsed defaultFrame) ≤ budget ∧
      FramesFit (currentTokens + estimateTokens print (applyFrame parsed defaultFrame)) rest

end

variable {print : Number → String} {env : BlackboardEnv} {now : ℤ} {budget : ℕ}

theorem budgetLoop_artifacts (s : Blackboard) (currentTokens : ℕ) (artifacts : List Value) (nodeIris : List String) :
    (s.budgetLoop print env now budget currentTokens artifacts nodeIris).2.1 =
      artifacts ++ artifactsOf print budget currentTokens (s.documents env now nodeIris) := by
  induction nodeIris generalizing s currentTokens artifacts with
  | nil => simp [budgetLoop, documents, artifactsOf]
  | cons nodeIri nodeIris ih =>
    unfold budgetLoop documents
    simp only
    cases hparsed : (s.readNode env now nodeIri).2.bind fun node => (env.fromStr node.jsonLd).toOption with
    | none => simpa using ih _ _ _
    | some parsed =>
      simp only [Option.toList_some, singleton_append, artifactsOf]
      split_ifs with hover hleft
      · rfl
      · simp
      · rw [ih, append_assoc, singleton_append]

/-- **The artifacts keep to the budget** exactly if the frames do. -/
theorem sum_artifactsOf_le_iff {currentTokens : ℕ} (h : currentTokens ≤ budget) (docs : List Value) :
    currentTokens + ((artifactsOf print budget currentTokens docs).map (estimateTokens print)).sum ≤ budget ↔
      FramesFit print budget currentTokens docs := by
  induction docs generalizing currentTokens with
  | nil => exact iff_of_true h trivial
  | cons parsed rest ih =>
    unfold artifactsOf FramesFit
    split_ifs with hover hleft
    · rw [← fitToBudget_le_iff_of_lt (by omega)]
      simp only [hleft, forall_const, map_cons, map_nil, sum_cons, sum_nil]
      omega
    · exact iff_of_true h fun hin => absurd hin hleft
    · rw [map_cons, sum_cons, ← Nat.add_assoc]
      by_cases hframed : currentTokens + estimateTokens print (applyFrame parsed defaultFrame) ≤ budget
      · rw [ih hframed]
        exact (and_iff_right hframed).symm
      · refine iff_of_false (fun hsum => hframed ?_) fun hfit => hframed hfit.1
        exact (Nat.le_add_right _ _).trans hsum

/-- The artifacts of a projection cost no more than its budget; and what a node is cut down to costs no more than the
budget, if its summary does. -/
def StaysInBudget (print : Number → String) (env : BlackboardEnv) (now : ℤ) (s : Blackboard) (taskIri : String)
    (budget : ℕ) (node : Value) (b : ℕ) (frame : FrameTemplate) : Prop :=
  (∃ artifacts, (s.projectWithBudget print env now budget taskIri).2.get "artifacts" = some (.array artifacts) ∧
    (artifacts.map (estimateTokens print)).sum ≤ budget) ∧
  (estimateTokens print (filterToSummary node) ≤ b → estimateTokens print (fitToBudget print node b frame) ≤ b)

/-- **When a budget is kept.** -/
theorem staysInBudget_iff (print : Number → String) (env : BlackboardEnv) (now : ℤ) (s : Blackboard)
    (taskIri : String) (budget : ℕ) (node : Value) (b : ℕ) (frame : FrameTemplate) :
    StaysInBudget print env now s taskIri budget node b frame ↔
      FramesFit print budget 0 (s.documents env now (s.taskList taskIri)) ∧
        (estimateTokens print (filterToSummary node) ≤ b → estimateTokens print node ≤ b →
          estimateTokens print (applyFrame node frame) ≤ b) := by
  have hartifacts : (∃ artifacts,
      (s.projectWithBudget print env now budget taskIri).2.get "artifacts" = some (.array artifacts) ∧
        (artifacts.map (estimateTokens print)).sum ≤ budget) ↔
      FramesFit print budget 0 (s.documents env now (s.taskList taskIri)) := by
    have hget : (s.projectWithBudget print env now budget taskIri).2.get "artifacts" =
        some (.array (artifactsOf print budget 0 (s.documents env now (s.taskList taskIri)))) := by
      have hloop := @budgetLoop_artifacts print env now budget s 0 [] (s.taskList taskIri)
      rw [nil_append] at hloop
      rw [← hloop]
      rfl
    rw [← sum_artifactsOf_le_iff (Nat.zero_le budget), Nat.zero_add, hget]
    constructor
    · rintro ⟨artifacts, heq, hsum⟩
      obtain rfl := Value.array.inj (Option.some.inj heq)
      exact hsum
    · exact fun hsum => ⟨_, rfl, hsum⟩
  unfold StaysInBudget
  rw [hartifacts]
  refine and_congr_right fun _ => imp_congr_right fun hsummary => ?_
  by_cases hfits : estimateTokens print node ≤ b
  · rw [fitToBudget_of_le hfits]
    exact ⟨fun h _ => h, fun h => h hfits⟩
  · exact iff_of_true ((fitToBudget_le_iff_of_lt (Nat.not_le.1 hfits)).2 (.inr hsummary)) fun h => absurd h hfits

def samplePrint : Number → String
  | .posInt n => toString n.toNat
  | .negInt n => toString n.toInt
  | .float _ => "0.5"

/-- A node with an identifier only, of 9 tokens. -/
def bareNode : Value := linkTo (.string "iri://task_1/node_1")

def bareEnv : BlackboardEnv :=
  { sampleBoard with fromStr := fun text => if text = "bare" then .ok bareNode else .error "expected value" }

def bareBoard : Blackboard :=
  { Blackboard.new with
    nodeCache := (∅ : AList fun _ : String => Node).insert "iri://task_1/node_1"
      ⟨"iri://task_1/node_1", "bare", 4, 0, none, [], none, false, .exclusive, none, none, []⟩
    taskNodes := (∅ : AList fun _ : String => List String).insert "iri://task_1" ["iri://task_1/node_1"] }

/-- The context makes 28 tokens of 9. -/
theorem not_staysInBudget :
    ¬StaysInBudget samplePrint bareEnv 0 bareBoard "iri://task_1" 10 bareNode 10 defaultFrame := by
  rintro ⟨⟨artifacts, heq, hsum⟩, -⟩
  have hartifacts : (bareBoard.projectWithBudget samplePrint bareEnv 0 10 "iri://task_1").2.get "artifacts" =
      some (.array [applyFrame bareNode defaultFrame]) := rfl
  obtain rfl := Value.array.inj (Option.some.inj (hartifacts.symm.trans heq))
  have hcost : estimateTokens samplePrint (applyFrame bareNode defaultFrame) = 28 := by decide +kernel
  rw [map_singleton, hcost] at hsum
  exact absurd hsum (by decide)

end Blackboard

end WildAgentOs.Memory
