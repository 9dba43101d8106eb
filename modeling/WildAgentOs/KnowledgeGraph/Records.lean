import WildAgentOs.KnowledgeGraph.Literals
import WildAgentOs.Lib.TripleStore

/-!
# Approvals, reviews and type drafts

`knowledge_graph/store.rs`: records that are kept as triples in graphs of their claims.  The graphs are those of a
triple store, which reads strings as it says and prints them with their escapes; the order of the solutions is any
one, as ties are, and `none` is a panic.  The bundle of a draft is of any type that is written as JSON.

* `PendingActionApproval`, `PendingExtractionReview`, `PendingTypeDraft`, `Shape`;
* the functions for each kind.
-/

namespace WildAgentOs.KnowledgeGraph

open Json TripleStore

structure PendingActionApproval where
  approvalId : String
  stagingId : String
  stagingGraph : String
  actionId : String
  anchorQuery : Option String
  createdAt : String
  expiresAt : String
  deriving DecidableEq

structure PendingExtractionReview where
  reviewId : String
  extractionId : String
  stagingGraph : String
  gateStatus : String
  reportJson : String
  createdAt : String
  decision : String
  deriving DecidableEq

structure PendingTypeDraft (β : Type) where
  draftId : String
  source : String
  bundle : β
  createdAt : String
  expiresAt : String
  deriving DecidableEq

abbrev Row := List (String × String)

/-- The named graphs, with their string literals. -/
abbrev KgGraphs := String → Graph String String String

/-- The store's own: the order of solutions and the message of its parser; and the JSON of a bundle. -/
structure RecordEnv (β : Type) where
  order : List Row → List Row
  order_perm : ∀ rows, (order rows).Perm rows
  parseError : String
  toJson : β → String
  fromJson : String → Except String β

def approvalBaseIri : String := "https://agentos.ontology/action-approval/"
def approvalVocabIri : String := "https://agentos.ontology/action-approval/"
def extractionReviewBaseIri : String := "https://agentos.ontology/extraction-review/"
def extractionReviewVocabIri : String := "https://agentos.ontology/extraction-review/"
def typeDraftBaseIri : String := "https://agentos.ontology/type-draft/"
def typeDraftVocabIri : String := "https://agentos.ontology/type-draft/"

def approvalsGraphIriForClaims (claims : IsolationClaims) : String := claims.graphIri ++ "/action-approvals"

def extractionReviewsGraphIriForClaims (claims : IsolationClaims) : String := claims.graphIri ++ "/extraction-reviews"

def typeDraftsGraphIriForClaims (claims : IsolationClaims) : String := claims.graphIri ++ "/ontology-type-drafts"

def validateOpaqueId (value kind : String) : Except String Unit :=
  if value = "" ∨ value.toList.all isOpaqueIdByte = false then
    .error (kind ++ " must contain only ASCII letters, digits, '-' or '_'")
  else .ok ()

/-- A member of a row that is a string. -/
def getField (what : String) (row : Value) (name : String) : Except String String :=
  match (row.get name).bind Value.asStr with
  | some text => .ok text
  | none => .error (what ++ " query missing " ++ name)

/-! ### Records of a kind -/

/-- Where records are kept, under which subject and properties, by which pattern they are asked for, and how a row is
read. -/
structure Shape (α : Type) where
  graph : IsolationClaims → String
  base : String
  id : α → String
  fields : α → List (String × String)
  pattern : List (String × String)
  opt : Option (String × String)
  read : Value → Except String α

/-- How a solution is given. -/
def printRow (row : Row) : Row := row.map fun (var, value) => (var, String.ofList (printLiteral value.toList))

/-- `INSERT DATA` of the properties of a subject. -/
def insertData (parseError : String) (s : KgGraphs) (graph subject : String) (fields : List (String × List Char)) :
    Except String KgGraphs :=
  match fields.mapM fun (predicate, token) => (parseString token).map fun value => (predicate, String.ofList value) with
  | none => .error parseError
  | some fields =>
    .ok (Function.update s graph (insert (s graph) (Rec.triples ⟨subject, fields⟩)))

namespace Shape

variable {α β : Type} (shape : Shape α) (env : RecordEnv β) (s : KgGraphs) (claims : IsolationClaims)

def subject (id : String) : String := shape.base ++ id

/-- The record as it is kept. -/
def record (a : α) : Rec String String String := ⟨shape.subject (shape.id a), shape.fields a⟩

def create (a : α) : Except String KgGraphs :=
  insertData env.parseError s (shape.graph claims) (shape.subject (shape.id a))
    ((shape.fields a).map fun (predicate, value) => (predicate, sparqlLiteral value.toList))

/-- `DELETE WHERE` of everything about a subject. -/
def delete (id : String) : KgGraphs :=
  Function.update s (shape.graph claims) (TripleStore.delete (s (shape.graph claims)) (shape.subject id))

def list : Option (Except String (List α)) :=
  (solutionRows ((env.order (select (s (shape.graph claims)) shape.pattern shape.opt)).map (.ok <| printRow ·))).map
    fun rows => rows.bind fun rows => rows.mapM shape.read

end Shape

/-! ### Approvals -/

def approvalShape : Shape PendingActionApproval where
  graph := approvalsGraphIriForClaims
  base := approvalBaseIri
  id := (·.approvalId)
  fields approval :=
    [(approvalVocabIri ++ "approvalId", approval.approvalId),
      (approvalVocabIri ++ "stagingId", approval.stagingId),
      (approvalVocabIri ++ "stagingGraph", approval.stagingGraph),
      (approvalVocabIri ++ "actionId", approval.actionId)] ++
    (approval.anchorQuery.toList.map fun query => (approvalVocabIri ++ "anchorQuery", query)) ++
    [(approvalVocabIri ++ "createdAt", approval.createdAt),
      (approvalVocabIri ++ "expiresAt", approval.expiresAt)]
  pattern :=
    [(approvalVocabIri ++ "approvalId", "id"), (approvalVocabIri ++ "stagingId", "staging_id"),
      (approvalVocabIri ++ "stagingGraph", "staging_graph"), (approvalVocabIri ++ "actionId", "action_id"),
      (approvalVocabIri ++ "createdAt", "created_at"), (approvalVocabIri ++ "expiresAt", "expires_at")]
  opt := some (approvalVocabIri ++ "anchorQuery", "anchor_query")
  read row := do
    return {
      approvalId := ← getField "approval" row "?id"
      stagingId := ← getField "approval" row "?staging_id"
      stagingGraph := ← getField "approval" row "?staging_graph"
      actionId := ← getField "approval" row "?action_id"
      anchorQuery := (row.get "?anchor_query").bind Value.asStr
      createdAt := ← getField "approval" row "?created_at"
      expiresAt := ← getField "approval" row "?expires_at" }

section

variable {β : Type} (env : RecordEnv β) (s : KgGraphs) (claims : IsolationClaims)

def createActionApprovalForClaims (approval : PendingActionApproval) : Except String KgGraphs := do
  validateOpaqueId approval.approvalId "approval identifier"
  validateOpaqueId approval.stagingId "staging identifier"
  let expectedStaging ← stagingGraphIriForClaims claims approval.stagingId
  if approval.stagingGraph ≠ expectedStaging then throw "approval staging graph is not claims-derived"
  (approvalShape.create env s claims approval).mapError ("claims-scoped approval create failed: " ++ ·)

def listActionApprovalsForClaims : Option (Except String (List PendingActionApproval)) :=
  approvalShape.list env s claims

def deleteActionApprovalForClaims (approvalId : String) : Except String KgGraphs := do
  validateOpaqueId approvalId "approval identifier"
  return approvalShape.delete s claims approvalId

end

/-! ### Reviews -/

def reviewShape : Shape PendingExtractionReview where
  graph := extractionReviewsGraphIriForClaims
  base := extractionReviewBaseIri
  id := (·.reviewId)
  fields review :=
    [(extractionReviewVocabIri ++ "reviewId", review.reviewId),
      (extractionReviewVocabIri ++ "extractionId", review.extractionId),
      (extractionReviewVocabIri ++ "stagingGraph", review.stagingGraph),
      (extractionReviewVocabIri ++ "gateStatus", review.gateStatus),
      (extractionReviewVocabIri ++ "reportJson", review.reportJson),
      (extractionReviewVocabIri ++ "createdAt", review.createdAt),
      (extractionReviewVocabIri ++ "decision", review.decision)]
  pattern :=
    [(extractionReviewVocabIri ++ "reviewId", "id"), (extractionReviewVocabIri ++ "extractionId", "extraction_id"),
      (extractionReviewVocabIri ++ "stagingGraph", "staging_graph"),
      (extractionReviewVocabIri ++ "gateStatus", "gate_status"),
      (extractionReviewVocabIri ++ "reportJson", "report_json"),
      (extractionReviewVocabIri ++ "createdAt", "created_at"), (extractionReviewVocabIri ++ "decision", "decision")]
  opt := none
  read row := do
    return {
      reviewId := ← getField "review" row "?id"
      extractionId := ← getField "review" row "?extraction_id"
      stagingGraph := ← getField "review" row "?staging_graph"
      gateStatus := ← getField "review" row "?gate_status"
      reportJson := ← getField "review" row "?report_json"
      createdAt := ← getField "review" row "?created_at"
      decision := ← getField "review" row "?decision" }

section

variable {β : Type} (env : RecordEnv β) (s : KgGraphs) (claims : IsolationClaims)

def createExtractionReviewForClaims (review : PendingExtractionReview) : Except String KgGraphs := do
  validateOpaqueId review.reviewId "review identifier"
  validateOpaqueId review.extractionId "extraction identifier"
  let expected ← stagingGraphIriForClaims claims review.extractionId
  if review.stagingGraph ≠ expected then throw "review staging graph is not claims-derived"
  (reviewShape.create env s claims review).mapError ("claims-scoped extraction review create failed: " ++ ·)

def listExtractionReviewsForClaims : Option (Except String (List PendingExtractionReview)) :=
  reviewShape.list env s claims

/-- The update of `resolve_extraction_review_for_claims`. -/
def setDecision (reviewId decision : String) : KgGraphs :=
  let graph := extractionReviewsGraphIriForClaims claims
  Function.update s graph
    (replaceValue (s graph) (reviewShape.subject reviewId) (extractionReviewVocabIri ++ "decision") decision)

def resolveExtractionReviewForClaims (reviewId decision : String) : Option (Except String KgGraphs) :=
  match validateOpaqueId reviewId "review identifier" with
  | .error e => some (.error e)
  | .ok () =>
    if decision ≠ "approved" ∧ decision ≠ "rejected" then
      some (.error "review decision must be approved or rejected")
    else
      (listExtractionReviewsForClaims env s claims).map fun reviews => do
        let reviews ← reviews
        if reviews.any (fun review => review.reviewId = reviewId) = false then
          throw "extraction review not found in claims scope"
        return setDecision s claims reviewId decision

end

/-! ### Type drafts -/

def draftShape {β : Type} (env : RecordEnv β) : Shape (PendingTypeDraft β) where
  graph := typeDraftsGraphIriForClaims
  base := typeDraftBaseIri
  id := (·.draftId)
  fields draft :=
    [(typeDraftVocabIri ++ "draftId", draft.draftId), (typeDraftVocabIri ++ "source", draft.source),
      (typeDraftVocabIri ++ "bundleJson", env.toJson draft.bundle),
      (typeDraftVocabIri ++ "createdAt", draft.createdAt), (typeDraftVocabIri ++ "expiresAt", draft.expiresAt)]
  pattern :=
    [(typeDraftVocabIri ++ "draftId", "id"), (typeDraftVocabIri ++ "source", "source"),
      (typeDraftVocabIri ++ "bundleJson", "bundle"), (typeDraftVocabIri ++ "createdAt", "created_at"),
      (typeDraftVocabIri ++ "expiresAt", "expires_at")]
  opt := none
  read row := do
    let storedBundle ← getField "type draft" row "?bundle"
    -- The escapes of the literal are decoded as those of a JSON string.
    let bundleJson := ((jsonString storedBundle.toList).map String.ofList).getD storedBundle
    let bundle ← (env.fromJson bundleJson).mapError ("stored type draft is invalid: " ++ ·)
    return {
      draftId := ← getField "type draft" row "?id"
      source := ← getField "type draft" row "?source"
      bundle
      createdAt := ← getField "type draft" row "?created_at"
      expiresAt := ← getField "type draft" row "?expires_at" }

section

variable {β : Type} (env : RecordEnv β) (s : KgGraphs) (claims : IsolationClaims)

def createTypeDraftForClaims (draft : PendingTypeDraft β) : Except String KgGraphs := do
  validateOpaqueId draft.draftId "type draft identifier"
  ((draftShape env).create env s claims draft).mapError ("claims-scoped type draft create failed: " ++ ·)

def listTypeDraftsForClaims : Option (Except String (List (PendingTypeDraft β))) := (draftShape env).list env s claims

def deleteTypeDraftForClaims (draftId : String) : Except String KgGraphs := do
  validateOpaqueId draftId "type draft identifier"
  return (draftShape env).delete s claims draftId

end

end WildAgentOs.KnowledgeGraph
