import WildAgentOs.Engine.Retrieval
import WildAgentOs.Isolation
import WildAgentOs.Memory.HybridFilter

/-!
# The vector store

`HyperspaceStore` of `memory/hyperspace_store.rs`, as far as it takes verified claims.  The store is its engine: the
cache of ownership checks is left out, since nothing here reads it.  `none` is a panic of the engine.

* `upsertWithClaimsAndMetadata`, `deleteWithClaims`;
* `searchWithClaims`, `searchWithClaimsAndRequiredTags`, `exactMatchesWithClaimsAndRequiredTags`.
-/

namespace WildAgentOs.Memory

open Json Engine Text

/-- `== 0.0`. -/
def F32.isZero (x : F32) : Bool := x.bits.toNat % 2 ^ 31 == 0

/-- The errors of the vector store. -/
inductive VectorError
  | validationFailed (message : String)
  | storageError (message : String)
  | internal (message : String)
  deriving DecidableEq

/-- `Display` of the engine's errors. -/
def displayError : EngineError → String
  | .storageError message => "Storage error: " ++ message
  | .storageCritical message => "Storage critical (unrecoverable): " ++ message
  | .invalidVector message => "Invalid vector: " ++ message
  | .internal message => "Internal error: " ++ message
  | .notFound message => "Not found: " ++ message
  | .io message => "IO error: " ++ message

/-- What the store uses besides: the engine's environment, `as f64` and `as f32`. -/
structure VectorEnv where
  retrieval : RetrievalEnv F32
  widen : F32 → F64
  narrow : F64 → F32

/-- What happens around one call: the answer of the embedding provider to its text, `Utc::now()` in seconds, and the
engine's own. -/
structure VectorCall where
  embedding : Except String (List F32)
  now : F64
  io : Io

inductive MatchKind
  | vector
  | exact
  deriving DecidableEq

structure ScoredEntry where
  iri : String
  text : String
  score : F32
  matchKind : MatchKind
  tags : List String
  importance : Option F32
  jsonldTypes : List String
  storedAt : Option F64

structure ExactMatchResult where
  entries : List ScoredEntry
  truncated : Bool

def exactScanRecordLimit : ℕ := 20000

namespace HyperspaceStore

/-! ### Names and tags of a scope -/

/-- The engine's IRI of a caller's. -/
def scopedIri (claims : IsolationClaims) (iri : String) : String := claims.vectorNamespace ++ "#" ++ iri

def tenantTag (claims : IsolationClaims) : String := "tenant:" ++ claims.tenantId

/-- The tags of an entry, with that of the tenant. -/
def scopedTags (claims : IsolationClaims) (tags : List String) : List String :=
  if tenantTag claims ∈ tags then tags else tags ++ [tenantTag claims]

/-- `starts_with` of the namespace and the `#`. -/
def inNamespace (claims : IsolationClaims) (iri : String) : Bool :=
  (stripStart (claims.vectorNamespace ++ "#").toList iri.toList).isSome

section
variable (env : VectorEnv)

/-! ### Embeddings -/

def getQueryEmbedding : Except String (List F32) → Except VectorError (List F32)
  | .error _ => .error (.storageError "embedding provider unavailable")
  | .ok embedding =>
    if embedding.length ≠ env.retrieval.engine.dim || embedding.any (!·.isFinite) || embedding.all F32.isZero then
      .error (.storageError "embedding provider returned an invalid vector")
    else .ok embedding

/-- `EmbeddingVector::from_f32_slice` of the cosine metric. -/
def fromF32Slice (coords : List F32) : Except EngineError EmbeddingVector :=
  let coords := coords.map env.widen
  if coords.any (!F64.isFinite ·) then .error (.invalidVector "Coordinates contain NaN or infinity")
  else .ok ⟨coords, .cosine, ⟨0⟩⟩

/-- The vector of a text. -/
def embed (answer : Except String (List F32)) : Except VectorError EmbeddingVector :=
  match getQueryEmbedding env answer with
  | .error error => .error error
  | .ok embedding =>
    (fromF32Slice env embedding).mapError fun e => .internal ("EmbeddingVector: " ++ displayError e)

/-! ### Writes -/

/-- `Number::from_f64` or else `0`. -/
def numberOf (x : F64) : Value := .number (if F64.isFinite x then .float x else .posInt 0)

def stringArray (texts : List String) : Value := .array (texts.map .string)

/-- The payload of a write; its map is ordered by key. -/
def payload (iri text : String) (tags : List String) (importance : Option F32) (jsonldTypes : Option (List String))
    (namedGraph : Option String) (now : F64) : Value :=
  .object <|
    (jsonldTypes.toList.map fun types => ("@type", stringArray types)) ++
    (importance.toList.map fun importance => ("importance", numberOf (env.widen importance))) ++
    [("iri", .string iri)] ++
    (namedGraph.toList.map fun graph => ("named_graph", .string graph)) ++
    [("stored_at", numberOf now), ("tags", stringArray tags), ("text", .string (.ofList (text.toList.take 500)))]

def upsertWithMetadataInner (e : HyperspaceEngine) (iri text : String) (tags : List String) (importance : Option F32)
    (jsonldTypes : Option (List String)) (namedGraph : Option String) (call : VectorCall) :
    Option (HyperspaceEngine × Except VectorError UInt32) :=
  if (trim text.toList).isEmpty then some (e, .error (.validationFailed "vector text must not be empty"))
  else
    match embed env call.embedding with
    | .error error => some (e, .error error)
    | .ok vector =>
      (e.upsert env.retrieval.engine iri vector
        (payload env iri text tags importance jsonldTypes namedGraph call.now) call.io).map
          (.map id (.mapError fun error => .internal ("Hyperspace upsert: " ++ displayError error)))

def upsertWithClaimsAndMetadata (e : HyperspaceEngine) (claims : IsolationClaims) (iri text : String)
    (tags : List String) (importance : Option F32) (jsonldTypes : Option (List String)) (call : VectorCall) :
    Option (HyperspaceEngine × Except VectorError UInt32) :=
  upsertWithMetadataInner env e (scopedIri claims iri) text (scopedTags claims tags) importance jsonldTypes
    (some claims.vectorNamespace) call

def upsertWithClaims (e : HyperspaceEngine) (claims : IsolationClaims) (iri text : String) (tags : List String)
    (call : VectorCall) : Option (HyperspaceEngine × Except VectorError UInt32) :=
  upsertWithClaimsAndMetadata env e claims iri text tags none none call

def deleteInner (e : HyperspaceEngine) (iri : String) (io : Io) : HyperspaceEngine × Except VectorError Unit :=
  (e.delete env.retrieval.engine iri io).map id
    (.mapError fun error => .internal ("Hyperspace delete: " ++ displayError error))

def deleteWithClaims (e : HyperspaceEngine) (claims : IsolationClaims) (iri : String) (io : Io) :
    HyperspaceEngine × Except VectorError Unit :=
  deleteInner env e (scopedIri claims iri) io

/-! ### Searches -/

/-- The strings of an array member. -/
def memberStrings (payload : Value) (key : String) : List String :=
  (((payload.get key).bind Value.asArray).map Value.strings).getD []

/-- `as_f64` of a member. -/
def memberFloat (payload : Value) (key : String) : Option F64 :=
  match payload.get key with
  | some (.number n) => env.retrieval.engine.fa.asF64 n
  | _ => none

/-- The entry of a hit; one without a payload has the defaults. -/
def scoredEntry (hit : SearchHit F32) : ScoredEntry where
  iri := hit.iri
  text := ((hit.payload.bind (Value.get · "text")).bind Value.asStr).getD ""
  score := hit.score
  matchKind := .vector
  tags := (hit.payload.map (memberStrings · "tags")).getD []
  importance := (hit.payload.bind (memberFloat env · "importance")).map env.narrow
  jsonldTypes := (hit.payload.map (memberStrings · "@type")).getD []
  storedAt := hit.payload.bind (memberFloat env · "stored_at")

def searchWithFilterInner (e : HyperspaceEngine) (filter : HybridSearchFilter) (limit : ℕ) (call : VectorCall) :
    Option (HyperspaceEngine × Except VectorError (List ScoredEntry)) :=
  if !e.isRetrievalReady then
    some (e, .error (.storageError "vector store integrity check failed; retrieval unavailable"))
  else
    match embed env call.embedding with
    | .error error => some (e, .error error)
    | .ok vector =>
      (e.search env.retrieval vector limit (filter.toJsonldFilters env.widen)).map
        (.map id fun result =>
          (result.mapError fun error => .internal ("Hyperspace search: " ++ displayError error)).map
            (·.map (scoredEntry env)))

def searchWithClaims (e : HyperspaceEngine) (claims : IsolationClaims) (filter : HybridSearchFilter) (limit : ℕ)
    (call : VectorCall) : Option (HyperspaceEngine × Except VectorError (List ScoredEntry)) :=
  (searchWithFilterInner env e { filter with namedGraph := some claims.vectorNamespace } limit call).map
    (.map id (.map (·.filter fun entry => inNamespace claims entry.iri)))

def entryMatchesClaimsAndTags (entry : ScoredEntry) (claims : IsolationClaims) (requiredTags : List String) : Bool :=
  inNamespace claims entry.iri && requiredTags.all (· ∈ entry.tags)

/-- `HybridSearchFilter::new().with_must_tags`. -/
def mustTagsFilter (tags : List String) : HybridSearchFilter := ⟨tags, [], [], none, [], none, none, none, none⟩

def searchWithClaimsAndRequiredTags (e : HyperspaceEngine) (claims : IsolationClaims) (requiredTags : List String)
    (limit : ℕ) (call : VectorCall) : Option (HyperspaceEngine × Except VectorError (List ScoredEntry)) :=
  (searchWithClaims env e claims (mustTagsFilter requiredTags) e.count call).map
    (.map id (.map fun entries => (entries.filter (entryMatchesClaimsAndTags · claims requiredTags)).take limit))

/-! ### Exact matches -/

/-- What stands before and behind each match of `match_indices`, from left to right; a match begins behind the one
before it. -/
def matchIndices (pat : List Char) (before : Option Char) : ℕ → List Char → List (Option Char × List Char)
  | _, [] => if pat.isEmpty then [(before, [])] else []
  | 0, c :: s =>
    match stripStart pat (c :: s) with
    | some rest => (before, rest) :: matchIndices pat (some c) (pat.length - 1) s
    | none => matchIndices pat (some c) 0 s
  | skip + 1, c :: s => matchIndices pat (some c) skip s

def isWordChar (c : Char) : Bool := c.isAlphanum || c == '_'

def isSeparator (c : Char) : Bool := c == '-' || c == '_' || c == '/'

def normalizeSeparatorToken (value : List Char) : List Char := value.filter (!isSeparator ·)

def containsAsciiToken (text token : String) : Bool :=
  let text := text.toList.map Char.toLower
  let token := token.toList.map Char.toLower
  ((matchIndices token none 0 text).any fun (before, after) =>
    !before.any isWordChar && !after.head?.any isWordChar) ||
  (token.any isSeparator &&
    (text.splitOnP fun c => !c.isAlphanum && !isSeparator c).any fun candidate =>
      normalizeSeparatorToken candidate == normalizeSeparatorToken token)

def eqIgnoreAsciiCase (a b : String) : Bool := a.toList.map Char.toLower == b.toList.map Char.toLower

/-- The tier of an entry: those that are a token as a whole come first. -/
def tier (tokens : List String) (entry : ScoredEntry) : ℕ :=
  if tokens.any (eqIgnoreAsciiCase entry.text ·) then 0 else 1

/-- The entries of the listed hits that match. -/
def exactEntries (claims : IsolationClaims) (requiredTags tokens : List String) (limit scanCap : ℕ)
    (candidates : List (SearchHit F32)) : List ScoredEntry :=
  let entries := (candidates.map (scoredEntry env)).take scanCap
  let found := (entries.filter (entryMatchesClaimsAndTags · claims requiredTags)).filter fun entry =>
    tokens.any (containsAsciiToken entry.text ·)
  (found.mergeSort fun a b => decide (tier tokens a ≤ tier tokens b)).take limit

/-- `exact_matches_with_claims_and_required_tags_capped`. -/
def exactMatchesCapped (e : HyperspaceEngine) (claims : IsolationClaims) (requiredTags tokens : List String)
    (limit scanCap : ℕ) : Option (Except VectorError ExactMatchResult) :=
  if tokens.isEmpty then some (.ok ⟨[], false⟩)
  else
    let filter := { mustTagsFilter requiredTags with namedGraph := some claims.vectorNamespace }
    (e.listFiltered env.retrieval (filter.toJsonldFilters env.widen) (scanCap + 1)).map fun result =>
      (result.mapError fun error => .internal ("Hyperspace filtered list: " ++ displayError error)).map
        fun candidates =>
          ⟨exactEntries env claims requiredTags tokens limit scanCap candidates, decide (scanCap < candidates.length)⟩

def exactMatchesWithClaimsAndRequiredTags (e : HyperspaceEngine) (claims : IsolationClaims)
    (requiredTags tokens : List String) (limit : ℕ) : Option (Except VectorError ExactMatchResult) :=
  exactMatchesCapped env e claims requiredTags tokens limit exactScanRecordLimit

end

end HyperspaceStore

end WildAgentOs.Memory
