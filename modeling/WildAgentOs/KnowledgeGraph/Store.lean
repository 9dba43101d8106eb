import WildAgentOs.Isolation
import WildAgentOs.Json.Value

/-!
# The knowledge graph

`knowledge_graph/store.rs`: the graphs that are minted from claims, and the queries that are bound to one of
them.  What the store answers is a parameter, as is `to_uppercase`; `none` is a panic.

* `stagingGraphIriForClaims`, `wrapInNamedGraph`, `stagingQuery`: what is asked;
* `normalizeTerm`, `QueryResults.rows`: what is read of the answer;
* `queryStagingForClaims`, `stagingNtriplesForClaims`.
-/

namespace WildAgentOs.KnowledgeGraph

open Text Json Option

/-- What a query is answered with: terms are given as they are printed. -/
inductive QueryResults
  | solutions (rows : List (Except String (List (String × String))))
  | graph (triples : List (Except String (String × String × String)))
  | boolean (b : Bool)

/-- A quad as it is printed, with the name of its graph. -/
structure PrintedQuad where
  subject : String
  predicate : String
  object : String
  graphName : Option String
  deriving DecidableEq

/-- The store, as far as it is read. -/
structure KnowledgeGraphStore where
  query : String → Except String QueryResults
  quads : List (Except String PrintedQuad)

/-! ### The graph that is asked -/

def isOpaqueIdByte (c : Char) : Bool := c.isAlphanum || c = '-' || c = '_'

/-- `staging_graph_iri_for_claims`; the claims' own graph is minted without an error. -/
def stagingGraphIriForClaims (claims : IsolationClaims) (stagingId : String) : Except String String :=
  if stagingId = "" ∨ stagingId.toList.all isOpaqueIdByte = false then
    .error "staging identifier must contain only ASCII letters, digits, '-' or '_'"
  else .ok (claims.graphIri ++ "/staging/" ++ stagingId)

/-- `find`: how many bytes stand before the first occurrence. -/
def findByte (pat : List Char) : List Char → Option ℕ
  | [] => if pat = [] then some 0 else none
  | c :: s => if pat <+: c :: s then some 0 else (findByte pat s).map (c.utf8Size + ·)

/-- `s[..n]` and `s[n..]`; a slice that does not start at a character panics. -/
def splitAtByte : ℕ → List Char → Option (List Char × List Char)
  | 0, s => some ([], s)
  | _ + 1, [] => none
  | n + 1, c :: s =>
    if c.utf8Size ≤ n + 1 then
      (splitAtByte (n + 1 - c.utf8Size) s).map fun (before, behind) => (c :: before, behind)
    else none

/-- What stands before the first opening brace, with it, and behind it. -/
def splitAtOpen : List Char → Option (List Char × List Char)
  | [] => none
  | c :: s =>
    if c = '\x7b' then some ([c], s)
    else (splitAtOpen s).map fun (before, behind) => (c :: before, behind)

/-- What stands before the brace that closes `depth` open ones, and behind it. -/
def splitAtClose : ℕ → List Char → Option (List Char × List Char)
  | _, [] => none
  | depth, c :: s =>
    if c = '\x7d' ∧ depth = 1 then some ([], s)
    else
      let depth := if c = '\x7b' then depth + 1 else if c = '\x7d' then depth - 1 else depth
      (splitAtClose depth s).map fun (before, behind) => (c :: before, behind)

section

variable (toUppercase : List Char → List Char)

/-- The opening brace behind the `WHERE`, or the first one: positions in the upper-case text are used in
the text itself. -/
def openingBrace (sparql : List Char) : Option (Option (List Char × List Char)) :=
  match findByte "WHERE".toList (toUppercase sparql) with
  | some wherePos =>
    (splitAtByte (wherePos + 5) sparql).map fun (before, afterWhere) =>
      (splitAtOpen afterWhere).map fun (open', inner) => (before ++ open', inner)
  | none => some (splitAtOpen sparql)

def wrapInNamedGraph (sparql g : List Char) : Option (List Char) :=
  (openingBrace toUppercase sparql).map fun opened =>
    match opened with
    | none => sparql
    | some (front, rest) =>
      match splitAtClose 1 rest with
      | none => sparql
      | some (inner, back) =>
        let wrapped := front ++ " GRAPH ".toList ++ g ++ " \x7b ".toList ++ trim inner ++ " \x7d \x7d".toList
        if trim back = [] then wrapped else wrapped ++ ' ' :: trim back

/-- The query that `query_staging_for_claims` puts to the store. -/
def stagingQuery (claims : IsolationClaims) (stagingId sparql : String) : Option (Except String String) :=
  if "GRAPH".toList <:+: toUppercase sparql.toList then
    some (.error "claims-scoped staging queries must not contain GRAPH")
  else
    match stagingGraphIriForClaims claims stagingId with
    | .error e => some (.error e)
    | .ok graph =>
      (wrapInNamedGraph toUppercase sparql.toList ('<' :: graph.toList ++ ['>'])).map fun final =>
        .ok (String.ofList final)

end

/-! ### The answer -/

/-- `s[1..pos]` of a term that starts with a quote, where `before` is `s[..pos]`. -/
def dropQuote : List Char → Option (List Char)
  | [] => none
  | _ :: before => some before

def normalizeTerm (s : List Char) : Option (List Char) :=
  if s.head? = some '<' ∧ s.getLast? = some '>' then some s.tail.dropLast
  else if s.head? = some '"' then
    match rsplitOnce "\"^^<".toList s with
    | some (before, _) => dropQuote before
    | none =>
      match rsplitOnce "\"@".toList s with
      | some (before, _) => dropQuote before
      | none => if s.getLast? = some '"' ∧ 1 < s.length then some s.tail.dropLast else some s
  else some s

/-- The members of a solution: a variable is printed with its question mark. -/
def rowMembers : List (String × String) → Option (List (String × Value))
  | [] => some []
  | (var, term) :: rest =>
    (normalizeTerm term.toList).bind fun text =>
      (rowMembers rest).map fun members => ("?" ++ var, Value.string (String.ofList text)) :: members

def solutionRows : List (Except String (List (String × String))) → Option (Except String (List Value))
  | [] => some (.ok [])
  | .error e :: _ => some (.error ("Failed to read query result: " ++ e))
  | .ok row :: rest =>
    (rowMembers row).bind fun members =>
      (solutionRows rest).map fun rows => rows.map (Value.object members :: ·)

def tripleRow (triple : String × String × String) : Value :=
  .object [("subject", .string triple.1), ("predicate", .string triple.2.1), ("object", .string triple.2.2)]

def graphRows : List (Except String (String × String × String)) → Except String (List Value)
  | [] => .ok []
  | .error e :: _ => .error ("Failed to read graph result: " ++ e)
  | .ok triple :: rest => (graphRows rest).map (tripleRow triple :: ·)

/-- The rows of `query_sparql_in_graph`. -/
def QueryResults.rows : QueryResults → Option (Except String (List Value))
  | solutions rows => solutionRows rows
  | graph triples => some (graphRows triples)
  | boolean b => some (.ok [.object [("result", .bool b)]])

def KnowledgeGraphStore.queryStagingForClaims (toUppercase : List Char → List Char) (kg : KnowledgeGraphStore)
    (claims : IsolationClaims) (stagingId sparql : String) : Option (Except String (List Value)) :=
  (stagingQuery toUppercase claims stagingId sparql).bind fun asked =>
    match asked with
    | .error e => some (.error e)
    | .ok final =>
      match kg.query final with
      | .error e => some (.error ("SPARQL query failed: " ++ e))
      | .ok results => results.rows

/-- `staging_ntriples_for_claims`; the names that are minted are taken for IRIs. -/
def KnowledgeGraphStore.stagingNtriplesForClaims (kg : KnowledgeGraphStore) (claims : IsolationClaims)
    (stagingId : String) : Except String String :=
  match stagingGraphIriForClaims claims stagingId with
  | .error e => .error e
  | .ok graph => go graph kg.quads
where
  go (graph : String) : List (Except String PrintedQuad) → Except String String
    | [] => .ok ""
    | .error e :: _ => .error ("read staging graph failed: " ++ e)
    | .ok quad :: rest =>
      (go graph rest).map fun triples =>
        if quad.graphName = some graph then
          quad.subject ++ " " ++ quad.predicate ++ " " ++ quad.object ++ " .\n" ++ triples
        else triples

/-! ### What an answer can be read as -/

/-- A solution binds no member that is not the name of a variable. -/
theorem lookup_rowMembers {name : List Char} (h : name.head? ≠ some '?') :
    ∀ {row : List (String × String)} {members : List (String × Value)}, rowMembers row = some members →
      members.lookup (String.ofList name) = none := by
  intro row
  induction row with
  | nil =>
    intro members hmembers
    cases hmembers
    rfl
  | cons binding rest ih =>
    intro members hmembers
    obtain ⟨var, term⟩ := binding
    obtain ⟨text, -, hmembers⟩ := bind_eq_some_iff.1 hmembers
    obtain ⟨tail, htail, rfl⟩ := map_eq_some_iff.1 hmembers
    have hne : String.ofList name ≠ "?" ++ var := by
      intro heq
      have hlist := congrArg String.toList heq
      rw [String.toList_ofList, String.toList_append] at hlist
      exact h (by rw [hlist]; rfl)
    rw [List.lookup_cons, beq_eq_false_iff_ne.2 hne]
    exact ih htail

/-- Only an answer to an `ASK` has a first row with a boolean `result`. -/
theorem boolean_of_rows {results : QueryResults} {rows : List Value} {b : Bool} (h : results.rows = some (.ok rows))
    (hresult : (rows.head?.bind fun row => (row.get "result").bind Value.asBool) = some b) :
    results = .boolean b := by
  cases results with
  | boolean b' =>
    obtain rfl := Except.ok.inj (some.inj h)
    exact congrArg _ (some.inj hresult)
  | graph triples =>
    cases triples with
    | nil =>
      obtain rfl := Except.ok.inj (some.inj h)
      exact (nomatch hresult)
    | cons triple rest =>
      cases triple with
      | error e => exact (nomatch some.inj h)
      | ok triple =>
        have hrows := some.inj h
        simp only [graphRows] at hrows
        cases hrest : graphRows rest with
        | error e =>
          rw [hrest] at hrows
          exact (nomatch hrows)
        | ok tail =>
          rw [hrest] at hrows
          cases hrows
          have hnone : (tripleRow triple).get "result" = none := rfl
          simp [hnone] at hresult
  | solutions solutions =>
    cases solutions with
    | nil =>
      obtain rfl := Except.ok.inj (some.inj h)
      exact (nomatch hresult)
    | cons row rest =>
      cases row with
      | error e => exact (nomatch some.inj h)
      | ok row =>
        obtain ⟨members, hmembers, hrows⟩ := bind_eq_some_iff.1 h
        obtain ⟨tail, -, htail⟩ := map_eq_some_iff.1 hrows
        cases tail with
        | error e => exact (nomatch htail)
        | ok tail =>
          cases htail
          have hnone : (Value.object members).get "result" = none :=
            lookup_rowMembers (show "result".toList.head? ≠ some '?' by decide) hmembers
          simp [hnone] at hresult

end WildAgentOs.KnowledgeGraph
