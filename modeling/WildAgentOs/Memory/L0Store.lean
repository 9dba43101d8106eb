import Mathlib.Data.List.AList
import WildAgentOs.Json.Value
import WildAgentOs.Lib.KeyScan
import WildAgentOs.Lib.Text

/-!
# The L0 store

`memory/l0_store.rs`: `store`, `store_entry`, `retrieve`, `delete`, the searches by tags and by IRI,
documents and named graphs.
The tables of the database are finite maps.  A float that is not finite is written as `null` and
cannot be read back, so an entry with such an importance is not readable; the other members are
read back as they were written.  Every operation is given its time.

* `L0Entry`, `L0Store`, `storeEntry`, `store`, `retrieve`, `delete`;
* `searchWithIndex`, `searchByTagsFallback`, `searchByTags`, `scanIriPrefix`, `updateMesiState`, `storeJsonldNode`;
* `queryByNamedGraph`, `deleteNamedGraph`, `listNamedGraphs`.
-/

namespace WildAgentOs.Memory

open Json Text

/-- An `f32`, by its bits. -/
structure F32 where
  bits : UInt32
  deriving DecidableEq

def F32.isFinite (x : F32) : Bool := x.bits.toNat % 2 ^ 31 < 0x7F800000

inductive MesiState
  | modified
  | exclusive
  | shared
  | invalid
  deriving DecidableEq

structure L0Entry where
  iri : String
  content : String
  importance : F32
  accessCount : UInt32
  createdAt : ℤ
  lastAccessed : ℤ
  tags : List String
  metadata : List (String × Value)
  mesiState : MesiState
  contentHash : String
  namedGraph : Option String
  jsonldContext : Option String
  jsonldTypes : List String
  hyperspacePointId : Option UInt32

inductive CoreError
  | permissionDenied (agent resource action : String)
  | storageError (message : String)
  | internal (message : String)
  deriving DecidableEq

/-- The hash of a content, the mean `(a + b) / 2.0`, and the message of the JSON reader. -/
structure L0Env where
  computeContentHash : String → String
  mean : F32 → F32 → F32
  notAFloat : String

/-- `serde_json::from_slice` of an entry that was written with `to_vec`. -/
def fromSlice (env : L0Env) (entry : L0Entry) : Except CoreError L0Entry :=
  if entry.importance.isFinite then .ok entry
  else .error (.storageError ("Failed to deserialize entry: " ++ env.notAFloat))

def isLegacyUnscopedToolResultIri (iri : String) : Bool :=
  match stripStart "iri://tool-result/".toList iri.toList with
  | none => false
  | some rest => ((rest.splitOn '/').filter (· ≠ [])).length ≠ 5

/-- Index tables: lists of IRIs under their keys. -/
abbrev IriIndex := AList fun _ : String => List String

namespace IriIndex

/-- `add_iri_to_tag_index`, `add_iri_to_named_graph_index`. -/
def addIri (table : IriIndex) (key iri : String) : IriIndex :=
  let iris := (table.lookup key).getD []
  table.insert key (if iri ∈ iris then iris else iris ++ [iri])

/-- `remove_iri_from_tag_index`, `remove_iri_from_named_graph_index`.  The second does nothing to an
empty list, which no table holds. -/
def removeIri (table : IriIndex) (key iri : String) : IriIndex :=
  match table.lookup key with
  | none => table
  | some iris =>
    let iris := iris.filter (· ≠ iri)
    if iris = [] then table.erase key else table.insert key iris

end IriIndex

structure L0Store where
  entries : AList fun _ : String => L0Entry
  tagIndex : IriIndex
  namedGraphs : IriIndex
  writable : Bool

namespace L0Store

/-- A store on a new database. -/
def new (writable : Bool) : L0Store where
  entries := ∅
  tagIndex := ∅
  namedGraphs := ∅
  writable

def assertWritable (s : L0Store) : Except CoreError Unit :=
  if s.writable then .ok ()
  else .error (.permissionDenied "l0_store" "l0" "write L0 data without verified claims")

/-- `format!("tag:{}", tag)`. -/
def tagKey (tag : String) : String := "tag:" ++ tag

/-- `format!("graph:{}", graph)`. -/
def graphKey (graph : String) : String := "graph:" ++ graph

def updateTagIndex (table : IriIndex) (iri : String) (oldTags newTags : List String) : IriIndex :=
  let table := oldTags.foldl (fun table tag => table.removeIri (tagKey tag) iri) table
  newTags.foldl (fun table tag => table.addIri (tagKey tag) iri) table

/-- What is read of the entry under an IRI, or else the given value: `get_entry_tags`,
`get_entry_named_graph`. -/
def getEntry {α : Type} (env : L0Env) (s : L0Store) (iri : String) (field : L0Entry → α)
    (default : α) : Except CoreError α :=
  match s.entries.lookup iri with
  | none => .ok default
  | some stored => field <$> fromSlice env stored

def getEntryTags (env : L0Env) (s : L0Store) (iri : String) : Except CoreError (List String) :=
  s.getEntry env iri L0Entry.tags []

def getEntryNamedGraph (env : L0Env) (s : L0Store) (iri : String) : Except CoreError (Option String) :=
  s.getEntry env iri L0Entry.namedGraph none

def retrieveWithoutUpdate (env : L0Env) (s : L0Store) (iri : String) : Except CoreError (Option L0Entry) :=
  if isLegacyUnscopedToolResultIri iri then .ok none
  else s.getEntry env iri some none

/-- The elements of the first list, then those of the second that are new. -/
def mergeLists (xs ys : List String) : List String :=
  ys.foldl (fun merged y => if y ∈ merged then merged else merged ++ [y]) xs

/-- `Map::insert`. -/
def insertMember (members : List (String × Value)) (member : String × Value) : List (String × Value) :=
  member :: members.filter (·.1 ≠ member.1)

def mergeEntries (env : L0Env) (now : ℤ) (existing new : L0Entry) : L0Entry where
  iri := existing.iri
  content := new.content
  importance := env.mean existing.importance new.importance
  accessCount := existing.accessCount
  createdAt := existing.createdAt
  lastAccessed := now
  tags := mergeLists existing.tags new.tags
  metadata := new.metadata.foldl insertMember existing.metadata
  mesiState := new.mesiState
  contentHash := new.contentHash
  namedGraph := existing.namedGraph.or new.namedGraph
  jsonldContext := new.jsonldContext.or existing.jsonldContext
  jsonldTypes := mergeLists existing.jsonldTypes new.jsonldTypes
  hyperspacePointId := existing.hyperspacePointId.or new.hyperspacePointId

/-- The entry of a content alone. -/
def plainEntry (env : L0Env) (now : ℤ) (iri content : String) : L0Entry where
  iri
  content
  -- `0.5`
  importance := ⟨0x3F000000⟩
  accessCount := 0
  createdAt := now
  lastAccessed := now
  tags := []
  metadata := []
  mesiState := .shared
  contentHash := env.computeContentHash content
  namedGraph := none
  jsonldContext := none
  jsonldTypes := []
  hyperspacePointId := none

/-- The entry that is written: merged into the one that is there. -/
def mergedEntry (env : L0Env) (now : ℤ) (existing : Option L0Entry) (entry : L0Entry) : L0Entry :=
  match existing with
  | some existing => mergeEntries env now existing entry
  | none => entry

/-- `store`: the tag index is left as it is. -/
def store (env : L0Env) (now : ℤ) (s : L0Store) (iri content : String) : Except CoreError L0Store := do
  s.assertWritable
  let existing ← s.retrieveWithoutUpdate env iri
  let entry := mergedEntry env now existing (plainEntry env now iri content)
  return { s with entries := s.entries.insert iri entry }

/-- The index of the named graphs after an entry has changed its graph. -/
def updateNamedGraphs (table : IriIndex) (iri : String) (old new : Option String) : IriIndex :=
  if old ≠ new then
    let table := match old with
      | some graph => table.removeIri (graphKey graph) iri
      | none => table
    match new with
      | some graph => table.addIri (graphKey graph) iri
      | none => table
  else table

def storeEntry (env : L0Env) (now : ℤ) (s : L0Store) (entry : L0Entry) : Except CoreError L0Store := do
  s.assertWritable
  let oldTags ← s.getEntryTags env entry.iri
  let oldNamedGraph ← s.getEntryNamedGraph env entry.iri
  let contentHash := if entry.contentHash = "" then env.computeContentHash entry.content else entry.contentHash
  let existing ← s.retrieveWithoutUpdate env entry.iri
  -- From here on the merged entry goes by the name of the given one.
  let entry := mergedEntry env now existing { entry with contentHash }
  return { s with
    tagIndex := updateTagIndex s.tagIndex entry.iri oldTags entry.tags
    namedGraphs := updateNamedGraphs s.namedGraphs entry.iri oldNamedGraph entry.namedGraph
    entries := s.entries.insert entry.iri entry }

/-- `retrieve`: the access is written back, and the entry given as it was read, with its access. -/
def retrieve (env : L0Env) (now : ℤ) (s : L0Store) (iri : String) : Except CoreError (Option L0Entry × L0Store) :=
  if isLegacyUnscopedToolResultIri iri then .ok (none, s)
  else
    match s.entries.lookup iri with
    | none => .ok (none, s)
    | some stored => do
      let entry ← fromSlice env stored
      if s.writable then
        -- The count wraps, as in a release build.
        let entry := { entry with accessCount := entry.accessCount + 1, lastAccessed := now }
        return (some entry, ← s.storeEntry env now entry)
      else return (some entry, s)

def delete (env : L0Env) (s : L0Store) (iri : String) : Except CoreError (Bool × L0Store) := do
  s.assertWritable
  let oldTags ← s.getEntryTags env iri
  return (true, { s with
    tagIndex := oldTags.foldl (fun table tag => table.removeIri (tagKey tag) iri) s.tagIndex
    entries := s.entries.erase iri })

/-! ### Searches -/

/-- The loop of `search_with_index`: no candidates at a tag that has no list. -/
def candidateIris (table : IriIndex) : List String → List String → Option (List String)
  | [], candidates => some candidates
  | tag :: tags, candidates =>
    match table.lookup (tagKey tag) with
    | none => none
    | some iris =>
      candidateIris table tags
        (if candidates = [] then iris else candidates.filter (· ∈ iris))

/-- The candidates, retrieved one after the other. -/
def retrieveAll (env : L0Env) (now : ℤ) : L0Store → List String → Except CoreError (List L0Entry × L0Store)
  | s, [] => .ok ([], s)
  | s, iri :: iris => do
    let (entry, s) ← s.retrieve env now iri
    let (entries, s) ← retrieveAll env now s iris
    return (entry.toList ++ entries, s)

def searchByTagsFallback (env : L0Env) (s : L0Store) (tags : List String) : Except CoreError (List L0Entry) := do
  let entries ← s.entries.entries.mapM fun row => fromSlice env row.2
  return entries.filter fun entry =>
    !isLegacyUnscopedToolResultIri entry.iri && tags.all (· ∈ entry.tags)

def searchWithIndex (env : L0Env) (now : ℤ) (s : L0Store) (tags : List String) :
    Except CoreError (List L0Entry × L0Store) :=
  if tags = [] then .ok ([], s)
  else
    match candidateIris s.tagIndex tags [] with
    | some candidates => retrieveAll env now s candidates
    | none => (·, s) <$> s.searchByTagsFallback env tags

def searchByTags (env : L0Env) (now : ℤ) (s : L0Store) (tags : List String) :
    Except CoreError (List L0Entry × L0Store) :=
  s.searchWithIndex env now tags

/-- The rows of the table, in the order of their keys. -/
def sortedRows (s : L0Store) : List (Σ _ : String, L0Entry) := s.entries.entries.mergeSort fun a b => decide (a.1 ≤ b.1)

/-- The loop of `scan_iri_prefix`, with the entries that it has read. -/
def scanRows (env : L0Env) (pre : String) (limit : ℕ) :
    List (Σ _ : String, L0Entry) → List L0Entry → Except CoreError (List L0Entry)
  | [], results => .ok results
  | row :: rows, results =>
    if KeyScan.startsWith pre row.1 = false then .ok results
    else if isLegacyUnscopedToolResultIri row.1 then scanRows env pre limit rows results
    else do
      let entry ← fromSlice env row.2
      if limit ≤ (results ++ [entry]).length then return results ++ [entry]
      else scanRows env pre limit rows (results ++ [entry])

def scanIriPrefix (env : L0Env) (s : L0Store) (pre : String) (limit : ℕ) : Except CoreError (List L0Entry) :=
  scanRows env pre limit (s.sortedRows.dropWhile fun row => decide (row.1 < pre)) []

/-! ### Documents, coherence and named graphs -/

def updateMesiState (env : L0Env) (now : ℤ) (s : L0Store) (iri : String) (state : MesiState) :
    Except CoreError L0Store := do
  s.assertWritable
  match s.entries.lookup iri with
  | none => throw (.storageError ("Entry not found: " ++ iri))
  | some stored => do
    let entry ← fromSlice env stored
    s.storeEntry env now { entry with mesiState := state }

/-- The members of a document that are not its keywords. -/
def plainMembers (members : List (String × Value)) : List (String × Value) :=
  members.filter fun member =>
    member.1 ≠ "@id" && member.1 ≠ "@type" && member.1 ≠ "@context"

def documentTypes (members : List (String × Value)) : List String :=
  match members.lookup "@type" with
  | some (.string s) => [s]
  | some (.array items) => Value.strings items
  | _ => []

/-- The entry that `store_jsonld_node` stores.  `toJson` is the JSON writer. -/
def documentEntry (env : L0Env) (toJson : Value → String) (now : ℤ) (existing : Option L0Entry)
    (iri : String) (members : List (String × Value)) : L0Entry :=
  let content := toJson (.object members)
  let jsonldContext := (members.lookup "@context").map toJson
  match existing with
  | some existing =>
    { existing with
      iri
      content
      lastAccessed := now
      metadata := (plainMembers members).foldl insertMember existing.metadata
      contentHash := env.computeContentHash content
      jsonldContext := jsonldContext.or existing.jsonldContext
      jsonldTypes := mergeLists existing.jsonldTypes (documentTypes members) }
  | none =>
    { plainEntry env now iri content with
      metadata := (plainMembers members).foldl insertMember []
      jsonldContext
      jsonldTypes := documentTypes members }

/-- `store_jsonld_node`, without a registry of IRIs. -/
def storeJsonldNode (env : L0Env) (toJson : Value → String) (now : ℤ) (s : L0Store) (node : Value) :
    Except CoreError (String × L0Store) := do
  s.assertWritable
  match node with
  | .object members =>
    match (members.lookup "@id").bind Value.asStr with
    | none => throw (.storageError "JSON-LD node missing @id field")
    | some iri => do
      let existing ← s.retrieveWithoutUpdate env iri
      let s ← s.storeEntry env now (documentEntry env toJson now existing iri members)
      return (iri, s)
  | _ => throw (.storageError "JSON-LD node must be an object")

def queryByNamedGraph (env : L0Env) (now : ℤ) (s : L0Store) (graph : String) :
    Except CoreError (List L0Entry × L0Store) :=
  match s.namedGraphs.lookup (graphKey graph) with
  | some iris => retrieveAll env now s iris
  | none => .ok ([], s)

/-- The deletion of entries, one after the other. -/
def deleteAll (env : L0Env) : L0Store → List L0Entry → Except CoreError L0Store
  | s, [] => .ok s
  | s, entry :: entries => do
    let (_, s) ← s.delete env entry.iri
    deleteAll env s entries

/-- `delete_named_graph`: the number of entries it has found. -/
def deleteNamedGraph (env : L0Env) (now : ℤ) (s : L0Store) (graph : String) : Except CoreError (ℕ × L0Store) := do
  s.assertWritable
  let (entries, s) ← s.queryByNamedGraph env now graph
  let s ← deleteAll env s entries
  return (entries.length, { s with namedGraphs := s.namedGraphs.erase (graphKey graph) })

/-- `strip_prefix("graph:")`. -/
def graphOfKey (key : String) : Option String := (stripStart "graph:".toList key.toList).map String.ofList

/-- `list_named_graphs`, in the order of the keys. -/
def listNamedGraphs (s : L0Store) : List String :=
  (s.namedGraphs.keys.mergeSort fun a b => decide (a ≤ b)).filterMap graphOfKey

/-- The states that the operations reach from a new database. -/
inductive Reachable (env : L0Env) : L0Store → Prop
  | new (writable : Bool) : Reachable env (new writable)
  | store {s s' : L0Store} (now : ℤ) (iri content : String) (h : Reachable env s)
      (hstore : s.store env now iri content = .ok s') : Reachable env s'
  | storeEntry {s s' : L0Store} (now : ℤ) (entry : L0Entry) (h : Reachable env s)
      (hstore : s.storeEntry env now entry = .ok s') : Reachable env s'
  | retrieve {s s' : L0Store} {entry : Option L0Entry} (now : ℤ) (iri : String)
      (h : Reachable env s) (hretrieve : s.retrieve env now iri = .ok (entry, s')) :
      Reachable env s'
  | delete {s s' : L0Store} {removed : Bool} (iri : String) (h : Reachable env s)
      (hdelete : s.delete env iri = .ok (removed, s')) : Reachable env s'

end L0Store

end WildAgentOs.Memory
