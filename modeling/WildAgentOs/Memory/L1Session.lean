import WildAgentOs.Lib.FirstMin
import WildAgentOs.Memory.L0Store

/-!
# Sessions of one agent

`memory/l1_session.rs`: the chain of summaries of an agent, with a budget of tokens and the eviction of turns.  The
arithmetic of floats is a parameter.

* `L1Turn`, `L1Session`;
* `score`, `isStale`: what the two phases of an eviction look at;
* `evictWithQuery`, `addTurn`, `addSummary`, `addSupplement`, `tryReloadFromL0`, `reloadFromWeakRefs`, `clear`;
* `Op`, `step`.
-/

namespace WildAgentOs.Memory

/-- Operations on floats. -/
structure FloatEnv where
  ofNat : ℕ → F64
  toUsize : F64 → ℕ
  add : F64 → F64 → F64
  sub : F64 → F64 → F64
  mul : F64 → F64 → F64
  div : F64 → F64 → F64
  max : F64 → F64 → F64
  abs : F64 → F64
  /-- The sum of the products, in 32 bits. -/
  dot : List F32 → List F32 → F32
  sqrt : F32 → F32
  /-- `(dot / (norm_a * norm_b)).clamp(-1.0, 1.0) as f64`. -/
  ratio : F32 → F32 → F32 → F64

namespace L1Session

def zero : F64 := ⟨0⟩
def one : F64 := ⟨0x3FF0000000000000⟩
/-- 0.5. -/
def half : F64 := ⟨0x3FE0000000000000⟩
/-- 0.3. -/
def tokensPerByte : F64 := ⟨0x3FD3333333333333⟩
/-- 0.001. -/
def thousandth : F64 := ⟨0x3F50624DD2F1A9FC⟩
/-- `f64::MAX`. -/
def maxScore : F64 := ⟨0x7FEFFFFFFFFFFFFF⟩

end L1Session

structure EvictionConfig where
  recencyWeight : F64
  relevanceWeight : F64
  costWeight : F64
  relevanceThreshold : F64
  safeWindowSeconds : ℤ
  beta : F64
  deriving DecidableEq

structure L1Turn where
  role : String
  summary : String
  /-- In nanoseconds. -/
  timestamp : ℤ
  l0ArchiveIri : Option String
  embedding : Option (List F32)
  relevanceScore : Option F64
  isSupplement : Bool
  deriving DecidableEq

structure L1Session where
  turns : List L1Turn
  tokenBudget : ℕ
  /-- Below zero where the subtraction underflows. -/
  currentTokens : ℤ
  weakRefs : List String
  evictionConfig : EvictionConfig
  taskEmbedding : Option (List F32)
  deriving DecidableEq

namespace L1Session

/-- `with_config`, and `new` with the configuration of a role. -/
def withConfig (tokenBudget : ℕ) (evictionConfig : EvictionConfig) : L1Session :=
  ⟨[], tokenBudget, 0, [], evictionConfig, none⟩

variable (env : FloatEnv)

/-- `(summary.len() as f64 * 0.3) as usize`. -/
def cost (t : L1Turn) : ℕ := env.toUsize (env.mul (env.ofNat t.summary.utf8ByteSize) tokensPerByte)

def cosineSimilarity (a b : List F32) : F64 :=
  if a.length ≠ b.length ∨ a = [] then zero
  else
    let dot := env.dot a b
    let normA := env.sqrt (env.dot a a)
    let normB := env.sqrt (env.dot b b)
    if normA.bits.toNat % 2 ^ 31 = 0 ∨ normB.bits.toNat % 2 ^ 31 = 0 then zero else env.ratio dot normA normB

/-- The seconds since a turn, toward zero. -/
def timeSince (now : ℤ) (t : L1Turn) : ℤ := Int.tdiv (now - t.timestamp) (10 ^ 9)

/-- How well a turn fits a query. -/
def querySim (query : Option (List F32)) (t : L1Turn) : F64 :=
  match query, t.embedding with
  | some q, some e =>
    if q.length = e.length ∧ q ≠ [] then env.max (env.abs (cosineSimilarity env q e)) thousandth else half
  | _, _ => half

/-- The score of a turn: the smallest is evicted. -/
def score (cfg : EvictionConfig) (now : ℤ) (query : Option (List F32)) (t : L1Turn) : F64 :=
  let timeSince := env.ofNat (max (timeSince now t) 1).toNat
  let tokenCost := env.mul (env.ofNat t.summary.utf8ByteSize) tokensPerByte
  let querySim := querySim env query t
  let taskRelevance := t.relevanceScore.getD querySim
  let semanticRelevance :=
    env.max (env.add (env.mul cfg.beta querySim) (env.mul (env.sub one cfg.beta) taskRelevance)) thousandth
  env.add (env.add (env.mul (env.div one timeSince) cfg.recencyWeight)
    (env.mul (env.div one semanticRelevance) cfg.relevanceWeight)) (env.mul tokenCost cfg.costWeight)

/-- A turn of low relevance that is older than the safe window. -/
def isStale (cfg : EvictionConfig) (now : ℤ) (t : L1Turn) : Bool :=
  F64.lt zero cfg.relevanceThreshold && !t.isSupplement &&
    F64.lt (t.relevanceScore.getD half) cfg.relevanceThreshold && decide (cfg.safeWindowSeconds < timeSince now t)

/-! ### Eviction -/

/-- What an eviction makes of the turns after the first: those that are kept, those that are evicted, and the
tokens. -/
structure Eviction where
  kept : List L1Turn
  evicted : List L1Turn
  tokens : ℤ

/-- The first phase. -/
def hardPhase (cfg : EvictionConfig) (now : ℤ) (budget : ℕ) : ℤ → List L1Turn → Eviction
  | tokens, [] => ⟨[], [], tokens⟩
  | tokens, t :: rest =>
    if tokens ≤ budget then ⟨t :: rest, [], tokens⟩
    else if isStale cfg now t then
      let phase := hardPhase cfg now budget (tokens - cost env t) rest
      ⟨phase.kept, t :: phase.evicted, phase.tokens⟩
    else
      let phase := hardPhase cfg now budget tokens rest
      ⟨t :: phase.kept, phase.evicted, phase.tokens⟩

/-- The second phase: each pass evicts a turn, so there are no more passes than turns. -/
def scorePhase (cfg : EvictionConfig) (now : ℤ) (query : Option (List F32)) (budget : ℕ) :
    ℕ → ℤ → List L1Turn → Eviction
  | 0, tokens, tail => ⟨tail, [], tokens⟩
  | passes + 1, tokens, tail =>
    if tokens ≤ budget then ⟨tail, [], tokens⟩
    else match FirstMin.firstMin F64.lt (score env cfg now query) maxScore tail with
      | none => ⟨tail, [], tokens⟩
      | some idx =>
        match tail[idx]? with
        | none => ⟨tail, [], tokens⟩
        | some removed =>
          let phase := scorePhase cfg now query budget passes (tokens - cost env removed) (tail.eraseIdx idx)
          ⟨phase.kept, removed :: phase.evicted, phase.tokens⟩

/-- Both phases, on the turns after the first. -/
def evictTail (now : ℤ) (query : Option (List F32)) (s : L1Session) (tail : List L1Turn) : Eviction :=
  let hard := hardPhase env s.evictionConfig now s.tokenBudget s.currentTokens tail
  let scored := scorePhase env s.evictionConfig now (query.or s.taskEmbedding) s.tokenBudget hard.kept.length
    hard.tokens hard.kept
  ⟨scored.kept, hard.evicted ++ scored.evicted, scored.tokens⟩

/-- `evict_with_query`, with the number of turns that it evicts; `evict_by_policy` has no query. -/
def evictWithQuery (now : ℤ) (query : Option (List F32)) (s : L1Session) : L1Session × ℕ :=
  match s.turns with
  | [] => (s, 0)
  | first :: tail =>
    if s.currentTokens ≤ s.tokenBudget ∨ tail = [] then (s, 0)
    else
      let eviction := evictTail env now query s tail
      ({ s with
        turns := first :: eviction.kept
        currentTokens := eviction.tokens
        weakRefs := s.weakRefs ++ eviction.evicted.filterMap (·.l0ArchiveIri) }, eviction.evicted.length)

def setTokenBudget (now : ℤ) (budget : ℕ) (s : L1Session) : L1Session :=
  let s := { s with tokenBudget := budget }
  if (s.tokenBudget : ℤ) < s.currentTokens then (evictWithQuery env now none s).1 else s

/-! ### Turns -/

/-- The session with one more turn. -/
def push (t : L1Turn) (s : L1Session) : L1Session :=
  { s with turns := s.turns ++ [t], currentTokens := s.currentTokens + cost env t }

/-- A turn is added, with an eviction at a later time, and the last turn is returned. -/
def addTurn (later : ℤ) (t : L1Turn) (s : L1Session) : L1Session × Option L1Turn :=
  let s := s.push env t
  let s := if (s.tokenBudget : ℤ) < s.currentTokens then (evictWithQuery env later none s).1 else s
  (s, s.turns.getLast?)

/-- The turn of `add_summary`. -/
def summaryTurn (now : ℤ) (role summary : String) (l0ArchiveIri : Option String) : L1Turn :=
  ⟨role, summary, now, l0ArchiveIri, none, none, false⟩

def addSummary (now later : ℤ) (role summary : String) (l0ArchiveIri : Option String) (s : L1Session) :
    L1Session × Option L1Turn :=
  s.addTurn env later (summaryTurn now role summary l0ArchiveIri)

/-- The turn of `add_supplement`. -/
def supplementTurn (now : ℤ) (role summary : String) (embedding : Option (List F32)) (relevanceScore : Option F64) :
    L1Turn :=
  ⟨role, summary, now, none, embedding, relevanceScore, true⟩

def addSupplement (now later : ℤ) (role summary : String) (embedding : Option (List F32))
    (relevanceScore : Option F64) (s : L1Session) : L1Session × Option L1Turn :=
  s.addTurn env later (supplementTurn now role summary embedding relevanceScore)

/-- A read of the store, with the content of the entry if there is one and the read does not fail, and the times of
the turn and of the eviction. -/
structure L0Read where
  content : Option String
  now : ℤ
  later : ℤ

/-- The turn with what was read. -/
def reloadedTurn (now : ℤ) (content iri : String) : L1Turn :=
  summaryTurn now "system"
    ("[Reloaded] " ++
      if 200 < content.utf8ByteSize then String.ofList (content.toList.take 200) else content) (some iri)

def tryReloadFromL0 (read : L0Read) (iri : String) (s : L1Session) : L1Session × Bool :=
  match read.content with
  | some content => ((s.addTurn env read.later (reloadedTurn read.now content iri)).1, true)
  | none => (s, false)

/-- The loop over the references that were drained. -/
def reloadAll : List (L0Read × String) → L1Session → L1Session × ℕ
  | [], s => (s, 0)
  | (read, iri) :: rest, s =>
    let (s, reloaded) := s.tryReloadFromL0 env read iri
    let (s, count) := reloadAll rest s
    (s, if reloaded then count + 1 else count)

/-- The drained references, each with its read. -/
def drained (reads : ℕ → L0Read) (s : L1Session) : List (L0Read × String) :=
  s.weakRefs.zipIdx.map fun ref => (reads ref.2, ref.1)

def reloadFromWeakRefs (reads : ℕ → L0Read) (s : L1Session) : L1Session × ℕ :=
  reloadAll env (s.drained reads) { s with weakRefs := [] }

def clear (s : L1Session) : L1Session := { s with turns := [], weakRefs := [], currentTokens := 0 }

def setTurnEmbedding (turnIdx : ℕ) (embedding : List F32) (s : L1Session) : L1Session :=
  { s with turns := s.turns.modify turnIdx fun t => { t with embedding := some embedding } }

/-- What a caller writes into the turn that it was given. -/
def annotate (embedding : List F32) (relevanceScore : F64) (s : L1Session) : L1Session :=
  { s with
    turns := s.turns.modify (s.turns.length - 1) fun t =>
      { t with embedding := some embedding, relevanceScore := some relevanceScore } }

/-! ### Calls -/

inductive Op
  | addSummary (now later : ℤ) (role summary : String) (l0ArchiveIri : Option String)
  | addSupplement (now later : ℤ) (role summary : String) (embedding : Option (List F32)) (relevanceScore : Option F64)
  | setTokenBudget (now : ℤ) (budget : ℕ)
  | evictWithQuery (now : ℤ) (query : Option (List F32))
  | tryReloadFromL0 (read : L0Read) (iri : String)
  | reloadFromWeakRefs (reads : ℕ → L0Read)
  | setTaskEmbedding (embedding : List F32)
  | setTurnEmbedding (turnIdx : ℕ) (embedding : List F32)
  | annotate (embedding : List F32) (relevanceScore : F64)
  | clear

/-- One call. -/
def step (s : L1Session) : Op → L1Session
  | .addSummary now later role summary l0ArchiveIri => (s.addSummary env now later role summary l0ArchiveIri).1
  | .addSupplement now later role summary embedding relevanceScore =>
    (s.addSupplement env now later role summary embedding relevanceScore).1
  | .setTokenBudget now budget => s.setTokenBudget env now budget
  | .evictWithQuery now query => (s.evictWithQuery env now query).1
  | .tryReloadFromL0 read iri => (s.tryReloadFromL0 env read iri).1
  | .reloadFromWeakRefs reads => (s.reloadFromWeakRefs env reads).1
  | .setTaskEmbedding embedding => { s with taskEmbedding := some embedding }
  | .setTurnEmbedding turnIdx embedding => s.setTurnEmbedding turnIdx embedding
  | .annotate embedding relevanceScore => s.annotate embedding relevanceScore
  | .clear => s.clear

end L1Session

end WildAgentOs.Memory
