import WildAgentOs.Isolation
import WildAgentOs.Lib.Postings
import WildAgentOs.Memory.Contents

/-!
# Checkpoints

`core/checkpoint.rs`: `CheckpointManager` over an L0 store: checkpoints with their index in memory, the
envelopes at PDCA boundaries, and restarts, after which a new manager goes on with the same store.

The JSON codecs are parameters.

* `CheckpointData`, `PdcaCheckpointEnvelope`, `PdcaResumeState`, `CheckpointManager`;
* `createExt`, `create`, `writePdcaEnvelope`, `delete`, `list`, `restoreLatest`, `readPdcaResume`;
* `Op.step`: operations on a manager and its store.
-/

namespace WildAgentOs.Core

open Memory Text

structure ClaimsSnapshot where
  tenantId : String
  projectId : String
  actorId : String
  deriving DecidableEq

def ClaimsSnapshot.ofClaims (claims : IsolationClaims) : ClaimsSnapshot where
  tenantId := claims.tenantId
  projectId := claims.projectId
  actorId := claims.actorId

/-- `Plan`, `Do`, `Check` and `Act`. -/
inductive PdcaStepKind
  | plan
  | doing
  | check
  | act
  deriving DecidableEq

structure PdcaCheckpointEnvelope where
  envelopeIri : String
  taskIri : String
  step : PdcaStepKind
  claims : ClaimsSnapshot
  advertisedTools : List String
  createdAt : ℤ
  deriving DecidableEq

structure PdcaResumeState where
  lastSuccessful : PdcaCheckpointEnvelope
  completedSteps : List PdcaStepKind
  deriving DecidableEq

structure CheckpointData where
  checkpointIri : String
  taskIri : String
  name : String
  nodeCount : Int32
  totalSizeBytes : Int32
  createdAt : ℤ
  tags : List String
  nodesJson : String
  sessionMessagesJson : String
  agentStateJson : String
  currentRole : Option String
  fiveW2hJson : Option String
  prevSummary : Option String
  cycleStateJson : Option String
  completedNodesJson : Option String
  pendingApprovalsJson : Option String
  supplementJson : Option String
  toolErrorJson : Option String
  actionTrackerJson : Option String
  perceptionAnomalyJson : Option String
  deriving DecidableEq

/-- The codecs, and the length of a JSON array, `0` for anything else. -/
structure CheckpointEnv where
  l0 : L0Env
  arrayLength : String → ℕ
  checkpointToString : CheckpointData → String
  checkpointFromStr : String → Option CheckpointData
  envelopeToString : PdcaCheckpointEnvelope → String
  envelopeFromStr : String → Except String PdcaCheckpointEnvelope

structure CheckpointManager where
  taskCheckpoints : AList fun _ : String => List String
  counter : UInt64

/-- `with_persistence`. -/
def CheckpointManager.new : CheckpointManager := ⟨∅, 0⟩

/-- A manager and its store. -/
structure Checkpoints where
  l0 : L0Store
  manager : CheckpointManager

/-- `strip_prefix("iri://").unwrap_or(task_iri)`. -/
def taskPath (taskIri : String) : String :=
  match stripStart "iri://".toList taskIri.toList with
  | some rest => String.ofList rest
  | none => taskIri

/-- What the IRIs of a task's checkpoints and envelopes start with. -/
def checkpointPrefix (taskIri : String) : String := "iri://checkpoint/" ++ taskPath taskIri ++ "/"

def pdcaPrefix (taskIri : String) : String := "iri://checkpoint/" ++ taskPath taskIri ++ "/pdca/"

def checkpointIri (taskIri : String) (seq : UInt64) : String :=
  "iri://checkpoint/" ++ taskPath taskIri ++ "/seq_" ++ toString seq.toNat

def envelopeIri (taskIri : String) (seq : UInt64) (uuid : String) : String :=
  "iri://checkpoint/" ++ taskPath taskIri ++ "/pdca/" ++ toString seq.toNat ++ "/" ++ uuid

/-- The arguments of `create_ext`. -/
structure CreateExt where
  taskIri : String
  name : String
  nodesJson : String
  sessionMessagesJson : String
  agentStateJson : String
  tags : List String
  currentRole : Option String
  fiveW2hJson : Option String
  prevSummary : Option String
  cycleStateJson : Option String
  completedNodesJson : Option String
  pendingApprovalsJson : Option String
  supplementJson : Option String
  toolErrorJson : Option String
  actionTrackerJson : Option String
  perceptionAnomalyJson : Option String

namespace Checkpoints

/-- `len() as i32` -/
def len (s : String) : Int32 := Int32.ofNat s.utf8ByteSize

/-- The checkpoint that `create_ext` makes.  The sum wraps, as in a release build. -/
def checkpointData (env : CheckpointEnv) (now : ℤ) (seq : UInt64) (a : CreateExt) : CheckpointData where
  checkpointIri := checkpointIri a.taskIri seq
  taskIri := a.taskIri
  name := a.name
  nodeCount := Int32.ofNat (env.arrayLength a.nodesJson)
  totalSizeBytes :=
    [a.fiveW2hJson, a.cycleStateJson, a.completedNodesJson, a.pendingApprovalsJson, a.supplementJson,
      a.toolErrorJson, a.actionTrackerJson].foldl
      (fun total json => match json with
        | some v => total + len v
        | none => total)
      (len a.nodesJson + len a.sessionMessagesJson + len a.agentStateJson)
  createdAt := now
  tags := a.tags
  nodesJson := a.nodesJson
  sessionMessagesJson := a.sessionMessagesJson
  agentStateJson := a.agentStateJson
  currentRole := a.currentRole
  fiveW2hJson := a.fiveW2hJson
  prevSummary := a.prevSummary
  cycleStateJson := a.cycleStateJson
  completedNodesJson := a.completedNodesJson
  pendingApprovalsJson := a.pendingApprovalsJson
  supplementJson := a.supplementJson
  toolErrorJson := a.toolErrorJson
  actionTrackerJson := a.actionTrackerJson
  perceptionAnomalyJson := a.perceptionAnomalyJson

/-- `counter.fetch_add(1)`. -/
def bump (s : Checkpoints) : Checkpoints := { s with manager := { s.manager with counter := s.manager.counter + 1 } }

/-- `entry(task_iri).or_default().push(iri)`. -/
def pushIri (s : Checkpoints) (taskIri iri : String) : Checkpoints :=
  { s with manager := { s.manager with
      taskCheckpoints := s.manager.taskCheckpoints.insert taskIri
        ((s.manager.taskCheckpoints.lookup taskIri).getD [] ++ [iri]) } }

def createExt (env : CheckpointEnv) (now : ℤ) (s : Checkpoints) (a : CreateExt) :
    Except CoreError CheckpointData × Checkpoints :=
  let checkpoint := checkpointData env now s.manager.counter a
  let s := s.bump
  match s.l0.store env.l0 now checkpoint.checkpointIri (env.checkpointToString checkpoint) with
  | .error e => (.error e, s)
  | .ok l0 => (.ok checkpoint, pushIri { s with l0 } a.taskIri checkpoint.checkpointIri)

/-- `create`: `create_ext` without the optional fields. -/
def create (env : CheckpointEnv) (now : ℤ) (s : Checkpoints)
    (taskIri name nodesJson sessionMessagesJson agentStateJson : String) (tags : List String) :
    Except CoreError CheckpointData × Checkpoints :=
  createExt env now s
    ⟨taskIri, name, nodesJson, sessionMessagesJson, agentStateJson, tags, none, none, none, none, none,
      none, none, none, none, none⟩

/-- The envelope that `write_pdca_envelope` makes. -/
def pdcaEnvelope (now : ℤ) (uuid : String) (seq : UInt64) (taskIri : String) (step : PdcaStepKind)
    (claims : IsolationClaims) (advertisedTools : List String) : PdcaCheckpointEnvelope where
  envelopeIri := envelopeIri taskIri seq uuid
  taskIri
  step
  claims := .ofClaims claims
  advertisedTools
  createdAt := now

def writePdcaEnvelope (env : CheckpointEnv) (now : ℤ) (uuid : String) (s : Checkpoints)
    (taskIri : String) (step : PdcaStepKind) (claims : Option IsolationClaims)
    (advertisedTools : List String) : Except CoreError PdcaCheckpointEnvelope × Checkpoints :=
  match claims with
  | none =>
    (.error (.permissionDenied "checkpoint" taskIri "write PDCA envelope without verified claims"), s)
  | some claims =>
    let envelope := pdcaEnvelope now uuid s.manager.counter taskIri step claims advertisedTools
    let s := s.bump
    match s.l0.store env.l0 now envelope.envelopeIri (env.envelopeToString envelope) with
    | .error e => (.error e, s)
    | .ok l0 => (.ok envelope, { s with l0 })

def delete (env : CheckpointEnv) (now : ℤ) (s : Checkpoints) (iri : String) : Except CoreError Unit × Checkpoints :=
  match s.l0.retrieve env.l0 now iri with
  | .error e => (.error e, s)
  | .ok (none, l0) => (.error (.internal ("Checkpoint not found: " ++ iri)), { s with l0 })
  | .ok (some _, l0) =>
    match l0.delete env.l0 iri with
    | .error e => (.error e, { s with l0 })
    | .ok (_, l0) =>
      (.ok (), ⟨l0, { s.manager with
        taskCheckpoints := s.manager.taskCheckpoints.filterMapValues fun iris =>
          some (iris.filter (· ≠ iri)) }⟩)

/-- The loop of `list` over the index: what cannot be read is left out. -/
def retrieveCheckpoints (env : CheckpointEnv) (now : ℤ) : L0Store → List String → List CheckpointData × L0Store
  | l0, [] => ([], l0)
  | l0, iri :: iris =>
    match l0.retrieve env.l0 now iri with
    | .error _ => retrieveCheckpoints env now l0 iris
    | .ok (entry, l0) =>
      let (rest, l0) := retrieveCheckpoints env now l0 iris
      ((entry.bind fun entry => env.checkpointFromStr entry.content).toList ++ rest, l0)

/-- `list`: the index, or else a scan of the store. -/
def list (env : CheckpointEnv) (now : ℤ) (s : Checkpoints) (taskIri : String) (limit : ℕ) :
    List CheckpointData × Checkpoints :=
  match s.manager.taskCheckpoints.lookup taskIri with
  | some iris =>
    let (results, l0) := retrieveCheckpoints env now s.l0 iris.reverse
    (results.take limit, { s with l0 })
  | none =>
    match s.l0.scanIriPrefix env.l0 (checkpointPrefix taskIri) 100 with
    | .error _ => ([], s)
    | .ok entries =>
      let results := entries.filterMap fun entry => env.checkpointFromStr entry.content
      ((results.mergeSort fun a b => decide (b.createdAt ≤ a.createdAt)).take limit, s)

def restoreLatest (env : CheckpointEnv) (now : ℤ) (s : Checkpoints) (taskIri : String) :
    Option CheckpointData × Checkpoints :=
  let (results, s) := list env now s taskIri 1
  (results.head?, s)

/-- The envelopes of a scan, read one after the other. -/
def readEnvelopes (env : CheckpointEnv) (entries : List L0Entry) : Except CoreError (List PdcaCheckpointEnvelope) :=
  entries.mapM fun entry => (env.envelopeFromStr entry.content).mapError fun e =>
    .internal ("Invalid PDCA envelope: " ++ e)

/-- The steps of envelopes, each of them once. -/
def completedSteps (envelopes : List PdcaCheckpointEnvelope) : List PdcaStepKind :=
  envelopes.foldl (fun steps envelope =>
    if envelope.step ∈ steps then steps else steps ++ [envelope.step]) []

def readPdcaResume (env : CheckpointEnv) (s : Checkpoints) (taskIri : String)
    (claims : Option IsolationClaims) : Except CoreError (Option PdcaResumeState) :=
  match claims with
  | none =>
    .error (.permissionDenied "checkpoint" taskIri "resume PDCA envelope without verified claims")
  | some claims => do
    let entries ← s.l0.scanIriPrefix env.l0 (pdcaPrefix taskIri) 100
    let envelopes ← readEnvelopes env entries
    if envelopes.isEmpty then return none
    else if envelopes.any (fun envelope =>
        envelope.taskIri ≠ taskIri || envelope.claims ≠ .ofClaims claims) then
      throw (.permissionDenied "checkpoint" taskIri "resume PDCA envelope with mismatched verified claims")
    else
      let sorted := envelopes.mergeSort fun a b => decide (a.createdAt ≤ b.createdAt)
      return sorted.getLast?.map fun lastSuccessful => ⟨lastSuccessful, completedSteps sorted⟩

/-! ### Runs -/

/-- An operation, with its time, and the uuid that a new envelope gets. -/
inductive Op
  | create (now : ℤ) (args : CreateExt)
  | writePdcaEnvelope (now : ℤ) (uuid taskIri : String) (step : PdcaStepKind)
      (claims : Option IsolationClaims) (advertisedTools : List String)
  | delete (now : ℤ) (iri : String)
  | restoreLatest (now : ℤ) (taskIri : String)
  /-- A new manager over the same store. -/
  | restart

/-- The state after an operation, whatever it returns. -/
def Op.step (env : CheckpointEnv) (s : Checkpoints) : Op → Checkpoints
  | .create now args => (s.createExt env now args).2
  | .writePdcaEnvelope now uuid taskIri step claims tools =>
    (s.writePdcaEnvelope env now uuid taskIri step claims tools).2
  | .delete now iri => (s.delete env now iri).2
  | .restoreLatest now taskIri => (s.restoreLatest env now taskIri).2
  | .restart => ⟨s.l0, .new⟩

/-- A new manager over a new store. -/
def start : Checkpoints := ⟨.new true, .new⟩

end Checkpoints

end WildAgentOs.Core
