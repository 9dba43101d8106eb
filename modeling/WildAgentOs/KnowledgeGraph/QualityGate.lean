import WildAgentOs.KnowledgeGraph.Store
import WildAgentOs.Memory.Blackboard

/-!
# The quality gate

`knowledge_graph/quality_gate.rs`: the assertions, the SHACL sidecar and the judge an extraction is held against.
The sidecar's surroundings and the JSON reader are parameters; what the gate asks of them is logged.

* `validateRequest`, `evaluate`, `applyJudge`;
* `askAll_eq_ok`, `runPyshacl_eq_ok`, `evaluate_cases`: what each stage can answer;
* `FailsClosed`, `failsClosed_iff`.
-/

namespace WildAgentOs.KnowledgeGraph

open Text Json Memory List Option

inductive QualityCoverageArbitration
  | compliance
  | coverage
  deriving DecidableEq

structure SparqlAskAssertion where
  code : String
  query : String
  deriving DecidableEq

structure QualityGateRequest where
  assertions : List SparqlAskAssertion
  policyVersion : String
  arbitration : QualityCoverageArbitration
  pyshaclShapesTtl : Option String

inductive JudgeVerdict
  | approve
  | needsReview
  | reject
  deriving DecidableEq

structure JudgeReport where
  verdict : JudgeVerdict
  rationale : String
  sourceCitations : List String
  deriving DecidableEq

structure AskResult where
  code : String
  violation : Bool
  deriving DecidableEq

structure QualityGateReport where
  extractionId : String
  policyVersion : String
  arbitration : QualityCoverageArbitration
  ask : List AskResult
  pyshacl : Option Value
  judge : Option JudgeReport
  deterministicPassed : Bool
  passed : Bool
  reviewStatus : String
  productionWrite : Bool

/-- What the gate asks of others. -/
inductive GateCall
  | ask (code : String)
  | sidecar
  | judge
  deriving DecidableEq

/-! ### The request -/

def isCodeByte (c : Char) : Bool := c.isAlphanum || c = '_' || c = '-' || c = '.'

def validateAssertion (assertion : SparqlAskAssertion) : Except String Unit :=
  if assertion.code = "" ∨ assertion.code.toList.all isCodeByte = false then
    .error ("invalid quality gate assertion code: " ++ assertion.code)
  else
    let upper := (trim assertion.query.toList).map Char.toUpper
    if ¬"ASK".toList <+: upper ∨ "GRAPH".toList <:+: upper then
      .error ("quality gate assertion " ++ assertion.code ++ " must be graph-free SPARQL ASK")
    else .ok ()

def validateRequest (request : QualityGateRequest) : Except String Unit :=
  if trim request.policyVersion.toList = [] then .error "quality gate policy_version is required"
  else request.assertions.forM validateAssertion

/-! ### The sidecar -/

/-- What `run_pyshacl` meets: the configured command, the directory and the files it writes, what the command
prints and whether it succeeds. -/
structure Sidecar where
  command : Option String
  directory : Except String Unit
  writeData : String → Except String Unit
  writeShapes : String → Except String Unit
  output : String → String → String → Except String (List UInt8 × Bool)
  fromSlice : List UInt8 → Except String Value

/-- `report["conforms"] = false`: only an object or `null` has members. -/
def denyConforms : Value → Option Value
  | .null => some (.object [("conforms", .bool false)])
  | .object members => some (setMember (.object members) "conforms" (.bool false))
  | _ => none

/-- The report of a command that was run. -/
def sidecarReport (sidecar : Sidecar) (stdout : List UInt8) (success : Bool) : Option (Except String Value) :=
  match sidecar.fromSlice stdout with
  | .error e => some (.error ("pySHACL did not return a JSON report: " ++ e))
  | .ok report => if success then some (.ok report) else (denyConforms report).map .ok

section

variable (toUppercase : List Char → List Char) (kg : KnowledgeGraphStore) (claims : IsolationClaims)
  (extractionId : String) (sidecar : Sidecar)

def runPyshacl (shapes : String) : List GateCall × Option (Except String Value) :=
  match sidecar.command with
  | none => ([], some (.error "pySHACL requested but AGENTOS_KG_PYSHACL_COMMAND is not configured"))
  | some command =>
    if trim command.toList = [] ∨ command.toList.any isWhitespace then
      ([], some (.error "AGENTOS_KG_PYSHACL_COMMAND must be one executable path"))
    else
      match sidecar.directory with
      | .error e => ([], some (.error ("create pySHACL sidecar directory: " ++ e)))
      | .ok () =>
        match kg.stagingNtriplesForClaims claims extractionId with
        | .error e => ([], some (.error e))
        | .ok data =>
          match sidecar.writeData data with
          | .error e => ([], some (.error ("write pySHACL data: " ++ e)))
          | .ok () =>
            match sidecar.writeShapes shapes with
            | .error e => ([], some (.error ("write pySHACL shapes: " ++ e)))
            | .ok () =>
              match sidecar.output command data shapes with
              | .error e => ([.sidecar], some (.error ("run pySHACL sidecar: " ++ e)))
              | .ok (stdout, success) => ([.sidecar], sidecarReport sidecar stdout success)

/-! ### The gate -/

/-- Whether the rows of an `ASK` report a violation: anything but a first row with `false` does. -/
def isViolation (rows : List Value) : Bool :=
  ((rows.head?.bind fun row => row.get "result").bind Value.asBool).getD true

/-- The assertions in their order, up to the first that cannot be asked. -/
def askAll : List SparqlAskAssertion → List GateCall × Option (Except String (List AskResult))
  | [] => ([], some (.ok []))
  | assertion :: rest =>
    match kg.queryStagingForClaims toUppercase claims extractionId assertion.query with
    | none => ([.ask assertion.code], none)
    | some (.error e) => ([.ask assertion.code], some (.error e))
    | some (.ok rows) =>
      let asked := askAll rest
      (.ask assertion.code :: asked.1, asked.2.map fun results => results.map (⟨assertion.code, isViolation rows⟩ :: ·))

/-- `map(..).transpose()?`: what is not configured is not run. -/
def runOptional {α : Type} : Option (List GateCall × Option (Except String α)) →
    List GateCall × Option (Except String (Option α))
  | none => ([], some (.ok none))
  | some (calls, result) => (calls, result.map fun answer => answer.map some)

/-- The judge is asked, and answers. -/
def askJudge (judge : Except String JudgeReport) : List GateCall × Option (Except String JudgeReport) :=
  ([.judge], some judge)

/-- The end of `evaluate`, on what the assertions and the sidecar answered. -/
def conclude (request : QualityGateRequest) (judge : Option (Except String JudgeReport)) (ask : List AskResult)
    (pyshacl : Option Value) : List GateCall × Option (Except String QualityGateReport) :=
  let askPassed := ask.all fun result => !result.violation
  let shaclPassed := ((pyshacl.bind fun report => report.get "conforms").bind Value.asBool).getD true
  let deterministicPassed := askPassed && shaclPassed
  let judged := runOptional (if deterministicPassed then judge.map askJudge else none)
  (judged.1, judged.2.map fun answer => answer.map fun judge =>
    let judgePassed := (judge.map fun report => decide (report.verdict = .approve)).getD true
    let passed := deterministicPassed && judgePassed
    { extractionId
      policyVersion := request.policyVersion
      arbitration := request.arbitration
      ask
      pyshacl
      judge
      deterministicPassed
      passed
      reviewStatus := if passed then "pending_review" else "blocked"
      productionWrite := false })

def evaluate (request : QualityGateRequest) (judge : Option (Except String JudgeReport)) :
    List GateCall × Option (Except String QualityGateReport) :=
  match validateRequest request with
  | .error e => ([], some (.error e))
  | .ok () =>
    match askAll toUppercase kg claims extractionId request.assertions with
    | (asked, none) => (asked, none)
    | (asked, some (.error e)) => (asked, some (.error e))
    | (asked, some (.ok ask)) =>
      let askPassed := ask.all fun result => !result.violation
      match runOptional (if askPassed then
          request.pyshaclShapesTtl.map (runPyshacl kg claims extractionId sidecar) else none) with
      | (ran, none) => (asked ++ ran, none)
      | (ran, some (.error e)) => (asked ++ ran, some (.error e))
      | (ran, some (.ok pyshacl)) =>
        let ended := conclude extractionId request judge ask pyshacl
        (asked ++ ran ++ ended.1, ended.2)

end

def applyJudge (report : QualityGateReport) (judge : JudgeReport) : QualityGateReport :=
  if report.deterministicPassed then
    let passed := decide (judge.verdict = .approve)
    { report with
      passed
      reviewStatus := if passed then "pending_review" else "blocked"
      judge := some judge }
  else report

/-! ### The assertions -/

variable {shapes : String} {value : Value}

section

variable (toUppercase : List Char → List Char) (kg : KnowledgeGraphStore) (claims : IsolationClaims)
  (extractionId : String) (sidecar : Sidecar)

/-- The store answers the assertion's query with an `ASK` result that is false. -/
def AnsweredFalse (assertion : SparqlAskAssertion) : Prop :=
  ∃ final, stagingQuery toUppercase claims extractionId assertion.query = some (.ok final) ∧
    kg.query final = .ok (.boolean false)

variable {toUppercase kg claims extractionId} {assertion : SparqlAskAssertion}

theorem rows_of_answeredFalse (h : AnsweredFalse toUppercase kg claims extractionId assertion) :
    kg.queryStagingForClaims toUppercase claims extractionId assertion.query =
      some (.ok [.object [("result", .bool false)]]) := by
  obtain ⟨final, hfinal, hquery⟩ := h
  unfold KnowledgeGraphStore.queryStagingForClaims
  rw [hfinal, bind_some]
  simp only [hquery, QueryResults.rows]

/-- No violation is read but from an `ASK` that is answered with false. -/
theorem answeredFalse_of_isViolation {rows : List Value}
    (h : kg.queryStagingForClaims toUppercase claims extractionId assertion.query = some (.ok rows))
    (hviolation : isViolation rows = false) : AnsweredFalse toUppercase kg claims extractionId assertion := by
  have hresult : (rows.head?.bind fun row => (row.get "result").bind Value.asBool) = some false := by
    unfold isViolation at hviolation
    rw [Option.bind_assoc] at hviolation
    cases hb : rows.head?.bind fun row => (row.get "result").bind Value.asBool with
    | none =>
      rw [hb] at hviolation
      exact absurd hviolation (by decide)
    | some b =>
      rw [hb] at hviolation
      exact congrArg _ hviolation
  unfold KnowledgeGraphStore.queryStagingForClaims at h
  obtain ⟨asked, hasked, h⟩ := bind_eq_some_iff.1 h
  cases asked with
  | error e => exact (nomatch some.inj h)
  | ok final =>
    simp only at h
    cases hquery : kg.query final with
    | error e =>
      rw [hquery] at h
      exact (nomatch some.inj h)
    | ok results =>
      rw [hquery] at h
      exact ⟨final, hasked, hquery.trans (congrArg _ (boolean_of_rows h hresult))⟩

/-- Assertions that are all answered with false are asked to the last, and none is violated. -/
theorem askAll_of_answered : ∀ {assertions : List SparqlAskAssertion},
    (∀ assertion ∈ assertions, AnsweredFalse toUppercase kg claims extractionId assertion) →
      ∃ ask, (askAll toUppercase kg claims extractionId assertions).2 = some (.ok ask) ∧
        (ask.all fun result => !result.violation) = true := by
  intro assertions
  induction assertions with
  | nil => exact fun _ => ⟨[], rfl, rfl⟩
  | cons assertion rest ih =>
    intro h
    obtain ⟨ask, hask, hall⟩ := ih fun a ha => h a (mem_cons_of_mem _ ha)
    refine ⟨⟨assertion.code, false⟩ :: ask, ?_, ?_⟩
    · unfold askAll
      rw [rows_of_answeredFalse (h assertion mem_cons_self)]
      simp only [hask, map_some]
      rfl
    · rw [all_cons, hall]
      rfl

/-- Where no assertion is violated, all have been answered with false. -/
theorem answered_of_askAll : ∀ {assertions : List SparqlAskAssertion} {ask : List AskResult},
    (askAll toUppercase kg claims extractionId assertions).2 = some (.ok ask) →
      (ask.all fun result => !result.violation) = true →
        ∀ assertion ∈ assertions, AnsweredFalse toUppercase kg claims extractionId assertion := by
  intro assertions
  induction assertions with
  | nil => exact fun _ _ a ha => absurd ha not_mem_nil
  | cons assertion rest ih =>
    intro ask h hall a ha
    unfold askAll at h
    cases hrows : kg.queryStagingForClaims toUppercase claims extractionId assertion.query with
    | none =>
      rw [hrows] at h
      exact (nomatch h)
    | some answer =>
      cases answer with
      | error e =>
        rw [hrows] at h
        exact (nomatch some.inj h)
      | ok rows =>
        rw [hrows] at h
        obtain ⟨answered, hanswered, h⟩ := map_eq_some_iff.1 h
        cases answered with
        | error e => exact (nomatch h)
        | ok results =>
          cases h
          rw [all_cons, Bool.and_eq_true, Bool.not_eq_true'] at hall
          rcases mem_cons.1 ha with rfl | ha
          · exact answeredFalse_of_isViolation hrows hall.1
          · exact ih hanswered hall.2 a ha

/-- Asking logs nothing but assertions. -/
theorem eq_ask_of_mem_askAll : ∀ {assertions : List SparqlAskAssertion},
    ∀ call ∈ (askAll toUppercase kg claims extractionId assertions).1, ∃ code, call = .ask code := by
  intro assertions
  induction assertions with
  | nil => exact fun call h => absurd h not_mem_nil
  | cons assertion rest ih =>
    intro call h
    unfold askAll at h
    split at h
    · exact ⟨_, mem_singleton.1 h⟩
    · exact ⟨_, mem_singleton.1 h⟩
    · rcases mem_cons.1 h with rfl | h
      · exact ⟨_, rfl⟩
      · exact ih call h

/-! ### The sidecar -/

variable (kg claims extractionId)

/-- The command is run to its end, succeeds and prints the value. -/
def SidecarAnswers (shapes : String) (value : Value) : Prop :=
  ∃ command data stdout, sidecar.command = some command ∧
    ¬(trim command.toList = [] ∨ command.toList.any isWhitespace = true) ∧ sidecar.directory = .ok () ∧
    kg.stagingNtriplesForClaims claims extractionId = .ok data ∧ sidecar.writeData data = .ok () ∧
    sidecar.writeShapes shapes = .ok () ∧ sidecar.output command data shapes = .ok (stdout, true) ∧
    sidecar.fromSlice stdout = .ok value

variable {kg claims extractionId sidecar}

theorem runPyshacl_of_answers (h : SidecarAnswers kg claims extractionId sidecar shapes value) :
    runPyshacl kg claims extractionId sidecar shapes = ([.sidecar], some (.ok value)) := by
  obtain ⟨command, data, stdout, hcommand, hexe, hdir, hdata, hwrite, hshapes, houtput, hvalue⟩ := h
  unfold runPyshacl
  simp only [hcommand, if_neg hexe, hdir, hdata, hwrite, hshapes, houtput, sidecarReport, hvalue, if_true]

theorem get_denyConforms {value denied : Value} (h : denyConforms value = some denied) :
    denied.get "conforms" = some (.bool false) := by
  cases value with
  | null =>
    cases h
    rfl
  | object members =>
    obtain ⟨members', heq, hlookup⟩ := @get_setMember members "conforms" "conforms" (.bool false)
    obtain rfl := (some.inj h).symm.trans heq
    exact hlookup.trans (if_pos rfl)
  | bool b => exact (nomatch h)
  | number n => exact (nomatch h)
  | string s => exact (nomatch h)
  | array items => exact (nomatch h)

/-- A report is what a command that succeeded has printed, or says that the graph does not conform. -/
theorem runPyshacl_eq_ok (h : (runPyshacl kg claims extractionId sidecar shapes).2 = some (.ok value)) :
    SidecarAnswers kg claims extractionId sidecar shapes value ∨ value.get "conforms" = some (.bool false) := by
  unfold runPyshacl at h
  split at h
  next => exact (nomatch some.inj h)
  next command hcommand =>
    split_ifs at h with hexe
    · exact (nomatch some.inj h)
    · split at h
      next => exact (nomatch some.inj h)
      next hdir =>
        split at h
        next => exact (nomatch some.inj h)
        next data hdata =>
          split at h
          next => exact (nomatch some.inj h)
          next hwrite =>
            split at h
            next => exact (nomatch some.inj h)
            next hshapes =>
              split at h
              next => exact (nomatch some.inj h)
              next stdout success houtput =>
                simp only [sidecarReport] at h
                split at h
                next => exact (nomatch some.inj h)
                next report hreport =>
                  cases success with
                  | true =>
                    obtain rfl := Except.ok.inj (some.inj h)
                    exact .inl ⟨command, data, stdout, hcommand, hexe, hdir, hdata, hwrite, hshapes, houtput, hreport⟩
                  | false =>
                    obtain ⟨denied, hdenied, heq⟩ := map_eq_some_iff.1 h
                    cases heq
                    exact .inr (get_denyConforms hdenied)

theorem eq_sidecar_of_mem_runPyshacl :
    ∀ call ∈ (runPyshacl kg claims extractionId sidecar shapes).1, call = .sidecar := by
  intro call h
  unfold runPyshacl at h
  repeat' split at h
  all_goals first
    | exact absurd h not_mem_nil
    | exact mem_singleton.1 h

end

/-! ### The gate fails closed -/

section

variable (toUppercase : List Char → List Char) (kg : KnowledgeGraphStore) (claims : IsolationClaims)
  (extractionId : String) (sidecar : Sidecar) (request : QualityGateRequest)
  (judge : Option (Except String JudgeReport))

/-- Every assertion has been answered with false. -/
def Asserted : Prop := ∀ assertion ∈ request.assertions, AnsweredFalse toUppercase kg claims extractionId assertion

/-- The sidecar, if shapes are given, has reported that the graph conforms. -/
def Conforms : Prop :=
  ∀ shapes, request.pyshaclShapesTtl = some shapes →
    ∃ value, (runPyshacl kg claims extractionId sidecar shapes).2 = some (.ok value) ∧
      value.get "conforms" = some (.bool true)

/-- The gate passes on complete evidence only, asks for it in its order, and no judge undoes what the assertions
and the sidecar have found. -/
structure FailsClosed : Prop where
  passed : ∀ report, (evaluate toUppercase kg claims extractionId sidecar request judge).2 = some (.ok report) →
    report.passed = true → Asserted toUppercase kg claims extractionId request ∧
      Conforms kg claims extractionId sidecar request ∧
      ∀ answer, judge = some answer → ∃ verdict, answer = .ok verdict ∧ verdict.verdict = .approve
  sidecar_after : .sidecar ∈ (evaluate toUppercase kg claims extractionId sidecar request judge).1 →
    Asserted toUppercase kg claims extractionId request
  judge_after : .judge ∈ (evaluate toUppercase kg claims extractionId sidecar request judge).1 →
    Asserted toUppercase kg claims extractionId request ∧ Conforms kg claims extractionId sidecar request
  blocked : ∀ report (judges : List JudgeReport),
    (evaluate toUppercase kg claims extractionId sidecar request judge).2 = some (.ok report) →
      report.deterministicPassed = false →
        (judges.foldl applyJudge report).passed = false ∧ (judges.foldl applyJudge report).reviewStatus = "blocked"
  stays : ∀ (report : QualityGateReport) (judges : List JudgeReport), report.deterministicPassed = false →
    judges.foldl applyJudge report = report

variable {toUppercase kg claims extractionId sidecar request judge}

/-- What stands in the way of the end of `evaluate`, or that it is reached. -/
theorem evaluate_cases :
    ((∀ report, (evaluate toUppercase kg claims extractionId sidecar request judge).2 ≠ some (.ok report)) ∧
      .judge ∉ (evaluate toUppercase kg claims extractionId sidecar request judge).1 ∧
      (.sidecar ∈ (evaluate toUppercase kg claims extractionId sidecar request judge).1 →
        Asserted toUppercase kg claims extractionId request)) ∨
    ∃ asked ask ran pyshacl, validateRequest request = .ok () ∧ .judge ∉ asked ++ ran ∧
      (.sidecar ∈ asked ++ ran → Asserted toUppercase kg claims extractionId request) ∧
      askAll toUppercase kg claims extractionId request.assertions = (asked, some (.ok ask)) ∧
      runOptional (if ask.all (fun result => !result.violation) then
        request.pyshaclShapesTtl.map (runPyshacl kg claims extractionId sidecar) else none) =
          (ran, some (.ok pyshacl)) ∧
      evaluate toUppercase kg claims extractionId sidecar request judge =
        (asked ++ ran ++ (conclude extractionId request judge ask pyshacl).1,
          (conclude extractionId request judge ask pyshacl).2) := by
  have hasks : ∀ {call}, call ∈ (askAll toUppercase kg claims extractionId request.assertions).1 →
      ∃ code, call = .ask code := fun h => eq_ask_of_mem_askAll _ h
  cases hvalid : validateRequest request with
  | error e =>
    refine .inl ?_
    unfold evaluate
    rw [hvalid]
    exact ⟨fun _ h => (nomatch some.inj h), not_mem_nil, fun h => absurd h not_mem_nil⟩
  | ok _ =>
    cases hask : askAll toUppercase kg claims extractionId request.assertions with | mk asked answer
    rw [hask] at hasks
    have hnot : ∀ call, (∀ code, call ≠ .ask code) → call ∉ asked := by
      intro call hne hin
      obtain ⟨code, rfl⟩ := hasks hin
      exact hne code rfl
    have hjudge : .judge ∉ asked := hnot _ fun code => (nomatch ·)
    have hsidecar : .sidecar ∉ asked := hnot _ fun code => (nomatch ·)
    match answer with
    | none =>
      refine .inl ?_
      unfold evaluate
      rw [hvalid, hask]
      exact ⟨fun _ h => (nomatch h), hjudge, fun h => absurd h hsidecar⟩
    | some (.error e) =>
      refine .inl ?_
      unfold evaluate
      rw [hvalid, hask]
      exact ⟨fun _ h => (nomatch some.inj h), hjudge, fun h => absurd h hsidecar⟩
    | some (.ok ask) =>
      cases hrun : runOptional (if ask.all (fun result => !result.violation) then
        request.pyshaclShapesTtl.map (runPyshacl kg claims extractionId sidecar) else none) with | mk ran ended
      have hran : ∀ call ∈ ran, call = .sidecar ∧ Asserted toUppercase kg claims extractionId request := by
        intro call hcall
        split_ifs at hrun with hall
        · refine ⟨?_, answered_of_askAll (congrArg Prod.snd hask) hall⟩
          cases hshapes : request.pyshaclShapesTtl with
          | none =>
            rw [hshapes] at hrun
            rw [← (Prod.mk.inj hrun).1] at hcall
            exact absurd hcall not_mem_nil
          | some shapes =>
            rw [hshapes] at hrun
            rw [← (Prod.mk.inj hrun).1] at hcall
            exact eq_sidecar_of_mem_runPyshacl call hcall
        · rw [← (Prod.mk.inj hrun).1] at hcall
          exact absurd hcall not_mem_nil
      have hnojudge : .judge ∉ asked ++ ran := by
        intro hin
        rcases mem_append.1 hin with hin | hin
        · exact hjudge hin
        · exact (nomatch (hran _ hin).1)
      have hasserted : .sidecar ∈ asked ++ ran → Asserted toUppercase kg claims extractionId request := by
        intro hin
        rcases mem_append.1 hin with hin | hin
        · exact absurd hin hsidecar
        · exact (hran _ hin).2
      match ended with
      | none =>
        refine .inl ?_
        unfold evaluate
        simp only [hvalid, hask, hrun]
        exact ⟨fun _ h => (nomatch h), hnojudge, hasserted⟩
      | some (.error e) =>
        refine .inl ?_
        unfold evaluate
        simp only [hvalid, hask, hrun]
        exact ⟨fun _ h => (nomatch some.inj h), hnojudge, hasserted⟩
      | some (.ok pyshacl) =>
        refine .inr ⟨asked, ask, ran, pyshacl, rfl, hnojudge, hasserted, rfl, hrun, ?_⟩
        unfold evaluate
        simp only [hvalid, hask, hrun]

/-- What the end of `evaluate` takes for deterministic evidence. -/
def deterministic (ask : List AskResult) (pyshacl : Option Value) : Bool :=
  (ask.all fun result => !result.violation) &&
    ((pyshacl.bind fun report => report.get "conforms").bind Value.asBool).getD true

variable {pyshacl : Option Value} {ask : List AskResult}

theorem judge_mem_conclude : .judge ∈ (conclude extractionId request judge ask pyshacl).1 ↔
      deterministic ask pyshacl = true ∧ judge.isSome = true := by
  unfold conclude
  change GateCall.judge ∈ (runOptional (if deterministic ask pyshacl = true then judge.map askJudge else none)).1 ↔ _
  cases deterministic ask pyshacl <;> cases judge <;> simp [runOptional, askJudge]

theorem sidecar_notMem_conclude : .sidecar ∉ (conclude extractionId request judge ask pyshacl).1 := by
  unfold conclude
  change GateCall.sidecar ∉ (runOptional (if deterministic ask pyshacl = true then judge.map askJudge else none)).1
  cases deterministic ask pyshacl <;> cases judge <;> simp [runOptional, askJudge]

variable {report : QualityGateReport}

/-- The report on deterministic evidence: what there is of it decides, unless the judge does not approve. -/
theorem conclude_eq_ok (h : (conclude extractionId request judge ask pyshacl).2 = some (.ok report)) :
    report.deterministicPassed = deterministic ask pyshacl ∧
      (report.passed = true → deterministic ask pyshacl = true ∧
        ∀ answer, judge = some answer → ∃ verdict, answer = .ok verdict ∧ verdict.verdict = .approve) ∧
      (deterministic ask pyshacl = false → report.passed = false ∧ report.reviewStatus = "blocked") := by
  unfold conclude at h
  obtain ⟨answer, hanswer, h⟩ := map_eq_some_iff.1 h
  change (runOptional (if deterministic ask pyshacl = true then judge.map askJudge else none)).2 = some answer
    at hanswer
  cases answer with
  | error e => exact (nomatch h)
  | ok judged =>
    cases h
    refine ⟨rfl, fun hpassed => ?_, fun hfalse => ?_⟩
    · obtain ⟨hdet, hjudged⟩ := Bool.and_eq_true_iff.1 hpassed
      change deterministic ask pyshacl = true at hdet
      refine ⟨hdet, ?_⟩
      rintro answer rfl
      rw [if_pos hdet] at hanswer
      cases answer with
      | error e => exact (nomatch some.inj hanswer)
      | ok verdict =>
        obtain rfl := Except.ok.inj (some.inj hanswer)
        exact ⟨verdict, rfl, of_decide_eq_true hjudged⟩
    · have hpassed : ∀ b, (deterministic ask pyshacl && b) = false := by
        intro b
        rw [hfalse, Bool.false_and]
      exact ⟨hpassed _, if_neg (by rw [Bool.not_eq_true]; exact hpassed _)⟩

theorem foldl_applyJudge (h : report.deterministicPassed = false) :
    ∀ judges : List JudgeReport, judges.foldl applyJudge report = report
  | [] => rfl
  | judge :: judges => by
    have hstep : applyJudge report judge = report := if_neg (by rw [h]; decide)
    rw [foldl_cons, hstep, foldl_applyJudge h judges]

/-- Deterministic evidence is evidence, where a sidecar that succeeds says whether the graph conforms. -/
theorem evidence_of_deterministic (himplies : Asserted toUppercase kg claims extractionId request →
      ∀ shapes value, request.pyshaclShapesTtl = some shapes →
        SidecarAnswers kg claims extractionId sidecar shapes value → ∃ b, value.get "conforms" = some (.bool b))
    {asked ran : List GateCall}
    (hask : askAll toUppercase kg claims extractionId request.assertions = (asked, some (.ok ask)))
    (hrun : runOptional (if ask.all (fun result => !result.violation) then
      request.pyshaclShapesTtl.map (runPyshacl kg claims extractionId sidecar) else none) = (ran, some (.ok pyshacl)))
    (hdet : deterministic ask pyshacl = true) :
    Asserted toUppercase kg claims extractionId request ∧ Conforms kg claims extractionId sidecar request := by
  obtain ⟨hall, hshacl⟩ := Bool.and_eq_true_iff.1 hdet
  have hasserted : Asserted toUppercase kg claims extractionId request :=
    answered_of_askAll (congrArg Prod.snd hask) hall
  refine ⟨hasserted, ?_⟩
  intro shapes hshapes
  rw [if_pos hall, hshapes] at hrun
  obtain ⟨answer, hanswer, hsome⟩ := map_eq_some_iff.1 (congrArg Prod.snd hrun)
  cases answer with
  | error e => exact (nomatch hsome)
  | ok value =>
    obtain rfl := (Except.ok.inj hsome).symm
    refine ⟨value, hanswer, ?_⟩
    obtain ⟨b, hb⟩ : ∃ b, value.get "conforms" = some (.bool b) := by
      rcases runPyshacl_eq_ok hanswer with hanswers | hdenied
      · exact himplies hasserted shapes value hshapes hanswers
      · exact ⟨false, hdenied⟩
    rw [bind_some, hb] at hshacl
    rw [hb]
    exact congrArg (some ∘ Value.bool) hshacl

/-- A sidecar that succeeds without saying whether the graph conforms opens the gate, or brings in the judge. -/
theorem conforms_of_failsClosed (hclosed : FailsClosed toUppercase kg claims extractionId sidecar request judge)
    (hvalid : validateRequest request = .ok ()) (hasserted : Asserted toUppercase kg claims extractionId request)
    (hshapes : request.pyshaclShapesTtl = some shapes)
    (hanswers : SidecarAnswers kg claims extractionId sidecar shapes value) :
    ∃ b, value.get "conforms" = some (.bool b) := by
  by_contra hno
  have hnot : ¬Conforms kg claims extractionId sidecar request := by
    intro hconforms
    obtain ⟨value', hvalue', htrue⟩ := hconforms shapes hshapes
    rw [runPyshacl_of_answers hanswers] at hvalue'
    obtain rfl := Except.ok.inj (some.inj hvalue')
    exact hno ⟨true, htrue⟩
  obtain ⟨ask, hask, hall⟩ := askAll_of_answered hasserted
  cases hasked : askAll toUppercase kg claims extractionId request.assertions with | mk asked answer
  rw [hasked] at hask
  obtain rfl : answer = some (.ok ask) := hask
  have hevaluate : evaluate toUppercase kg claims extractionId sidecar request judge =
      (asked ++ [.sidecar] ++ (conclude extractionId request judge ask (some value)).1,
        (conclude extractionId request judge ask (some value)).2) := by
    unfold evaluate
    simp only [hvalid, hasked, if_pos hall, hshapes, map_some, runPyshacl_of_answers hanswers, runOptional, Except.map]
  have hnone : (value.get "conforms").bind Value.asBool = none := by
    cases hget : value.get "conforms" with
    | none => rfl
    | some member =>
      cases member with
      | bool b => exact absurd ⟨b, hget⟩ hno
      | null => rfl
      | number n => rfl
      | string s => rfl
      | array items => rfl
      | object members => rfl
  have hdet : deterministic ask (some value) = true := by
    unfold deterministic
    rw [hall, bind_some, hnone]
    rfl
  -- Nothing but a judge can now keep the gate from passing, and it is asked.
  cases hjudge : judge with
  | some answer =>
    refine hnot (hclosed.judge_after ?_).2
    rw [hevaluate]
    exact mem_append_right _ (judge_mem_conclude.2 ⟨hdet, hjudge ▸ rfl⟩)
  | none =>
    subst hjudge
    cases hended : (conclude extractionId request none ask (some value)).2 with
    | none => simp [conclude, runOptional] at hended
    | some ended =>
      cases ended with
      | error e => simp [conclude, runOptional, Except.map] at hended
      | ok report =>
        have hpassed : report.passed = true := by
          unfold conclude at hended
          change (runOptional (if deterministic ask (some value) = true then none else none)).2.map _ = _ at hended
          rw [ite_self] at hended
          obtain rfl := Except.ok.inj (some.inj hended)
          change (deterministic ask (some value) && true) = true
          rw [hdet]
          rfl
        exact hnot (hclosed.passed report (by rw [hevaluate]; exact hended) hpassed).2.1

/-- The gate fails closed exactly when a sidecar that succeeds, asked about a graph whose assertions all hold, says in
its report whether the graph conforms. -/
theorem failsClosed_iff :
    FailsClosed toUppercase kg claims extractionId sidecar request judge ↔
      (validateRequest request = .ok () → Asserted toUppercase kg claims extractionId request →
        ∀ shapes value, request.pyshaclShapesTtl = some shapes →
          SidecarAnswers kg claims extractionId sidecar shapes value →
            ∃ b, value.get "conforms" = some (.bool b)) := by
  constructor
  · intro hclosed hvalid hasserted shapes value hshapes hanswers
    exact conforms_of_failsClosed hclosed hvalid hasserted hshapes hanswers
  · intro himplies
    rcases @evaluate_cases toUppercase kg claims extractionId sidecar request judge with
      ⟨hnone, hjudge, hsidecar⟩ | ⟨asked, ask, ran, pyshacl, hvalid, hjudge, hsidecar, hask, hrun, hevaluate⟩
    · exact
        { passed := fun report h => absurd h (hnone report)
          sidecar_after := hsidecar
          judge_after := fun h => absurd h hjudge
          blocked := fun report _ h => absurd h (hnone report)
          stays := fun _ judges h => foldl_applyJudge h judges }
    · have hevidence := evidence_of_deterministic (himplies hvalid) hask hrun
      exact
        { passed := by
            intro report hreport hpassed
            rw [hevaluate] at hreport
            obtain ⟨hdet, happroved⟩ := (conclude_eq_ok hreport).2.1 hpassed
            exact ⟨(hevidence hdet).1, (hevidence hdet).2, happroved⟩
          sidecar_after := by
            intro hin
            rw [hevaluate] at hin
            exact hsidecar ((mem_append.1 hin).resolve_right sidecar_notMem_conclude)
          judge_after := by
            intro hin
            rw [hevaluate] at hin
            exact hevidence (judge_mem_conclude.1 ((mem_append.1 hin).resolve_left hjudge)).1
          blocked := by
            intro report judges hreport hfalse
            rw [hevaluate] at hreport
            obtain ⟨hdet, -, hblocked⟩ := conclude_eq_ok hreport
            rw [foldl_applyJudge hfalse judges]
            exact hblocked (hdet.symm.trans hfalse)
          stays := fun _ judges h => foldl_applyJudge h judges }

end

/-! ### A sidecar that does not say -/

def someClaims : IsolationClaims := ⟨"tenant", "project", "actor", by decide, by decide, by decide⟩

def emptyGraph : KnowledgeGraphStore := ⟨fun _ => .ok (.boolean false), []⟩

def shapesRequest : QualityGateRequest := ⟨[], "kg-quality-gate/v1", .compliance, some ""⟩

/-- The command succeeds and prints `\x7b\x7d`. -/
def silentSidecar : Sidecar where
  command := some "pyshacl"
  directory := .ok ()
  writeData := fun _ => .ok ()
  writeShapes := fun _ => .ok ()
  output := fun _ _ _ => .ok ([0x7b, 0x7d], true)
  fromSlice := fun bytes => if bytes = [0x7b, 0x7d] then .ok (.object []) else .error "expected value"

theorem silentSidecar_answers : SidecarAnswers emptyGraph someClaims "extract1" silentSidecar "" (.object []) :=
  ⟨"pyshacl", "", [0x7b, 0x7d], rfl, by decide, rfl, rfl, rfl, rfl, rfl, rfl⟩

/-- The gate passes on a report that does not say whether the graph conforms. -/
theorem not_failsClosed_silent : ¬FailsClosed id emptyGraph someClaims "extract1" silentSidecar shapesRequest none := by
  intro hclosed
  obtain ⟨b, hb⟩ := conforms_of_failsClosed hclosed rfl (fun _ h => absurd h not_mem_nil) rfl
    silentSidecar_answers
  exact (nomatch hb)

end WildAgentOs.KnowledgeGraph
