import WildAgentOs.Llm.Sse

/-!
# What the events of a stream keep

A chunk of a chat-completions stream gives one event, that of the first of its members: content,
reasoning, tool calls, finish reason, usage.  What stands behind that member is not read, and of
several tool calls only the first is; a usage without a finish reason takes an earlier finish reason
back.

* `Chunk`, `Decoded`, `NothingHidden`;
* `accumulate_step`: one frame; `decodeFrames_eq`: all frames;
* `decoded_iff`.
-/

namespace WildAgentOs.Llm

open Text Json List Option

/-! ### Chunks -/

/-- A tool-call delta. -/
structure Call where
  index : ℕ
  id : Option String
  name : Option String
  arguments : Option String
  deriving DecidableEq

/-- What a chunk carries. -/
structure Chunk where
  content : String
  reasoning : String
  calls : List Call
  finishReason : Option String
  usage : Option Usage
  deriving DecidableEq

def Call.ofJson (tc : Value) : Call where
  index := (((tc.get "index").bind Value.asU64).getD 0).toNat
  id := strOf tc "id"
  name := (tc.get "function").bind (strOf · "name")
  arguments := (tc.get "function").bind (strOf · "arguments")

/-- The choice of a chunk, if it has one. -/
def choiceOf (json : Value) : Option Value := ((json.get "choices").bind Value.asArray).bind List.head?

def deltaOf (json : Value) : Option Value := (choiceOf json).bind (·.get "delta")

def callsOf (json : Value) : List Call :=
  ((((deltaOf json).bind (·.get "tool_calls")).bind Value.asArray).getD []).map Call.ofJson

def Chunk.ofJson (lib : SerdeJson) (json : Value) : Chunk where
  content := ((deltaOf json).bind (strOf · "content")).getD ""
  reasoning := ((deltaOf json).bind (strOf · "reasoning_content")).getD ""
  calls := callsOf json
  finishReason := ((choiceOf json).bind (strOf · "finish_reason")).filter (· ≠ "")
  usage := usageOf lib json

/-- A chunk of the choice `i`.  The last chunk of a stream may have no choice. -/
structure IsChunk (i : UInt32) (json : Value) : Prop where
  not_ping : strOf json "type" ≠ some "ping"
  not_response : ¬ "response.".toList <+: ((strOf json "type").getD "").toList
  choices : ∃ choices, json.get "choices" = some (.array choices) ∧ choices.length ≤ 1
  index : ∀ choice, choiceOf json = some choice → indexOf choice "index" = i
  call_index : ∀ call ∈ callsOf json, call.index < UInt32.size

/-- The lines of a frame, as `parse_frame` reads them. -/
def frameLines (frame : List Char) : FrameLines := (lines (trim frame)).foldl FrameLines.read {}

/-- The frame of a chunk: its data is the JSON text of the chunk. -/
structure IsChunkFrame (lib : SerdeJson) (i : UInt32) (frame : List Char) (json : Value) : Prop where
  not_ping : (frameLines frame).eventName ≠ some "ping".toList
  data : (frameLines frame).dataLines ≠ []
  not_done : List.intercalate ['\n'] (frameLines frame).dataLines ≠ "[DONE]".toList
  parsed : lib.fromStr (List.intercalate ['\n'] (frameLines frame).dataLines) = some json
  chunk : IsChunk i json

/-- One frame of a stream: parsed, and its event processed. -/
def accumulate (lib : SerdeJson) (acc : StreamAccumulator) (frame : List Char) : StreamAccumulator :=
  match parseFrame lib frame with
  | .ok (some event) => acc.processEvent event
  | _ => acc

def decodeFrames (lib : SerdeJson) (frames : List (List Char)) : StreamAccumulator := frames.foldl (accumulate lib) {}

/-! ### What is carried, and what is shown -/

/-- The last value that the elements have. -/
def lastSome {α β : Type*} (f : α → Option β) (xs : List α) : Option β := (xs.filterMap f).getLast?

/-- The deltas of one tool call. -/
def callsAt (index : ℕ) (calls : List Call) : List Call := calls.filter (·.index = index)

/-- The argument fragments, one after the other. -/
def argumentsOf (calls : List Call) : String := String.join (calls.map (·.arguments.getD ""))

/-- The accumulator holds all that the chunks carry. -/
structure Decoded (acc : StreamAccumulator) (chunks : List Chunk) : Prop where
  text : acc.getText = String.join (chunks.map Chunk.content)
  arguments : ∀ index, (acc.toolCall index).arguments = argumentsOf (callsAt index (chunks.flatMap Chunk.calls))
  id : ∀ index, (acc.toolCall index).id = (lastSome Call.id (callsAt index (chunks.flatMap Chunk.calls))).getD ""
  name : ∀ index, (acc.toolCall index).name = (lastSome Call.name (callsAt index (chunks.flatMap Chunk.calls))).getD ""
  finishReason : acc.finishReason = lastSome Chunk.finishReason chunks
  usage : acc.usage = lastSome Chunk.usage chunks

namespace Chunk

/-- No text stands in front of the tool calls. -/
def silent (c : Chunk) : Bool := c.content = "" && c.reasoning = ""

/-- Nothing stands in front of the finish reason. -/
def quiet (c : Chunk) : Bool := c.silent && c.calls = []

def shownCalls (c : Chunk) : List Call := if c.silent then c.calls.take 1 else []

def hiddenCalls (c : Chunk) : List Call := if c.silent then c.calls.drop 1 else c.calls

/-- The chunk sets the finish reason, maybe to none. -/
def setsFinish (c : Chunk) : Bool := c.quiet && (c.finishReason.isSome || c.usage.isSome)

theorem shownCalls_append_hiddenCalls (c : Chunk) : c.shownCalls ++ c.hiddenCalls = c.calls := by
  unfold shownCalls hiddenCalls
  split_ifs
  · exact take_append_drop 1 c.calls
  · rfl

end Chunk

/-- No chunk hides an argument fragment, and the last id, name, finish reason and usage that are
carried are also the last that are shown. -/
structure NothingHidden (chunks : List Chunk) : Prop where
  arguments : ∀ c ∈ chunks, ∀ call ∈ c.hiddenCalls, call.arguments.getD "" = ""
  id : ∀ index, (lastSome Call.id (callsAt index (chunks.flatMap Chunk.shownCalls))).getD "" =
    (lastSome Call.id (callsAt index (chunks.flatMap Chunk.calls))).getD ""
  name : ∀ index, (lastSome Call.name (callsAt index (chunks.flatMap Chunk.shownCalls))).getD "" =
    (lastSome Call.name (callsAt index (chunks.flatMap Chunk.calls))).getD ""
  finishReason : (chunks.filter Chunk.setsFinish).getLast?.bind Chunk.finishReason = lastSome Chunk.finishReason chunks
  usage : lastSome Chunk.usage (chunks.filter Chunk.quiet) = lastSome Chunk.usage chunks

/-! ### One frame -/

theorem filter_ne_empty (s : Option String) :
    s.filter (· ≠ "") = if s.getD "" = "" then none else some (s.getD "") := by
  cases s with
  | none => rfl
  | some s => by_cases h : s = "" <;> simp [Option.filter, h]

/-- The event of a delta, by what the chunk carries. -/
theorem deltaEvent_eq (i : UInt32) (delta : Value) : deltaEvent i delta = if (strOf delta "content").getD "" ≠ "" then
        some (.contentBlockDelta i (.textDelta ((strOf delta "content").getD "")))
      else if (strOf delta "reasoning_content").getD "" ≠ "" then
        some (.contentBlockDelta i (.thinkingDelta ((strOf delta "reasoning_content").getD "")))
      else (((delta.get "tool_calls").bind Value.asArray).bind List.head?).map toolCallEvent := by
  unfold deltaEvent
  rw [filter_ne_empty, filter_ne_empty]
  by_cases hcontent : (strOf delta "content").getD "" = ""
  · by_cases hreasoning : (strOf delta "reasoning_content").getD "" = ""
    · simp [hcontent, hreasoning]
    · simp [hcontent, hreasoning]
  · simp [hcontent]

/-- What a frame does to the accumulator, by what its chunk carries. -/
structure Step (i : UInt32) (c : Chunk) (acc acc' : StreamAccumulator) : Prop where
  text : ∀ j, acc'.textBlocks.getD j "" =
    if j = i.toNat then acc.textBlocks.getD j "" ++ c.content else acc.textBlocks.getD j ""
  toolCall : ∀ index, acc'.toolCall index =
    (callsAt index c.shownCalls).foldl (fun tc call => tc.extend call.id call.name call.arguments)
      (acc.toolCall index)
  finishReason : acc'.finishReason = if c.setsFinish then c.finishReason else acc.finishReason
  usage : acc'.usage = if c.quiet then c.usage.or acc.usage else acc.usage

variable {calls : List Call}

section Step

variable {lib : SerdeJson} {i : UInt32} {json : Value} {c : Chunk} {acc : StreamAccumulator}

/-- An event that shows nothing, of a chunk that has nothing to show. -/
theorem Step.refl (hcontent : c.content = "") (hcalls : c.shownCalls = [])
    (hfinish : c.setsFinish = false) (husage : c.quiet = true → c.usage = none) :
    Step i c acc acc where
  text := by
    intro j
    rw [hcontent, String.append_empty, ite_self]
  toolCall := by
    intro index
    rw [hcalls]
    rfl
  finishReason := by simp [hfinish]
  usage := by
    split_ifs with hquiet
    · rw [husage hquiet]
      rfl
    · rfl

theorem Step.text_delta (hcontent : c.content ≠ "") :
    Step i c acc (acc.processEvent (.contentBlockDelta i (.textDelta c.content))) where
  text := by
    intro j
    show (growModify "" acc.textBlocks i.toNat (· ++ c.content)).getD j "" = _
    rw [getD_growModify]
    split_ifs with hj
    · rw [hj]
    · rfl
  toolCall := by
    intro index
    simp [Chunk.shownCalls, Chunk.silent, hcontent, callsAt, StreamAccumulator.processEvent, StreamAccumulator.toolCall]
  finishReason := by
    simp [Chunk.setsFinish, Chunk.quiet, Chunk.silent, hcontent, StreamAccumulator.processEvent]
  usage := by simp [Chunk.quiet, Chunk.silent, hcontent, StreamAccumulator.processEvent]

theorem Step.thinking_delta (hcontent : c.content = "") (hreasoning : c.reasoning ≠ "") :
    Step i c acc (acc.processEvent (.contentBlockDelta i (.thinkingDelta c.reasoning))) where
  text := by
    intro j
    rw [hcontent, String.append_empty, ite_self]
    rfl
  toolCall := by
    intro index
    simp [Chunk.shownCalls, Chunk.silent, hreasoning, callsAt, StreamAccumulator.processEvent,
      StreamAccumulator.toolCall]
  finishReason := by
    simp [Chunk.setsFinish, Chunk.quiet, Chunk.silent, hreasoning, StreamAccumulator.processEvent]
  usage := by simp [Chunk.quiet, Chunk.silent, hreasoning, StreamAccumulator.processEvent]

/-- The first tool call of a chunk. -/
theorem Step.tool_call (hsilent : c.silent = true) {call : Call}
    (hcalls : c.calls = call :: calls) {index : UInt32} (hindex : index.toNat = call.index) :
    Step i c acc (acc.processEvent (.contentBlockDelta index (.toolCallDelta call.id call.name call.arguments))) where
  text := by
    intro j
    have hcontent : c.content = "" := by
      unfold Chunk.silent at hsilent
      simpa using (Bool.and_eq_true_iff.1 hsilent).1
    rw [hcontent, String.append_empty, ite_self]
    rfl
  toolCall := by
    intro k
    have hshown : c.shownCalls = [call] := by
      unfold Chunk.shownCalls
      rw [if_pos hsilent, hcalls]
      rfl
    show (growModify {} acc.toolCalls index.toNat _).getD k {} = _
    rw [getD_growModify, hindex, hshown]
    unfold callsAt
    by_cases hk : k = call.index
    · subst hk
      simp [StreamAccumulator.toolCall]
    · have hne : ¬ call.index = k := fun h => hk h.symm
      simp [hk, hne, StreamAccumulator.toolCall]
  finishReason := by
    simp [Chunk.setsFinish, Chunk.quiet, hcalls, StreamAccumulator.processEvent]
  usage := by simp [Chunk.quiet, hcalls, StreamAccumulator.processEvent]

/-- A finish reason, or a usage on its own, which takes the finish reason back. -/
theorem Step.message_delta (hquiet : c.quiet = true) (hsets : (c.finishReason.isSome || c.usage.isSome) = true) :
    Step i c acc (acc.processEvent (.messageDelta c.finishReason c.usage)) where
  text := by
    intro j
    have hcontent : c.content = "" := by
      simp only [Chunk.quiet, Chunk.silent, Bool.and_eq_true, decide_eq_true_eq] at hquiet
      exact hquiet.1.1
    rw [hcontent, String.append_empty, ite_self]
    rfl
  toolCall := by
    intro index
    have hcalls : c.calls = [] := by
      simp only [Chunk.quiet, Bool.and_eq_true, decide_eq_true_eq] at hquiet
      exact hquiet.2
    simp [Chunk.shownCalls, hcalls, callsAt, StreamAccumulator.processEvent, StreamAccumulator.toolCall]
  finishReason := by simp [Chunk.setsFinish, hquiet, hsets, StreamAccumulator.processEvent]
  usage := by simp [hquiet, StreamAccumulator.processEvent]

theorem Step.message_start (h : Step i c acc acc) (id model : Option String) (role : String) :
    Step i c acc (acc.processEvent (.messageStart id model role)) where
  text := h.text
  toolCall := h.toolCall
  finishReason := h.finishReason
  usage := h.usage

/-- The accumulator after an event, if there is one. -/
def StreamAccumulator.after (acc : StreamAccumulator) (event : Option StreamEvent) : StreamAccumulator :=
  event.elim acc acc.processEvent

/-- A chunk whose usage comes last. -/
theorem step_usage (hquiet : (Chunk.ofJson lib json).quiet = true)
    (hfinish : (Chunk.ofJson lib json).finishReason = none) {usage : Usage} (husage : usageOf lib json = some usage) :
    Step i (Chunk.ofJson lib json) acc (acc.after (some (.messageDelta none (some usage)))) := by
  have hdelta : Step i (Chunk.ofJson lib json) acc (acc.processEvent
      (.messageDelta (Chunk.ofJson lib json).finishReason (Chunk.ofJson lib json).usage)) := by
    refine Step.message_delta hquiet ?_
    simp [Chunk.ofJson, husage]
  rw [hfinish, show (Chunk.ofJson lib json).usage = some usage from husage] at hdelta
  exact hdelta

/-- A chunk that carries nothing at all. -/
theorem step_nothing (i : UInt32) (acc : StreamAccumulator) (hquiet : (Chunk.ofJson lib json).quiet = true)
    (hfinish : (Chunk.ofJson lib json).finishReason = none) (husage : usageOf lib json = none) :
    Step i (Chunk.ofJson lib json) acc acc := by
  have husage' : (Chunk.ofJson lib json).usage = none := husage
  simp only [Chunk.quiet, Chunk.silent, Bool.and_eq_true, decide_eq_true_eq] at hquiet
  refine Step.refl hquiet.1.1 ?_ ?_ fun _ => husage
  · simp [Chunk.shownCalls, hquiet.2]
  · simp [Chunk.setsFinish, hfinish, husage']

theorem step_chunkEvent (hquiet : (Chunk.ofJson lib json).quiet = true)
    (hfinish : (Chunk.ofJson lib json).finishReason = none) :
    Step i (Chunk.ofJson lib json) acc (acc.after (chunkEvent lib json)) := by
  unfold chunkEvent
  cases husage : usageOf lib json with
  | some usage => exact step_usage hquiet hfinish husage
  | none =>
    have hnothing := step_nothing i acc hquiet hfinish husage
    cases strOf json "id" with
    | none => exact hnothing
    | some id => exact hnothing.message_start (some id) (strOf json "model") "assistant"

variable {choice : Value}

/-- A chunk with nothing in front of its finish reason. -/
theorem step_finish (hchoice : choiceOf json = some choice) (hquiet : (Chunk.ofJson lib json).quiet = true) :
    Step i (Chunk.ofJson lib json) acc (acc.after
      (match ((strOf choice "finish_reason").filter (· ≠ "")).map fun finishReason =>
          StreamEvent.messageDelta (some finishReason) (usageOf lib json) with
      | some event => some event
      | none => chunkEvent lib json)) := by
  have hreason : (Chunk.ofJson lib json).finishReason = (strOf choice "finish_reason").filter (· ≠ "") := by
    simp only [Chunk.ofJson, hchoice, bind_some]
  cases hfinish : (strOf choice "finish_reason").filter (· ≠ "") with
  | none => exact step_chunkEvent hquiet (hreason.trans hfinish)
  | some finishReason =>
    have hdelta : Step i (Chunk.ofJson lib json) acc (acc.processEvent
        (.messageDelta (Chunk.ofJson lib json).finishReason (Chunk.ofJson lib json).usage)) := by
      refine Step.message_delta hquiet ?_
      rw [hreason, hfinish]
      rfl
    rw [hreason, hfinish] at hdelta
    exact hdelta

/-- The index of a call that fits its type. -/
theorem indexOf_toNat {tc : Value} (h : (Call.ofJson tc).index < UInt32.size) :
    (indexOf tc "index").toNat = (Call.ofJson tc).index := by
  unfold Call.ofJson at h ⊢
  unfold indexOf
  simp only at h ⊢
  rw [UInt64.toNat_toUInt32, Nat.mod_eq_of_lt h]

theorem step_choice (lib : SerdeJson) (acc : StreamAccumulator)
    (h : IsChunk i json) (hchoice : choiceOf json = some choice) :
    Step i (Chunk.ofJson lib json) acc (acc.after (match choiceEvent lib json choice with
      | some event => some event
      | none => chunkEvent lib json)) := by
  have hdelta : deltaOf json = choice.get "delta" := by
    simp only [deltaOf, hchoice, bind_some]
  unfold choiceEvent
  rw [h.index choice hchoice]
  cases hget : choice.get "delta" with
  | none =>
    rw [hget] at hdelta
    refine step_finish hchoice ?_
    simp [Chunk.quiet, Chunk.silent, Chunk.ofJson, callsOf, hdelta]
  | some delta =>
    rw [hget] at hdelta
    have hcontent : (Chunk.ofJson lib json).content = (strOf delta "content").getD "" := by
      simp only [Chunk.ofJson, hdelta, bind_some]
    have hreasoning : (Chunk.ofJson lib json).reasoning = (strOf delta "reasoning_content").getD "" := by
      simp only [Chunk.ofJson, hdelta, bind_some]
    have hcalls : (Chunk.ofJson lib json).calls =
        (((delta.get "tool_calls").bind Value.asArray).getD []).map Call.ofJson := by
      simp only [Chunk.ofJson, callsOf, hdelta, bind_some]
    rw [bind_some, deltaEvent_eq, ← hcontent, ← hreasoning]
    -- The first member that is there decides.
    by_cases hc : (Chunk.ofJson lib json).content = ""
    · rw [if_neg (not_not.2 hc)]
      by_cases hr : (Chunk.ofJson lib json).reasoning = ""
      · rw [if_neg (not_not.2 hr)]
        cases hitems : (delta.get "tool_calls").bind Value.asArray with
        | none =>
          rw [hitems] at hcalls
          refine step_finish hchoice ?_
          simp [Chunk.quiet, Chunk.silent, hc, hr, hcalls]
        | some items =>
          rw [hitems] at hcalls
          cases items with
          | nil =>
            refine step_finish hchoice ?_
            simp [Chunk.quiet, Chunk.silent, hc, hr, hcalls]
          | cons tc items =>
            have hindex : (indexOf tc "index").toNat = (Call.ofJson tc).index := by
              refine indexOf_toNat (h.call_index _ ?_)
              have hmem : callsOf json = (Chunk.ofJson lib json).calls := rfl
              rw [hmem, hcalls]
              exact mem_cons_self
            refine Step.tool_call ?_ hcalls hindex
            simp [Chunk.silent, hc, hr]
      · rw [if_pos hr]
        exact Step.thinking_delta hc hr
    · rw [if_pos hc]
      exact Step.text_delta hc

/-- **One chunk.** -/
theorem step_parse (lib : SerdeJson) (acc : StreamAccumulator) (h : IsChunk i json) :
    ∃ event, parseOpenaiStreamEvent lib json = .ok event ∧ Step i (Chunk.ofJson lib json) acc (acc.after event) := by
  obtain ⟨choices, hchoices, hlen⟩ := h.choices
  have htype : (strOf json "type").getD "" ≠ "ping" := by
    have hping := h.not_ping
    cases htype : strOf json "type" with
    | none => decide
    | some t =>
      rw [htype] at hping
      exact fun ht => hping (congrArg some ht)
  have harray : (json.get "choices").bind Value.asArray = some choices := by
    rw [hchoices]
    rfl
  unfold parseOpenaiStreamEvent
  rw [if_neg htype, harray]
  cases choices with
  | nil =>
    have hnone : choiceOf json = none := by
      simp [choiceOf, harray]
    have hquiet : (Chunk.ofJson lib json).quiet = true := by
      simp [Chunk.quiet, Chunk.silent, Chunk.ofJson, callsOf, deltaOf, hnone]
    have hfinish : (Chunk.ofJson lib json).finishReason = none := by
      simp [Chunk.ofJson, hnone]
    refine ⟨_, rfl, ?_⟩
    cases husage : usageOf lib json with
    | none => exact step_nothing _ _ hquiet hfinish husage
    | some usage => exact step_usage hquiet hfinish husage
  | cons choice choices =>
    have hsome : choiceOf json = some choice := by
      simp [choiceOf, harray]
    have hstep := step_choice lib acc h hsome
    cases hevent : choiceEvent lib json choice with
    | none =>
      rw [hevent] at hstep
      simp only
      rw [hevent]
      exact ⟨_, rfl, hstep⟩
    | some event =>
      rw [hevent] at hstep
      simp only
      rw [hevent]
      exact ⟨_, rfl, hstep⟩

/-- **One frame.** -/
theorem accumulate_step {frame : List Char} (h : IsChunkFrame lib i frame json) :
    Step i (Chunk.ofJson lib json) acc (accumulate lib acc frame) := by
  have htrim : trim frame ≠ [] := by
    intro hnil
    refine h.data ?_
    unfold frameLines
    rw [hnil]
    rfl
  obtain ⟨event, hevent, hstep⟩ := step_parse lib acc h.chunk
  have hparse : parseFrame lib frame = .ok event := by
    have hping := h.not_ping
    have hdata := h.data
    have hdone := h.not_done
    have hparsed := h.parsed
    unfold frameLines at hping hdata hdone hparsed
    unfold parseFrame
    simp only
    rw [if_neg htrim, if_neg hping, if_neg hdata, if_neg hdone, hparsed]
    simp only
    rw [if_neg h.chunk.not_response, hevent]
  unfold accumulate
  rw [hparse]
  cases event with
  | none => exact hstep
  | some event => exact hstep

end Step

/-! ### All frames -/

/-- What frames do to the accumulator, by what their chunks carry. -/
structure Run (i : UInt32) (chunks : List Chunk) (acc acc' : StreamAccumulator) : Prop where
  text : ∀ j, acc'.textBlocks.getD j "" =
    if j = i.toNat then acc.textBlocks.getD j "" ++ String.join (chunks.map Chunk.content)
    else acc.textBlocks.getD j ""
  toolCall : ∀ index, acc'.toolCall index =
    (callsAt index (chunks.flatMap Chunk.shownCalls)).foldl
      (fun tc call => tc.extend call.id call.name call.arguments) (acc.toolCall index)
  finishReason : acc'.finishReason =
    ((chunks.filter Chunk.setsFinish).getLast?.map Chunk.finishReason).getD acc.finishReason
  usage : acc'.usage = (lastSome Chunk.usage (chunks.filter Chunk.quiet)).or acc.usage

section Run

variable {lib : SerdeJson} {i : UInt32}

theorem lastSome_cons {α β : Type*} (f : α → Option β) (x : α) (xs : List α) :
    lastSome f (x :: xs) = (lastSome f xs).or (f x) := by
  unfold lastSome
  rw [filterMap_cons]
  cases f x with
  | none => rw [or_none]
  | some b =>
    rw [getLast?_cons]
    cases (List.filterMap f xs).getLast? <;> rfl

variable {chunks : List Chunk}

theorem Run.cons {c : Chunk} {acc acc₁ acc' : StreamAccumulator}
    (hstep : Step i c acc acc₁) (hrun : Run i chunks acc₁ acc') : Run i (c :: chunks) acc acc' where
  text := by
    intro j
    rw [hrun.text, hstep.text]
    split_ifs
    · rw [map_cons, String.join_cons, String.append_assoc]
    · rfl
  toolCall := by
    intro index
    rw [hrun.toolCall, hstep.toolCall, flatMap_cons, callsAt, callsAt, callsAt, filter_append, foldl_append]
  finishReason := by
    rw [hrun.finishReason, hstep.finishReason, filter_cons]
    split_ifs with hsets
    · rw [getLast?_cons]
      cases (List.filter Chunk.setsFinish chunks).getLast? <;> rfl
    · rfl
  usage := by
    rw [hrun.usage, hstep.usage, filter_cons]
    split_ifs with hquiet
    · rw [lastSome_cons, Option.or_assoc]
    · rfl

variable {frames : List (List Char)} {jsons : List Value}

/-- **All frames of a stream.** -/
theorem run_foldl (h : List.Forall₂ (IsChunkFrame lib i) frames jsons)
    (acc : StreamAccumulator) : Run i (jsons.map (Chunk.ofJson lib)) acc (frames.foldl (accumulate lib) acc) := by
  induction h generalizing acc with
  | nil =>
    refine ⟨fun j => ?_, fun index => rfl, rfl, rfl⟩
    rw [map_nil, map_nil, String.join_nil, String.append_empty, ite_self]
    rfl
  | cons hframe hframes ih => exact Run.cons (accumulate_step hframe) (ih _)

/-- The joined blocks, when all but one are empty. -/
theorem join_eq_getD {blocks : List String} {k : ℕ} (h : ∀ j, j ≠ k → blocks.getD j "" = "") :
    String.join blocks = blocks.getD k "" := by
  induction blocks generalizing k with
  | nil => rfl
  | cons b blocks ih =>
    rw [String.join_cons]
    cases k with
    | zero =>
      have hrest : String.join blocks = blocks.getD blocks.length "" := ih fun j _ => h (j + 1) (Nat.succ_ne_zero j)
      have hend : blocks.getD blocks.length "" = "" := by simp
      rw [hrest, hend, String.append_empty]
      rfl
    | succ k =>
      have hb : b = "" := h 0 (Nat.succ_ne_zero k).symm
      rw [ih fun j hj => h (j + 1) fun heq => hj (Nat.succ.inj heq), hb, String.empty_append]
      rfl

/-- A tool call after its deltas. -/
theorem foldl_extend (calls : List Call) (tc : ToolCallState) :
    calls.foldl (fun tc call => tc.extend call.id call.name call.arguments) tc =
      { id := (lastSome Call.id calls).getD tc.id
        name := (lastSome Call.name calls).getD tc.name
        arguments := tc.arguments ++ argumentsOf calls } := by
  induction calls generalizing tc with
  | nil =>
    show tc = ⟨tc.id, tc.name, tc.arguments ++ ""⟩
    rw [String.append_empty]
  | cons call calls ih =>
    rw [foldl_cons, ih, lastSome_cons, lastSome_cons]
    unfold argumentsOf
    rw [map_cons, String.join_cons]
    congr 1
    · cases lastSome Call.id calls <;> rfl
    · cases lastSome Call.name calls <;> rfl
    · exact String.append_assoc

/-- **What a stream leaves in the accumulator.** -/
theorem decodeFrames_eq (h : List.Forall₂ (IsChunkFrame lib i) frames jsons)
    (hchunks : chunks = jsons.map (Chunk.ofJson lib)) :
    (decodeFrames lib frames).getText = String.join (chunks.map Chunk.content) ∧
      (∀ index, (decodeFrames lib frames).toolCall index =
        { id := (lastSome Call.id (callsAt index (chunks.flatMap Chunk.shownCalls))).getD ""
          name := (lastSome Call.name (callsAt index (chunks.flatMap Chunk.shownCalls))).getD ""
          arguments := argumentsOf (callsAt index (chunks.flatMap Chunk.shownCalls)) }) ∧
      (decodeFrames lib frames).finishReason = (chunks.filter Chunk.setsFinish).getLast?.bind Chunk.finishReason ∧
      (decodeFrames lib frames).usage = lastSome Chunk.usage (chunks.filter Chunk.quiet) := by
  have hrun := run_foldl h {}
  rw [← hchunks] at hrun
  change Run i chunks {} (decodeFrames lib frames) at hrun
  refine ⟨?_, fun index => ?_, ?_, ?_⟩
  · unfold StreamAccumulator.getText
    rw [join_eq_getD (k := i.toNat) fun j hj => by rw [hrun.text, if_neg hj]; rfl, hrun.text,
      if_pos rfl]
    exact String.empty_append
  · rw [hrun.toolCall, foldl_extend]
    have hempty : ("" : String) ++ argumentsOf (callsAt index (chunks.flatMap Chunk.shownCalls)) =
        argumentsOf (callsAt index (chunks.flatMap Chunk.shownCalls)) := String.empty_append
    rw [← hempty]
    rfl
  · rw [hrun.finishReason]
    cases (List.filter Chunk.setsFinish chunks).getLast? <;> rfl
  · rw [hrun.usage]
    exact or_none

theorem argumentsOf_append (index : ℕ) (xs ys : List Call) :
    argumentsOf (callsAt index (xs ++ ys)) = argumentsOf (callsAt index xs) ++ argumentsOf (callsAt index ys) := by
  unfold argumentsOf callsAt
  rw [filter_append, map_append, String.join_append]

/-- Shown and hidden fragments together are as long as the carried ones. -/
theorem length_argumentsOf (index : ℕ) (chunks : List Chunk) :
    (argumentsOf (callsAt index (chunks.flatMap Chunk.calls))).length =
      (argumentsOf (callsAt index (chunks.flatMap Chunk.shownCalls))).length +
        (argumentsOf (callsAt index (chunks.flatMap Chunk.hiddenCalls))).length := by
  induction chunks with
  | nil => rfl
  | cons c chunks ih =>
    rw [flatMap_cons, flatMap_cons, flatMap_cons, argumentsOf_append,
      argumentsOf_append, argumentsOf_append, ← c.shownCalls_append_hiddenCalls, argumentsOf_append]
    simp only [String.length_append]
    omega

theorem join_eq_empty_iff {parts : List String} : String.join parts = "" ↔ ∀ s ∈ parts, s = "" := by
  induction parts with
  | nil => simp
  | cons s parts ih => simp [String.join_cons, ih]

/-- The fragments of a list, all empty. -/
theorem argumentsOf_eq_empty_iff : argumentsOf calls = "" ↔ ∀ call ∈ calls, call.arguments.getD "" = "" := by
  unfold argumentsOf
  rw [join_eq_empty_iff, List.forall_mem_map]

/-- The shown fragments are the carried ones exactly if the hidden ones are empty. -/
theorem argumentsOf_shown_iff : (∀ index, argumentsOf (callsAt index (chunks.flatMap Chunk.shownCalls)) =
        argumentsOf (callsAt index (chunks.flatMap Chunk.calls))) ↔
      ∀ c ∈ chunks, ∀ call ∈ c.hiddenCalls, call.arguments.getD "" = "" := by
  constructor
  · intro h c hc call hcall
    have hlen := length_argumentsOf call.index chunks
    rw [h call.index] at hlen
    have hempty : argumentsOf (callsAt call.index (chunks.flatMap Chunk.hiddenCalls)) = "" :=
      String.length_eq_zero_iff.1 (by omega)
    refine argumentsOf_eq_empty_iff.1 hempty call ?_
    refine mem_filter.2 ⟨mem_flatMap.2 ⟨c, hc, hcall⟩, ?_⟩
    exact decide_eq_true rfl
  · intro h index
    induction chunks with
    | nil => rfl
    | cons c chunks ih =>
      have hhidden : argumentsOf (callsAt index c.hiddenCalls) = "" :=
        argumentsOf_eq_empty_iff.2 fun call hcall =>
          h c mem_cons_self call (mem_filter.1 hcall).1
      rw [flatMap_cons, flatMap_cons, argumentsOf_append, argumentsOf_append,
        ← c.shownCalls_append_hiddenCalls, argumentsOf_append, hhidden, String.append_empty,
        ih fun c' hc' => h c' (mem_cons_of_mem c hc')]

/-- **Nothing is lost exactly if nothing is hidden.** -/
theorem decoded_iff {frames : List (List Char)} {jsons : List Value}
    (h : List.Forall₂ (IsChunkFrame lib i) frames jsons) :
    Decoded (decodeFrames lib frames) (jsons.map (Chunk.ofJson lib)) ↔
      NothingHidden (jsons.map (Chunk.ofJson lib)) := by
  obtain ⟨htext, hcall, hfinish, husage⟩ := decodeFrames_eq h rfl
  generalize jsons.map (Chunk.ofJson lib) = chunks at htext hcall hfinish husage ⊢
  constructor
  · intro hdecoded
    refine ⟨argumentsOf_shown_iff.1 fun index => ?_, fun index => ?_, fun index => ?_, ?_, ?_⟩
    · rw [← hdecoded.arguments index, hcall]
    · rw [← hdecoded.id index, hcall]
    · rw [← hdecoded.name index, hcall]
    · rw [← hfinish, hdecoded.finishReason]
    · rw [← husage, hdecoded.usage]
  · intro hhidden
    refine ⟨htext, fun index => ?_, fun index => ?_, fun index => ?_, ?_, ?_⟩
    · rw [hcall]
      exact argumentsOf_shown_iff.2 hhidden.arguments index
    · rw [hcall]
      exact hhidden.id index
    · rw [hcall]
      exact hhidden.name index
    · rw [hfinish, hhidden.finishReason]
    · rw [husage, hhidden.usage]

end Run

/-! ### A finish reason behind content -/

/-- The payload of a chunk with the given members of its choice. -/
def sampleText (members : String) : List Char := ("\x7b\"choices\":[\x7b\"index\":0," ++ members ++ "\x7d]\x7d").toList

def sampleJson (members : List (String × Value)) : Value :=
  .object [("choices", .array [.object (("index", .number (.posInt 0)) :: members)])]

/-- A reader of one text. -/
def readsOnly (text : List Char) (json : Value) : SerdeJson where
  fromStr := fun s => if s = text then some json else none
  asF64 := fun _ => none

/-- `"delta":{"content":"a"},"finish_reason":"stop"`: the last chunk of an answer that comes in one
chunk. -/
def wholeAnswer : String := "\"delta\":\x7b\"content\":\"a\"\x7d,\"finish_reason\":\"stop\""

def wholeAnswerJson : Value :=
  sampleJson [("delta", .object [("content", .string "a")]), ("finish_reason", .string "stop")]

def dataFrame (text : List Char) : List Char := "data: ".toList ++ text

theorem isChunkFrame_dataFrame {text : List Char} {json : Value}
    (hlines : (frameLines (dataFrame text)).dataLines = [text])
    (hname : (frameLines (dataFrame text)).eventName = none)
    (hdone : text ≠ "[DONE]".toList) {i : UInt32} (hchunk : IsChunk i json) :
    IsChunkFrame (readsOnly text json) i (dataFrame text) json := by
  have hpayload : List.intercalate ['\n'] (frameLines (dataFrame text)).dataLines = text := by
    rw [hlines, intercalate_singleton]
  refine ⟨?_, ?_, ?_, ?_, hchunk⟩
  · rw [hname]
    exact (some_ne_none _).symm
  · rw [hlines]
    exact cons_ne_nil _ _
  · rw [hpayload]
    exact hdone
  · rw [hpayload]
    exact if_pos rfl

theorem isChunkFrame_wholeAnswer : IsChunkFrame (readsOnly (sampleText wholeAnswer) wholeAnswerJson) 0
      (dataFrame (sampleText wholeAnswer)) wholeAnswerJson := by
  refine isChunkFrame_dataFrame (by decide +kernel) (by decide +kernel) (by decide +kernel) ?_
  refine ⟨by decide, by decide, ⟨_, rfl, by decide⟩, ?_, ?_⟩
  · intro choice hchoice
    cases hchoice
    decide
  · intro call hcall
    cases hcall

/-- A finish reason on a chunk with content is lost. -/
theorem not_decoded_wholeAnswer : ∃ (lib : SerdeJson) (frames : List (List Char)) (jsons : List Value),
      List.Forall₂ (IsChunkFrame lib 0) frames jsons ∧
        ¬ Decoded (decodeFrames lib frames) (jsons.map (Chunk.ofJson lib)) := by
  refine ⟨readsOnly (sampleText wholeAnswer) wholeAnswerJson, [dataFrame (sampleText wholeAnswer)], [wholeAnswerJson],
    .cons isChunkFrame_wholeAnswer .nil, ?_⟩
  intro hdecoded
  have hacc : (decodeFrames (readsOnly (sampleText wholeAnswer) wholeAnswerJson)
      [dataFrame (sampleText wholeAnswer)]).finishReason = none := by
    decide +kernel
  have hcarried := hdecoded.finishReason
  rw [hacc] at hcarried
  exact absurd hcarried (by decide +kernel)

/-- The theorem at the one chunk of that answer: it hides its finish reason. -/
theorem decoded_iff_wholeAnswer : ∃ (lib : SerdeJson) (frames : List (List Char)) (chunks : List Chunk),
      ¬ NothingHidden chunks ∧ (Decoded (decodeFrames lib frames) chunks ↔ NothingHidden chunks) := by
  refine ⟨_, _, _, ?_, decoded_iff (.cons isChunkFrame_wholeAnswer .nil)⟩
  intro h
  have hfinish := h.finishReason
  exact absurd hfinish (by decide +kernel)

end WildAgentOs.Llm
