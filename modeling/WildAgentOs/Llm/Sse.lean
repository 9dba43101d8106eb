import WildAgentOs.Lib.Text
import WildAgentOs.Llm.StreamTypes

/-!
# Server-sent events

`llm/sse.rs` up to the usage blocks: `SseParser`, `parse_frame` and the two event parsers.  A text
is the list of its characters.  The JSON reader is a parameter; the log line of a payload that is
no JSON is left out.

* `SseParser.push`, `SseParser.finish`, `parseFrame`, `parseOpenaiStreamEvent`, `parseResponsesApiEvent`.
-/

namespace WildAgentOs.Llm

open LittleEndian Text Json

/-- What is used of `serde_json`: `from_str`, and `as_f64` of a number. -/
structure SerdeJson where
  fromStr : List Char → Option Value
  asF64 : Number → Option F64

structure SseError where
  message : String
  deriving DecidableEq

/-! ### Usage blocks -/

/-- `u32::try_from`. -/
def u32TryFrom (n : UInt64) : Option UInt32 := if n.toNat < UInt32.size then some n.toUInt32 else none

/-- `u32::checked_add`. -/
def u32CheckedAdd (a b : UInt32) : Option UInt32 := if a.toNat + b.toNat < UInt32.size then some (a + b) else none

/-- The closure `tokens` of `reported_token_counts`. -/
def tokens (usage : Value) (key : String) : Option UInt32 := ((usage.get key).bind Value.asU64).bind u32TryFrom

def reportedTokenCounts (usage : Value) (inputKey outputKey : String) : Option (UInt32 × UInt32 × UInt32) := do
  let input ← tokens usage inputKey
  let output ← tokens usage outputKey
  let total ←
    match usage.get "total_tokens" with
    | none | some .null => u32CheckedAdd input output
    | some _ => tokens usage "total_tokens"
  return (input, output, total)

/-- `is_finite`, and not below zero. -/
def isCost (cost : F64) : Bool := decide (cost.magnitude < 0x7FF0000000000000) && !cost.lt ⟨0⟩

def reportedCostUsd (lib : SerdeJson) (usage : Value) : Option F64 :=
  match usage.get "cost" with
  | some (.number n) => (lib.asF64 n).filter isCost
  | _ => none

/-- `cached_prompt_tokens`: the count is cut to 32 bits. -/
def cachedPromptTokens (usage : Value) : Option UInt32 :=
  ((((usage.get "prompt_tokens_details").bind (·.get "cached_tokens")).bind Value.asU64).or
    ((usage.get "cache_read_input_tokens").bind Value.asU64)).map (·.toUInt32)

/-- The two usage blocks differ in the names of their counts. -/
def usageBlock (lib : SerdeJson) (inputKey outputKey : String) (usage : Value) : Option Usage :=
  (reportedTokenCounts usage inputKey outputKey).map fun (promptTokens, completionTokens, totalTokens) =>
    { promptTokens, completionTokens, totalTokens
      cachedPromptTokens := cachedPromptTokens usage
      costUsd := reportedCostUsd lib usage }

def chatChunkUsage (lib : SerdeJson) : Value → Option Usage := usageBlock lib "prompt_tokens" "completion_tokens"

def responsesUsage (lib : SerdeJson) : Value → Option Usage := usageBlock lib "input_tokens" "output_tokens"

/-! ### Events -/

/-- `json.get(key).and_then(as_str)`. -/
def strOf (json : Value) (key : String) : Option String := (json.get key).bind Value.asStr

/-- `json.get(key).and_then(as_u64).unwrap_or(0) as u32`. -/
def indexOf (json : Value) (key : String) : UInt32 := (((json.get key).bind Value.asU64).getD 0).toUInt32

/-- The usage of a chunk. -/
def usageOf (lib : SerdeJson) (json : Value) : Option Usage := (json.get "usage").bind (chatChunkUsage lib)

/-- The first tool call of a delta. -/
def toolCallEvent (tc : Value) : StreamEvent :=
  let function := tc.get "function"
  .contentBlockDelta (indexOf tc "index")
    (.toolCallDelta (strOf tc "id") (function.bind (strOf · "name")) (function.bind (strOf · "arguments")))

/-- The event of the `delta` member: the first of its members that is there. -/
def deltaEvent (index : UInt32) (delta : Value) : Option StreamEvent :=
  match (strOf delta "content").filter (· ≠ "") with
  | some content => some (.contentBlockDelta index (.textDelta content))
  | none =>
    match (strOf delta "reasoning_content").filter (· ≠ "") with
    | some reasoning => some (.contentBlockDelta index (.thinkingDelta reasoning))
    | none =>
      (((delta.get "tool_calls").bind Value.asArray).bind List.head?).map toolCallEvent

def choiceEvent (lib : SerdeJson) (json choice : Value) : Option StreamEvent :=
  match (choice.get "delta").bind (deltaEvent (indexOf choice "index")) with
  | some event => some event
  | none =>
    -- Some upstreams put the usage block on the finish chunk itself.
    ((strOf choice "finish_reason").filter (· ≠ "")).map fun finishReason =>
      .messageDelta (some finishReason) (usageOf lib json)

/-- What is left when no choice gave an event. -/
def chunkEvent (lib : SerdeJson) (json : Value) : Option StreamEvent :=
  match usageOf lib json with
  | some usage => some (.messageDelta none (some usage))
  | none => (strOf json "id").map fun id => .messageStart (some id) (strOf json "model") "assistant"

def parseOpenaiStreamEvent (lib : SerdeJson) (json : Value) : Except SseError (Option StreamEvent) :=
  if (strOf json "type").getD "" = "ping" then .ok none
  else
    match (json.get "choices").bind Value.asArray with
    | none => .ok (chunkEvent lib json)
    -- `stream_options.include_usage` delivers usage with an empty `choices` array.
    | some [] => .ok ((usageOf lib json).map fun usage => .messageDelta none (some usage))
    | some (choice :: _) =>
      match choiceEvent lib json choice with
      | some event => .ok (some event)
      | none => .ok (chunkEvent lib json)

/-- The finish reason of a status; `has_tool_calls` tells whether the output holds a call. -/
def finishReasonOf (status : String) (hasToolCalls : Bool) : String :=
  if status = "completed" then if hasToolCalls then "tool_calls" else "stop"
  else if status = "incomplete" then "length"
  else "error"

/-- A call item of a response. -/
def isCallItem (item : Value) : Bool :=
  strOf item "type" = some "function_call" || strOf item "type" = some "custom_tool_call"

/-- A delta of the Responses API: nothing for an empty text. -/
def responsesDelta (json : Value) (event : String → StreamEvent) : Option StreamEvent :=
  let delta := (strOf json "delta").getD ""
  if delta = "" then none else some (event delta)

def parseResponsesApiEvent (lib : SerdeJson) (json : Value) : Except SseError (Option StreamEvent) :=
  let eventType := (strOf json "type").getD ""
  let index := indexOf json "output_index"
  if eventType = "response.created" then
    let response := json.get "response"
    .ok (some (.messageStart (response.bind (strOf · "id")) (response.bind (strOf · "model")) "assistant"))
  else if eventType = "response.output_item.added" then
    let item := json.get "item"
    if item.any isCallItem then
      let id := ((item.bind (·.get "call_id")).or (item.bind (·.get "id"))).bind Value.asStr
      .ok (some (.contentBlockStart index (.toolUse (id.getD "") ((item.bind (strOf · "name")).getD ""))))
    else .ok none
  else if eventType = "response.output_text.delta" then
    .ok (responsesDelta json fun delta => .contentBlockDelta index (.textDelta delta))
  else if eventType = "response.reasoning_text.delta" then
    .ok (responsesDelta json fun delta => .contentBlockDelta 0 (.thinkingDelta delta))
  else if eventType = "response.function_call_arguments.delta" ∨
      eventType = "response.custom_tool_call_input.delta" then
    .ok (responsesDelta json fun delta =>
      .contentBlockDelta index (.toolCallDelta none none (some delta)))
  else if eventType = "response.completed" ∨ eventType = "response.incomplete" ∨ eventType = "response.failed" then
    let response := json.get "response"
    -- `trim_start_matches` takes the text off as often as it stands there.
    let status := (response.bind (strOf · "status")).getD
      (String.ofList (trimStartMatches "response.".toList eventType.length eventType.toList))
    let hasToolCalls := ((response.bind (·.get "output")).bind Value.asArray).any (·.any isCallItem)
    .ok (some (.messageDelta (some (finishReasonOf status hasToolCalls))
      ((response.bind (·.get "usage")).bind (responsesUsage lib))))
  else .ok none

/-! ### Frames -/

/-- What the lines of a frame have given so far. -/
structure FrameLines where
  dataLines : List (List Char) := []
  eventName : Option (List Char) := none

/-- One line of a frame. -/
def FrameLines.read (f : FrameLines) (line : List Char) : FrameLines :=
  if line.head? = some ':' then f
  else
    match stripStart "event:".toList line with
    | some name => { f with eventName := some (trim name) }
    | none =>
      match stripStart "data:".toList line with
      | some data => { f with dataLines := f.dataLines ++ [trimStart data] }
      | none => f

def parseFrame (lib : SerdeJson) (frame : List Char) : Except SseError (Option StreamEvent) :=
  let trimmed := trim frame
  if trimmed = [] then .ok none
  else
    let f := (lines trimmed).foldl FrameLines.read {}
    if f.eventName = some "ping".toList then .ok none
    else if f.dataLines = [] then .ok none
    else
      let payload := List.intercalate ['\n'] f.dataLines
      if payload = "[DONE]".toList then .ok none
      else
        match lib.fromStr payload with
        -- A payload that is no JSON is logged and dropped.
        | none => .ok none
        | some json =>
          if "response.".toList <+: ((strOf json "type").getD "").toList then
            parseResponsesApiEvent lib json
          else parseOpenaiStreamEvent lib json

/-! ### The parser -/

def CR : UInt8 := 13

def LF : UInt8 := 10

def MAX_SSE_BUFFER_BYTES : ℕ := 1048576

structure SseParser where
  buffer : Bytes := []
  deriving DecidableEq

/-- The loop of `normalize_crlf_from`: the buffer is read at `read` and written at `write`. -/
def normalizeLoop (limit : ℕ) : ℕ → Bytes → ℕ → ℕ → Bytes × ℕ
  | 0, buffer, _, write => (buffer, write)
  | fuel + 1, buffer, read, write =>
    if read < limit then
      if buffer.getD read 0 = CR ∧ read + 1 < limit ∧ buffer.getD (read + 1) 0 = LF then
        normalizeLoop limit fuel (buffer.set write LF) (read + 2) (write + 1)
      else
        normalizeLoop limit fuel
          (if write ≠ read then buffer.set write (buffer.getD read 0) else buffer)
          (read + 1) (write + 1)
    else (buffer, write)

/-- `normalize_crlf_from`.  A carriage return at the end may be half of a line end, and stays. -/
def normalizeCrlfFrom (buffer : Bytes) (start : ℕ) : Bytes :=
  let limit := if buffer.getLast? = some CR then buffer.length - 1 else buffer.length
  if limit ≤ start then buffer
  else
    let (buffer, write) := normalizeLoop limit (limit - start) buffer start start
    -- `copy_within(limit.., write)` and `truncate(write + tail)`.
    if write ≠ limit then buffer.take write ++ buffer.drop limit else buffer

/-- The first place of `"\n\n"`: `windows(2).position`. -/
def blankLine : Bytes → Option ℕ
  | [] => none
  | b :: bs => if b = LF ∧ bs.head? = some LF then some 0 else (blankLine bs).map (· + 1)

/-- `next_frame`: the text of the first frame, and the buffer behind it. -/
def nextFrame (buffer : Bytes) : Option (List Char × Bytes) :=
  (blankLine buffer).map fun position =>
    (fromUtf8Lossy (buffer.take position), buffer.drop (position + 2))

/-- The loop of `push`: an error of `parse_frame` leaves the frames behind it in the buffer. -/
def drainFrames (lib : SerdeJson) : ℕ → Bytes → List StreamEvent → Except SseError (List StreamEvent) × Bytes
  | 0, buffer, events => (.ok events, buffer)
  | fuel + 1, buffer, events =>
    match nextFrame buffer with
    | none => (.ok events, buffer)
    | some (frame, buffer) =>
      match parseFrame lib frame with
      | .error e => (.error e, buffer)
      | .ok none => drainFrames lib fuel buffer events
      | .ok (some event) => drainFrames lib fuel buffer (events ++ [event])

namespace SseParser

def push (lib : SerdeJson) (p : SseParser) (chunk : Bytes) : Except SseError (List StreamEvent) × SseParser :=
  let start := if p.buffer.getLast? = some CR then p.buffer.length - 1 else p.buffer.length
  let buffer := normalizeCrlfFrom (p.buffer ++ chunk) start
  match drainFrames lib buffer.length buffer [] with
  | (.error e, buffer) => (.error e, { buffer })
  | (.ok events, buffer) =>
    if MAX_SSE_BUFFER_BYTES < buffer.length then
      (.error { message := "SSE buffer exceeded 1048576 bytes" }, { buffer := [] })
    else (.ok events, { buffer })

def finish (lib : SerdeJson) (p : SseParser) : Except SseError (List StreamEvent) :=
  if p.buffer = [] then .ok []
  else Option.toList <$> parseFrame lib (fromUtf8Lossy p.buffer)

end SseParser

end WildAgentOs.Llm
