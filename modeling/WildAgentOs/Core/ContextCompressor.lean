import WildAgentOs.Core.ChatMessage
import WildAgentOs.Memory.L0Store

/-!
# Compression of the history

`core/context_compressor.rs`: `ContextWindowManager`.  The product of a length and the ratio, and the order in
which a set of names is walked, are parameters.

* `estimateTokens`, `shouldCompress`;
* `adjustBoundaryForToolCalls`, `removeOrphanedToolMessages`, `summarizeMiddleMessages`;
* `compressMessages`, which panics where the slices are out of order;
* `summarizedCount`: how many messages of the middle are summarized.
-/

namespace WildAgentOs.Core

open Memory (F32)

/-- `(len as f32 * ratio) as usize`, and the order of a hash set. -/
structure CompressorEnv where
  scale : ℕ → F32 → ℕ
  toolOrder : List String → List String
  toolOrder_perm : ∀ names, (toolOrder names).Perm names

structure ContextWindowManager where
  maxMessages : ℕ
  maxTokens : ℕ
  compressionRatio : F32
  preserveRecent : ℕ

def isCjkChar (c : Char) : Bool :=
  (0x2E80 ≤ c.val ∧ c.val ≤ 0x9FFF) ∨ (0xAC00 ≤ c.val ∧ c.val ≤ 0xD7AF) ∨ (0xF900 ≤ c.val ∧ c.val ≤ 0xFAFF)

def estimateTextTokens (text : String) : ℕ :=
  text.toList.countP isCjkChar + ((text.toList.filter (!isCjkChar ·)).map Char.utf8Size).sum / 4

example : estimateTextTokens "你好世界" = 4 ∧ estimateTextTokens "Hello, world!" = 3 ∧
    estimateTextTokens "你好 world" = 3 := by decide

namespace ContextWindowManager

/-- The estimate for one message. -/
def messageTokens (m : ChatMessage) : ℕ :=
  estimateTextTokens m.content.asText + estimateTextTokens m.role +
    ((m.toolCalls.getD []).map fun call => estimateTextTokens call.function.name +
      estimateTextTokens call.function.arguments + estimateTextTokens call.id).sum +
    (m.toolCallId.map estimateTextTokens).getD 0

def estimateTokens (messages : List ChatMessage) : ℕ := (messages.map messageTokens).sum

def shouldCompress (cwm : ContextWindowManager) (messageCount : ℕ) (messages : List ChatMessage) : Bool :=
  if cwm.maxMessages < messageCount then true else decide (cwm.maxTokens < estimateTokens messages)

/-! ### Boundaries -/

/-- The message at an index makes the call. -/
def makesCall (messages : List ChatMessage) (id : String) (j : ℕ) : Bool :=
  (messages[j]?).any fun m => m.callIds.contains id

/-- `adjust_boundary_for_tool_calls`: a boundary before a tool message goes back to the last message with its
call. -/
def adjustBoundaryForToolCalls (messages : List ChatMessage) (boundary : ℕ) : ℕ :=
  match messages[boundary]? with
  | none => boundary
  | some m =>
    if boundary = 0 ∨ m.role ≠ "tool" then boundary
    else match m.toolCallId.filter (· ≠ "") with
      | none => boundary
      | some id => ((List.range boundary).reverse.find? (makesCall messages id)).getD boundary

/-! ### Orphans -/

/-- Whether a tool message answers none of the known calls. -/
def isOrphaned (known : List String) (m : ChatMessage) : Bool :=
  match m.toolCallId.filter (· ≠ "") with
  | some id => decide (id ∉ known)
  | none => true

/-- `remove_orphaned_tool_messages`, with the calls that are known. -/
def removeOrphanedFrom : List String → List ChatMessage → List ChatMessage
  | _, [] => []
  | known, m :: messages =>
    if m.role = "assistant" then m :: removeOrphanedFrom (known ++ m.callIds) messages
    else if m.role = "tool" then
      (if isOrphaned known m then m.asUser else m) :: removeOrphanedFrom known messages
    else m :: removeOrphanedFrom known messages

def removeOrphanedToolMessages (messages : List ChatMessage) : List ChatMessage := removeOrphanedFrom [] messages

/-! ### The summary -/

/-- The texts of assistants that a summary quotes. -/
def quotedTexts (messages : List ChatMessage) : List String :=
  (messages.filter fun m => m.role = "assistant").filterMap fun m =>
    if 50 < m.content.asText.utf8ByteSize ∧ m.content.asText.utf8ByteSize < 200 then some m.content.asText else none

/-- The texts of tools that report an error. -/
def errorTexts (messages : List ChatMessage) : List String :=
  (messages.filter fun m => m.role = "tool").filterMap fun m =>
    if "error".toList <:+: m.content.asText.toList ∨ "Error".toList <:+: m.content.asText.toList then
      some (String.ofList (m.content.asText.toList.take 100))
    else none

/-- The names of the tools that assistants call. -/
def calledTools (messages : List ChatMessage) : List String :=
  (messages.filter fun m => m.role = "assistant").flatMap fun m => (m.toolCalls.getD []).map (·.function.name)

def summarizeMiddleMessages (env : CompressorEnv) (messages : List ChatMessage) : String :=
  " | ".intercalate <|
    (if calledTools messages = [] then []
      else ["Tools called: " ++ ", ".intercalate (env.toolOrder (calledTools messages).dedup)]) ++
    (if errorTexts messages = [] then [] else ["Errors: " ++ toString (errorTexts messages).length]) ++
    (if quotedTexts messages = [] then []
      else ["Key content: " ++ "; ".intercalate (quotedTexts messages)])

/-! ### Compression -/

variable (env : CompressorEnv) (cwm : ContextWindowManager)

/-- The system message, if it is the first. -/
def systemMessage (messages : List ChatMessage) : Option ChatMessage := messages.head?.filter (·.role = "system")

/-- Where the recent messages start. -/
def recentStart (messages : List ChatMessage) : ℕ :=
  adjustBoundaryForToolCalls messages (messages.length - cwm.preserveRecent)

def middleStart (messages : List ChatMessage) : ℕ := if (systemMessage messages).isSome then 1 else 0

/-- How many messages of the middle are summarized. -/
def splitMiddle (middle : List ChatMessage) : ℕ :=
  let keepCount := min (env.scale middle.length cwm.compressionRatio) middle.length
  if 0 < keepCount ∧ keepCount < middle.length then adjustBoundaryForToolCalls middle (middle.length - keepCount)
  else if middle.length ≤ keepCount then 0
  else middle.length

def summaryMessage (summary : String) : ChatMessage where
  role := "user"
  content := .text ("[History Summary] " ++ summary)
  name := none
  toolCalls := none
  toolCallId := none
  reasoningContent := none

/-- `compress_messages`, or nothing where it panics. -/
def compressMessages (messages : List ChatMessage) : Option (List ChatMessage × String) :=
  if messages.length ≤ cwm.maxMessages then some (messages, "")
  else
    let recentStart := cwm.recentStart messages
    let middleStart := middleStart messages
    -- `messages[middle_start..recent_start]`.
    if recentStart < middleStart then none
    else
      let recent := messages.drop recentStart
      let middle := (messages.take recentStart).drop middleStart
      let split := cwm.splitMiddle env middle
      let summary := summarizeMiddleMessages env (middle.take split)
      let compressed := (systemMessage messages).toList ++
        (if summary = "" then [] else [summaryMessage summary]) ++ middle.drop split ++ recent
      some (removeOrphanedToolMessages compressed, summary)

end ContextWindowManager

end WildAgentOs.Core
