import WildAgentOs.Json.Value

/-!
# Stream events and their accumulator

The events of `stream_types.rs` and `StreamAccumulator`.  Of the accumulator `current_block_index`
is left out: it is written and never read.

* `StreamEvent`, `Usage`;
* `StreamAccumulator.processEvent` and its readers.
-/

namespace WildAgentOs.Llm

open List

structure Usage where
  promptTokens : UInt32
  completionTokens : UInt32
  totalTokens : UInt32
  cachedPromptTokens : Option UInt32
  costUsd : Option F64
  deriving DecidableEq

inductive ContentBlock
  | text (text : String)
  | toolUse (id name : String)
  | thinking (thinking : String)
  deriving DecidableEq

inductive ContentBlockDelta
  | textDelta (text : String)
  | inputJsonDelta (partialJson : String)
  | thinkingDelta (thinking : String)
  | toolCallDelta (id name arguments : Option String)
  deriving DecidableEq

inductive StreamEvent
  | messageStart (id model : Option String) (role : String)
  | messageDelta (finishReason : Option String) (usage : Option Usage)
  | contentBlockStart (index : UInt32) (contentBlock : ContentBlock)
  | contentBlockDelta (index : UInt32) (delta : ContentBlockDelta)
  | contentBlockStop (index : UInt32)
  | messageStop
  deriving DecidableEq

structure ToolCallState where
  id : String := ""
  name : String := ""
  arguments : String := ""
  deriving DecidableEq

structure StreamAccumulator where
  textBlocks : List String := []
  thinking : String := ""
  toolCalls : List ToolCallState := []
  finishReason : Option String := none
  usage : Option Usage := none
  model : Option String := none
  messageId : Option String := none
  deriving DecidableEq

/-- `while v.len() <= idx { v.push(default) }`, then a change of `v[idx]`. -/
def growModify {α : Type*} (default : α) (v : List α) (idx : ℕ) (f : α → α) : List α :=
  (v ++ List.replicate (idx + 1 - v.length) default).modify idx f

/-- What a `ToolCallDelta` does to its call. -/
def ToolCallState.extend (tc : ToolCallState) (id name arguments : Option String) : ToolCallState where
  id := id.getD tc.id
  name := name.getD tc.name
  arguments := tc.arguments ++ arguments.getD ""

namespace StreamAccumulator

def processEvent (acc : StreamAccumulator) : StreamEvent → StreamAccumulator
  | .messageStart id model _ => { acc with messageId := id, model }
  | .contentBlockStart index (.text _) =>
    { acc with textBlocks := growModify "" acc.textBlocks index.toNat id }
  | .contentBlockStart index (.toolUse id name) =>
    { acc with
      toolCalls := growModify {} acc.toolCalls index.toNat fun tc => { tc with id, name } }
  | .contentBlockStart _ (.thinking _) => acc
  | .contentBlockDelta index (.textDelta text) =>
    { acc with textBlocks := growModify "" acc.textBlocks index.toNat (· ++ text) }
  | .contentBlockDelta _ (.thinkingDelta thinking) => { acc with thinking := acc.thinking ++ thinking }
  | .contentBlockDelta index (.inputJsonDelta partialJson) =>
    { acc with
      toolCalls := growModify {} acc.toolCalls index.toNat
        fun tc => { tc with arguments := tc.arguments ++ partialJson } }
  | .contentBlockDelta index (.toolCallDelta id name arguments) =>
    { acc with
      toolCalls := growModify {} acc.toolCalls index.toNat (·.extend id name arguments) }
  | .messageDelta finishReason usage =>
    { acc with finishReason, usage := usage.or acc.usage }
  | .contentBlockStop _ => acc
  | .messageStop => acc

def getText (acc : StreamAccumulator) : String := String.join acc.textBlocks

/-- The state of the tool call of an index. -/
def toolCall (acc : StreamAccumulator) (index : ℕ) : ToolCallState := acc.toolCalls.getD index {}

end StreamAccumulator

/-! ### Lists that grow -/

theorem getD_growModify {α : Type*} (default : α) (v : List α) (idx : ℕ) (f : α → α) (j : ℕ) :
    (growModify default v idx f).getD j default = if j = idx then f (v.getD idx default) else v.getD j default := by
  have hget : ∀ k, (v ++ List.replicate (idx + 1 - v.length) default).getD k default = v.getD k default := by
    intro k
    by_cases hk : k < v.length
    · simp [getD_eq_getElem?_getD, getElem?_append_left hk]
    · have hk' : v.length ≤ k := not_lt.1 hk
      rw [getD_eq_getElem?_getD, getElem?_append_right hk', getElem?_replicate,
        getD_eq_getElem?_getD, getElem?_eq_none hk']
      split_ifs <;> rfl
  unfold growModify
  by_cases hj : j = idx
  · have hlt : idx < (v ++ List.replicate (idx + 1 - v.length) default).length := by
      rw [length_append, length_replicate]
      omega
    have hself := hget idx
    rw [getD_eq_getElem?_getD, getElem?_eq_getElem hlt, Option.getD_some] at hself
    subst hj
    rw [if_pos rfl, getD_eq_getElem?_getD, getElem?_modify_eq, getElem?_eq_getElem hlt, hself]
    rfl
  · rw [if_neg hj, getD_eq_getElem?_getD, getElem?_modify_ne f _ (Ne.symm hj), ← getD_eq_getElem?_getD, hget]

end WildAgentOs.Llm
