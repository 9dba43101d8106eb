import Mathlib.Data.List.Infix
import Mathlib.Tactic

/-!
# Chat messages

`gateway/unified_gateway.rs`: the messages of a conversation with a model.

* `ChatMessage`, `ChatContent.asText`;
* `ChatMessage.issuedIds`: the calls of an assistant;
* `Paired`, `Answered`.
-/

namespace WildAgentOs.Core

structure ImageUrl where
  url : String
  deriving DecidableEq

structure ContentPart where
  kind : String
  text : Option String
  imageUrl : Option ImageUrl
  deriving DecidableEq

inductive ChatContent
  | text (s : String)
  | parts (ps : List ContentPart)
  deriving DecidableEq

def ChatContent.asText : ChatContent → String
  | .text s => s
  | .parts ps => "\n".intercalate (ps.filterMap (·.text))

structure ToolCallFunction where
  name : String
  arguments : String
  deriving DecidableEq

structure ToolCallPayload where
  id : String
  callType : String
  function : ToolCallFunction
  deriving DecidableEq

structure ChatMessage where
  role : String
  content : ChatContent
  name : Option String
  toolCalls : Option (List ToolCallPayload)
  toolCallId : Option String
  reasoningContent : Option String
  deriving DecidableEq

namespace ChatMessage

/-- The identifiers of the calls in a message, whatever its role. -/
def callIds (m : ChatMessage) : List String := (m.toolCalls.getD []).map (·.id)

/-- The identifiers of the calls that an assistant makes. -/
def issuedIds (m : ChatMessage) : List String := if m.role = "assistant" then m.callIds else []

/-- The message as one of a user. -/
def asUser (m : ChatMessage) : ChatMessage where
  role := "user"
  content := m.content
  name := none
  toolCalls := none
  toolCallId := none
  reasoningContent := none

@[simp] theorem issuedIds_asUser (m : ChatMessage) : m.asUser.issuedIds = [] := rfl

theorem issuedIds_of_role {m : ChatMessage} (h : m.role ≠ "assistant") : m.issuedIds = [] := if_neg h

end ChatMessage

/-- The identifiers of the calls in messages. -/
def issued (messages : List ChatMessage) : List String := messages.flatMap ChatMessage.issuedIds

@[simp] theorem issued_nil : issued [] = [] := rfl

@[simp] theorem issued_cons (m : ChatMessage) (messages : List ChatMessage) :
    issued (m :: messages) = m.issuedIds ++ issued messages := rfl

@[simp] theorem issued_append (messages messages' : List ChatMessage) :
    issued (messages ++ messages') = issued messages ++ issued messages' := List.flatMap_append

/-- Each tool message answers a call that was made before it. -/
def Paired (messages : List ChatMessage) : Prop :=
  ∀ before m after, messages = before ++ m :: after → m.role = "tool" →
    ∃ id, m.toolCallId = some id ∧ id ∈ issued before

/-- Each call is answered by a tool message that comes later. -/
def Answered (messages : List ChatMessage) : Prop :=
  ∀ before m after, messages = before ++ m :: after → ∀ id ∈ m.issuedIds,
    ∃ answer ∈ after, answer.role = "tool" ∧ answer.toolCallId = some id

end WildAgentOs.Core
