import WildAgentOs.Lib.F64

/-!
# JSON values

`serde_json::Value` and the accessors the engine reads payloads with.
-/

namespace WildAgentOs.Json

/-- `serde_json::Number`: a non-negative integer, a negative one, or a finite float. -/
inductive Number
  | posInt (n : UInt64)
  | negInt (n : Int64)
  | float (x : F64)
  deriving DecidableEq

inductive Value
  | null
  | bool (b : Bool)
  | number (n : Number)
  | string (s : String)
  | array (items : List Value)
  | object (members : List (String × Value))

namespace Value

def asObject : Value → Option (List (String × Value))
  | object members => some members
  | _ => none

def asArray : Value → Option (List Value)
  | array items => some items
  | _ => none

def asStr : Value → Option String
  | string s => some s
  | _ => none

def asBool : Value → Option Bool
  | bool b => some b
  | _ => none

def asU64 : Value → Option UInt64
  | number (.posInt n) => some n
  | _ => none

/-- The member of an object under a key; `none` for a value that is no object. -/
def get (v : Value) (key : String) : Option Value := v.asObject.bind (List.lookup key)

/-- The strings of an array. -/
def strings (items : List Value) : List String := items.filterMap asStr

@[simp] theorem mem_strings {items : List Value} {s : String} : s ∈ strings items ↔ string s ∈ items := by
  simp only [strings, List.mem_filterMap]
  constructor
  · rintro ⟨v, hv, hs⟩
    cases v <;> simp [asStr] at hs
    exact hs ▸ hv
  · intro h
    exact ⟨_, h, rfl⟩

end Value

end WildAgentOs.Json
