import WildAgentOs.Jsonld.Framing

/-!
# Budgets of tokens

`jsonld/framing.rs`: what a value costs, and how a node is cut down until it fits.  How a number is printed is a
parameter.

* `estimateTokens`;
* `fitToBudget`, with the frames that it tries, and `filterToSummary`;
* `fitToBudget_le_iff`: when the result fits.
-/

namespace WildAgentOs.Jsonld

open Json Memory.L0Store

variable (print : Number → String)

mutual
def estimateTokens : Value → ℕ
  | .null => 1
  | .bool _ => 1
  | .number n => (print n).utf8ByteSize
  | .string s => s.length / 4 + 1
  | .array items => 2 + estimateItems items
  | .object members => 2 + estimateMembers members

def estimateItems : List Value → ℕ
  | [] => 0
  | item :: items => estimateTokens item + 1 + estimateItems items

def estimateMembers : List (String × Value) → ℕ
  | [] => 0
  | (key, value) :: members => key.length / 4 + 1 + (estimateTokens value + 1) + estimateMembers members
end

/-! ### A summary -/

/-- The characters that fit into so many bytes. -/
def takeBytes : ℕ → List Char → List Char
  | _, [] => []
  | bytes, c :: cs => if c.utf8Size ≤ bytes then c :: takeBytes (bytes - c.utf8Size) cs else []

/-- A text of at most 200 bytes. -/
def contentSummary (content : String) : String :=
  if 200 < content.utf8ByteSize then String.ofList (takeBytes 200 content.toList) ++ "..." else content

/-- The summary of a node, its description or its content. -/
def summaryOf (obj : List (String × Value)) : Option Value :=
  match obj.lookup "summary", obj.lookup "description", obj.lookup "content" with
  | some summary, _, _ => some summary
  | none, some desc, _ => some desc
  | none, none, some content => some (.string (contentSummary (content.asStr.getD "")))
  | none, none, none => none

def filterToSummary (node : Value) : Value :=
  match node with
  | .object obj => .object
      (((obj.lookup "@id").map fun id => ("@id", id)).toList ++
        ((obj.lookup "@type").map fun nodeType => ("@type", nodeType)).toList ++
        ((summaryOf obj).map fun summary => ("summary", summary)).toList)
  | _ => node

/-! ### What fits -/

namespace FrameTemplate

/-- At most two levels. -/
def shallow (frame : FrameTemplate) : FrameTemplate :=
  if frame.maxDepth.all (2 < ·) then { frame with maxDepth := some 2 } else frame

/-- One level. -/
def flat (frame : FrameTemplate) : FrameTemplate := { frame.shallow with maxDepth := some 1 }

/-- One level, and links for each rule. -/
def linked (frame : FrameTemplate) : FrameTemplate :=
  { frame.flat with embedRules := fun key => (frame.embedRules key).map fun _ => .link }

/-- The frames that are tried for a node that does not fit. -/
def variants (frame : FrameTemplate) : List FrameTemplate := [frame.shallow, frame.flat, frame.linked]

end FrameTemplate

def fitToBudget (node : Value) (budget : ℕ) (frame : FrameTemplate) : Value :=
  if estimateTokens print node ≤ budget then applyFrame node frame
  else if estimateTokens print (applyFrame node frame.shallow) ≤ budget then applyFrame node frame.shallow
  else if estimateTokens print (applyFrame node frame.flat) ≤ budget then applyFrame node frame.flat
  else if estimateTokens print (applyFrame node frame.linked) ≤ budget then applyFrame node frame.linked
  else filterToSummary node

variable {print} {frame : FrameTemplate}

/-- A node that does not fit is cut down to what fits, if anything does. -/
theorem fitToBudget_le_iff_of_lt {node : Value} {budget : ℕ} (h : budget < estimateTokens print node) :
    estimateTokens print (fitToBudget print node budget frame) ≤ budget ↔
      (∃ variant ∈ frame.variants, estimateTokens print (applyFrame node variant) ≤ budget) ∨
        estimateTokens print (filterToSummary node) ≤ budget := by
  unfold fitToBudget FrameTemplate.variants
  rw [if_neg (Nat.not_le.2 h)]
  simp only [List.mem_cons, List.not_mem_nil, or_false, exists_eq_or_imp, exists_eq_left]
  split_ifs with hshallow hflat hlinked
  · exact iff_of_true hshallow (.inl (.inl hshallow))
  · exact iff_of_true hflat (.inl (.inr (.inl hflat)))
  · exact iff_of_true hlinked (.inl (.inr (.inr hlinked)))
  · simp only [hshallow, hflat, hlinked, false_or]

/-- A node that fits is framed without another look. -/
theorem fitToBudget_of_le {node : Value} {budget : ℕ} (h : estimateTokens print node ≤ budget) :
    fitToBudget print node budget frame = applyFrame node frame := if_pos h

end WildAgentOs.Jsonld
