import WildAgentOs.Json.Grammar
import WildAgentOs.Llm.StreamTypes

/-!
# JSON that arrives in chunks

`IncrementalJsonParser` of `llm/sse.rs`.  The depths are 32-bit integers that wrap around.

* `push`, `pushAll`, `pushAll_object`.
-/

namespace WildAgentOs.Llm

open Json List Nesting

/-- `IncrementalJsonParser`: the scanner's flags and depths, the buffer and how many of its characters are scanned. -/
structure IncrementalJsonParser extends Nesting Int32 where
  buffer : List Char
  lastCheckPos : ℕ

namespace IncrementalJsonParser

def new : IncrementalJsonParser := ⟨.start Int32, [], 0⟩

/-- No brace and no bracket is open. -/
def isClosed (p : IncrementalJsonParser) : Bool := p.braceDepth = 0 && p.bracketDepth = 0

section
variable (fromStr : List Char → Option Value)

/-- The loop of `try_parse` over the characters that are not scanned yet. -/
def scanRest (p : IncrementalJsonParser) : List Char → Option Value × IncrementalJsonParser
  | [] => (if p.isClosed ∧ p.buffer ≠ [] then fromStr p.buffer else none, p)
  | c :: rest =>
    let closes := c = '}' ∧ p.escapeNext = false ∧ p.inString = false
    let p := { p with toNesting := p.toNesting.step c }
    let next := { p with lastCheckPos := p.lastCheckPos + 1 }
    if closes ∧ p.isClosed then
      match fromStr p.buffer with
      | some value => (some value, p)
      | none => next.scanRest rest
    else next.scanRest rest

def tryParse (p : IncrementalJsonParser) : Option Value × IncrementalJsonParser :=
  p.scanRest fromStr (p.buffer.drop p.lastCheckPos)

def push (p : IncrementalJsonParser) (chunk : List Char) : Option Value × IncrementalJsonParser :=
  { p with buffer := p.buffer ++ chunk }.tryParse fromStr

/-- The results of chunks that are pushed one after the other, and the parser after them. -/
def pushAll (p : IncrementalJsonParser) : List (List Char) → List (Option Value) × IncrementalJsonParser
  | [] => ([], p)
  | chunk :: chunks =>
    let (value, p) := p.push fromStr chunk
    let (values, p) := p.pushAll chunks
    (value :: values, p)

end

variable {fromStr : List Char → Option Value} {p : IncrementalJsonParser}

/-- The parser when a text has come that is no JSON yet. -/
def after (text : List Char) : IncrementalJsonParser := ⟨(Nesting.start Int32).scan text, text, text.length⟩

variable {rest : List Char}

/-- A buffer that is no JSON is scanned to its end. -/
theorem scanRest_of_none (h : fromStr p.buffer = none) :
    p.scanRest fromStr rest = (none, ⟨p.toNesting.scan rest, p.buffer, p.lastCheckPos + rest.length⟩) := by
  induction rest generalizing p with
  | nil =>
    unfold scanRest
    rw [h, ite_self]
    rfl
  | cons c rest ih =>
    have hnext := @ih ⟨p.toNesting.step c, p.buffer, p.lastCheckPos + 1⟩ h
    have hlength : p.lastCheckPos + 1 + rest.length = p.lastCheckPos + (c :: rest).length := by
      rw [length_cons]
      omega
    rw [hlength] at hnext
    unfold scanRest
    simp only [h]
    split_ifs <;> exact hnext

/-- A buffer that is JSON is returned, if nothing is open at its end. -/
theorem scanRest_of_some {value : Value} (h : fromStr p.buffer = some value) (hne : p.buffer ≠ [])
    (hbrace : (p.toNesting.scan rest).braceDepth = 0) (hbracket : (p.toNesting.scan rest).bracketDepth = 0) :
    (p.scanRest fromStr rest).1 = some value := by
  induction rest generalizing p with
  | nil =>
    have hclosed : p.isClosed = true := by
      unfold isClosed
      rw [show p.braceDepth = 0 from hbrace, show p.bracketDepth = 0 from hbracket]
      rfl
    unfold scanRest
    rw [if_pos ⟨hclosed, hne⟩]
    exact h
  | cons c rest ih =>
    have hnext := @ih ⟨p.toNesting.step c, p.buffer, p.lastCheckPos + 1⟩ h hne hbrace hbracket
    unfold scanRest
    simp only [h]
    split_ifs
    · rfl
    · exact hnext

/-- Only the characters of the chunk are scanned. -/
theorem push_after (text chunk : List Char) : (after text).push fromStr chunk = IncrementalJsonParser.scanRest fromStr
      ⟨(start Int32).scan text, text ++ chunk, text.length⟩ chunk := by
  unfold push tryParse
  simp only [after, drop_left]

/-- **Nothing is returned while the text is no JSON.** -/
theorem pushAll_of_none {chunks : List (List Char)} {text : List Char}
    (h : ∀ t, t <+: text ++ chunks.flatten → fromStr t = none) :
    (after text).pushAll fromStr chunks = (chunks.map fun _ => none, after (text ++ chunks.flatten)) := by
  induction chunks generalizing text with
  | nil => rw [pushAll, flatten_nil, append_nil, map_nil]
  | cons chunk chunks ih =>
    rw [flatten_cons, ← append_assoc] at h ⊢
    have hpush : (after text).push fromStr chunk = (none, after (text ++ chunk)) := by
      rw [push_after, scanRest_of_none (h _ (prefix_append _ _)), ← scan_append, after, length_append]
    rw [pushAll, hpush]
    simp only [ih h, map_cons]

theorem counts_int32 : Nesting.Counts fun _ _ : Int32 => True where
  refl _ := trivial
  trans _ _ := trivial
  up _ := trivial
  down d := Int32.add_sub_cancel d 1

/-- Nothing is open at the end of an object. -/
theorem scan_object {object w : List Char} (h : IsObject object) (hw : Ws w) :
    (start Int32).scan (object ++ w) = .start Int32 := by
  obtain ⟨front, body, hfront, hbody, rfl⟩ := h
  have hlevel : Nesting.Level (fun _ _ : Int32 => True) false body := by
    rcases hbody with hbody | hbody
    · exact level_ws counts_int32 hbody
    · exact level_of_is counts_int32 hbody
  have hall := ((level_ws counts_int32 hfront).append (level_object counts_int32 hlevel)).append
    (level_ws counts_int32 hw)
  exact (hall (.start Int32) rfl rfl).1

/-- **An object comes out of the chunk with its last brace, as it is read from the whole text, and nothing comes out
before.** -/
theorem pushAll_object {fromStr : List Char → Option Value} (haccept : ∀ s value, fromStr s = some value → IsText s)
    (hspace : ∀ s w, Ws w → fromStr (s ++ w) = fromStr s)
    {object w : List Char} (hobject : IsObject object) (hw : Ws w) {before later : List (List Char)} {last : List Char}
    (hsplit : (before ++ last :: later).flatten = object ++ w) (hbefore : before.flatten.length < object.length)
    (hlast : object.length ≤ (before ++ [last]).flatten.length) :
    (new.pushAll fromStr before).1 = before.map (fun _ => none) ∧
      ((new.pushAll fromStr before).2.push fromStr last).1 = fromStr (object ++ w) := by
  rw [flatten_append, flatten_cons] at hsplit
  rw [flatten_append, flatten_singleton] at hlast
  have hbeforePre : before.flatten <+: object :=
    prefix_of_prefix_length_le ⟨_, hsplit⟩ (prefix_append object w) hbefore.le
  have hnone : ∀ t, t <+: [] ++ before.flatten → fromStr t = none := by
    intro t ht
    rw [nil_append] at ht
    by_contra hsome
    obtain ⟨value, hvalue⟩ := Option.ne_none_iff_exists'.1 hsome
    refine hobject.not_isText (ht.trans hbeforePre) ?_ (haccept t value hvalue)
    rintro rfl
    have hle := ht.length_le
    omega
  have hrun : new.pushAll fromStr before = (before.map fun _ => none, after before.flatten) := pushAll_of_none hnone
  rw [hrun]
  refine ⟨rfl, ?_⟩
  -- the buffer is the object, and white space
  have hbuffer : ∃ w', w' <+: w ∧ before.flatten ++ last = object ++ w' := by
    rw [← append_assoc] at hsplit
    obtain ⟨w', hw'⟩ : object <+: before.flatten ++ last :=
      prefix_of_prefix_length_le (prefix_append object w) ⟨_, hsplit⟩ hlast
    refine ⟨w', ⟨later.flatten, ?_⟩, hw'.symm⟩
    rw [← hw', append_assoc] at hsplit
    exact append_cancel_left hsplit
  obtain ⟨w', hw', hbuffer⟩ := hbuffer
  have hws : Ws w' := fun c hc => hw c (hw'.subset hc)
  rw [hspace object w hw, ← hspace object w' hws, ← hbuffer, push_after]
  cases hvalue : fromStr (before.flatten ++ last) with
  | none => rw [scanRest_of_none hvalue]
  | some value =>
    have hscan : ((Nesting.start Int32).scan before.flatten).scan last = .start Int32 := by
      rw [← Nesting.scan_append, hbuffer]
      exact scan_object hobject hws
    refine scanRest_of_some hvalue ?_ ?_ ?_
    · intro hnil
      have hnil : before.flatten ++ last = [] := hnil
      rw [hnil] at hvalue
      refine (haccept _ _ hvalue).not_ws fun c hc => absurd hc not_mem_nil
    · exact congrArg Nesting.braceDepth hscan
    · exact congrArg Nesting.bracketDepth hscan

def isSpace (c : Char) : Bool := c = ' ' || c = '\t' || c = '\n' || c = '\r'

/-- A text without the white space at its end. -/
def withoutSpace (s : List Char) : List Char := (s.reverse.dropWhile isSpace).reverse

theorem ws_iff {w : List Char} : Ws w ↔ ∀ c ∈ w, isSpace c = true := by
  simp only [Ws, isSpace, Bool.or_eq_true, decide_eq_true_eq, or_assoc]

theorem withoutSpace_append {s w : List Char} (hw : Ws w) : withoutSpace (s ++ w) = withoutSpace s := by
  unfold withoutSpace
  rw [reverse_append, dropWhile_append_of_pos fun c hc => ws_iff.1 hw c (mem_reverse.1 hc)]

theorem exists_space (s : List Char) : ∃ w, Ws w ∧ s = withoutSpace s ++ w := by
  refine ⟨(s.reverse.takeWhile isSpace).reverse, ws_iff.2 fun c hc => ?_, ?_⟩
  · exact all_eq_true.1 all_takeWhile c (mem_reverse.1 hc)
  · rw [withoutSpace, ← reverse_append, takeWhile_append_dropWhile, reverse_reverse]

def sampleObject : List Char := "\x7b\"key\": \"value\"\x7d".toList

/-- A reader that knows one object. -/
def sampleFromStr (s : List Char) : Option Value :=
  if withoutSpace s = sampleObject then some (.object [("key", .string "value")]) else none

theorem isMembers_sampleObject : Is .members "\"key\": \"value\"".toList := by
  have hplain : ∀ {cs : List Char}, cs.all (fun c => c ≠ '"' ∧ c ≠ '\\' ∧ 32 ≤ c.toNat) = true → IsBody cs := by
    intro cs
    induction cs with
    | nil => exact fun _ => .nil
    | cons c cs ih =>
      intro h
      rw [all_cons, Bool.and_eq_true, decide_eq_true_iff] at h
      obtain ⟨⟨hquote, hslash, hcontrol⟩, hrest⟩ := h
      exact .plain hquote hslash hcontrol (ih hrest)
  have hkey : IsString "\"key\"".toList := ⟨"key".toList, hplain (by decide), rfl⟩
  have hvalue : IsString "\"value\"".toList := ⟨"value".toList, hplain (by decide), rfl⟩
  have hnone : Ws [] := fun c hc => absurd hc not_mem_nil
  have hspace : Ws [' '] := ws_singleton.2 (.inl rfl)
  exact .lastMember hnone hkey hnone (.element hspace (.string hvalue) hnone)

/-- Two chunks, the second with the last brace. -/
theorem pushAll_sampleObject :
    ((new.pushAll sampleFromStr ["\x7b\"key\": ".toList]).2.push sampleFromStr "\"value\"\x7d".toList).1 =
      sampleFromStr (sampleObject ++ []) := by
  have hnone : Ws [] := fun c hc => absurd hc not_mem_nil
  have haccept : ∀ s value, sampleFromStr s = some value → IsText s := by
    intro s value h
    unfold sampleFromStr at h
    split_ifs at h with hs
    obtain ⟨w, hw, heq⟩ := exists_space s
    rw [heq, hs]
    exact .element hnone (.object isMembers_sampleObject) hw
  have hspace : ∀ s w, Ws w → sampleFromStr (s ++ w) = sampleFromStr s := by
    intro s w hw
    rw [sampleFromStr, sampleFromStr, withoutSpace_append hw]
  have hobject : IsObject sampleObject := ⟨[], _, hnone, .inr isMembers_sampleObject, rfl⟩
  have hsplit : (["\x7b\"key\": ".toList] ++ ["\"value\"\x7d".toList]).flatten = sampleObject ++ [] := rfl
  exact (pushAll_object haccept hspace hobject hnone hsplit (by decide) (by decide)).2

end IncrementalJsonParser

end WildAgentOs.Llm
