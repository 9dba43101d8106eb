import WildAgentOs.Core.ChatMessage
import WildAgentOs.Lib.Text

/-!
# Aging of tool results

`core/tool_result_aging.rs`: old results of tools are replaced by references or by brief summaries.

* `ToolResultAging.ageToolResults`: what `age_tool_results` makes of a list;
* `ageToolResults_eq`, `AgesStably`, `Settles`, `agesStably_iff`, `not_agesStably`.
-/

namespace WildAgentOs.Core

open List Nat

structure ToolResultAging where
  keepFull : ℕ
  tryMicrotool : ℕ
  compressThreshold : ℕ
  deriving DecidableEq

/-- `as_text` of the content. -/
def ChatMessage.text (m : ChatMessage) : String := m.content.asText

namespace ToolResultAging

/-! ### Texts -/

/-- How a replaced text starts. -/
def header (label : String) (bytes : ℕ) : String := "[" ++ label ++ " " ++ toString bytes ++ " bytes] "

/-- The first characters of a text. -/
def preview (count : ℕ) (text : String) : String := String.ofList (text.toList.take count)

def readerName (callId : String) : String := "read_full_result_" ++ callId

/-- The reference to the reader of a result. -/
def reference (callId : String) : String := "`" ++ readerName callId ++ "` tool\nIRI: iri://tool-result/" ++ callId

def compressedText (bytes : ℕ) (callId : String) : String :=
  header "Compressed" bytes ++ "Full result available via " ++ reference callId

def briefText (label : String) (count : ℕ) (text : String) : String :=
  header label text.utf8ByteSize ++ preview count text ++ "..."

/-! ### Aging -/

section

variable (aging : ToolResultAging) (hasReader : String → Bool)

/-- `microtool_end`: the sum wraps. -/
def microtoolEnd : ℕ := (aging.keepFull + aging.tryMicrotool) % 2 ^ 64

/-- What a text is replaced by. -/
def agedText (revPosition : ℕ) (callId text : String) : String :=
  if revPosition < aging.microtoolEnd then
    if hasReader (readerName callId) then compressedText text.utf8ByteSize callId
    else briefText "Old result" 150 text
  else briefText "Historical result" 100 text

/-- One tool message, unless it is left as it is. -/
def ageMessage (revPosition : ℕ) (m : ChatMessage) : Option ChatMessage :=
  if revPosition < aging.keepFull then none
  else if m.text.utf8ByteSize < aging.compressThreshold then none
  else match m.toolCallId.filter (· ≠ "") with
    | none => none
    | some callId => some { m with content := .text (aging.agedText hasReader revPosition callId m.text) }

def toolCount (messages : List ChatMessage) : ℕ := messages.countP (·.role = "tool")

/-- The loop over the tool messages, with how many are replaced and how many bytes this frees. -/
def ageFrom (total : ℕ) : ℕ → List ChatMessage → List ChatMessage × ℕ × ℕ
  | _, [] => ([], 0, 0)
  | batchIdx, m :: messages =>
    if m.role = "tool" then
      let (rest, aged, freed) := ageFrom total (batchIdx + 1) messages
      match aging.ageMessage hasReader (total - 1 - batchIdx) m with
      | none => (m :: rest, aged, freed)
      | some m' => (m' :: rest, aged + 1, freed + (m.text.utf8ByteSize - m'.text.utf8ByteSize))
    else
      let (rest, aged, freed) := ageFrom total batchIdx messages
      (m :: rest, aged, freed)

/-- `age_tool_results`.  Whether the owner has a reader is what the executor says. -/
def ageToolResults (messages : List ChatMessage) : List ChatMessage × ℕ × ℕ :=
  let total := toolCount messages
  if total ≤ aging.keepFull then (messages, 0, 0) else aging.ageFrom hasReader total 0 messages

/-! ### Each message by itself -/

/-- A message at its position from the newest result. -/
def agedAt (revPosition : ℕ) (m : ChatMessage) : ChatMessage :=
  if m.role = "tool" then (aging.ageMessage hasReader revPosition m).getD m else m

def agedList : List ChatMessage → List ChatMessage
  | [] => []
  | m :: messages => aging.agedAt hasReader (toolCount messages) m :: agedList messages

end

/-- Of each message, with its position from the newest result. -/
def AllAt (P : ℕ → ChatMessage → Prop) : List ChatMessage → Prop
  | [] => True
  | m :: messages => P (toolCount messages) m ∧ AllAt P messages

section

variable {aging : ToolResultAging} {hasReader : String → Bool}

theorem toolCount_cons (m : ChatMessage) (messages : List ChatMessage) :
    toolCount (m :: messages) = toolCount messages + if m.role = "tool" then 1 else 0 := by
  unfold toolCount
  rw [countP_cons]
  simp only [decide_eq_true_eq]

variable {revPosition : ℕ}

theorem ageMessage_eq_none_of_lt (h : revPosition < aging.keepFull) (m : ChatMessage) :
    aging.ageMessage hasReader revPosition m = none := if_pos h

theorem agedAt_of_lt (h : revPosition < aging.keepFull) (m : ChatMessage) :
    aging.agedAt hasReader revPosition m = m := by
  unfold agedAt
  rw [ageMessage_eq_none_of_lt h, Option.getD_none, ite_self]

variable {messages : List ChatMessage}

theorem ageFrom_fst {total batchIdx : ℕ} (h : batchIdx + toolCount messages = total) :
    (aging.ageFrom hasReader total batchIdx messages).1 = aging.agedList hasReader messages := by
  induction messages generalizing batchIdx with
  | nil => rfl
  | cons m messages ih =>
    rw [toolCount_cons] at h
    unfold ageFrom agedList agedAt
    by_cases htool : m.role = "tool"
    · rw [if_pos htool] at h
      have hrev : total - 1 - batchIdx = toolCount messages := by omega
      rw [if_pos htool, if_pos htool, hrev]
      cases aging.ageMessage hasReader (toolCount messages) m with
      | none => exact congrArg (m :: ·) (ih (by omega))
      | some m' => exact congrArg (m' :: ·) (ih (by omega))
    · rw [if_neg htool] at h
      rw [if_neg htool, if_neg htool]
      exact congrArg (m :: ·) (ih h)

theorem agedList_of_le (h : toolCount messages ≤ aging.keepFull) : aging.agedList hasReader messages = messages := by
  induction messages with
  | nil => rfl
  | cons m messages ih =>
    rw [toolCount_cons] at h
    unfold agedList
    rw [ih (by omega)]
    by_cases htool : m.role = "tool"
    · rw [if_pos htool] at h
      rw [agedAt_of_lt (by omega)]
    · rw [agedAt, if_neg htool]

/-- **What is computed**: each message by itself. -/
theorem ageToolResults_eq (messages : List ChatMessage) :
    (aging.ageToolResults hasReader messages).1 = aging.agedList hasReader messages := by
  unfold ageToolResults
  simp only
  split_ifs with hfew
  · exact (agedList_of_le hfew).symm
  · exact ageFrom_fst (zero_add _)

theorem role_agedAt (revPosition : ℕ) (m : ChatMessage) : (aging.agedAt hasReader revPosition m).role = m.role := by
  unfold agedAt ageMessage
  split_ifs
  · rfl
  · rfl
  · cases m.toolCallId.filter (· ≠ "") <;> rfl
  · rfl

@[simp] theorem toolCount_agedList (messages : List ChatMessage) :
    toolCount (aging.agedList hasReader messages) = toolCount messages := by
  induction messages with
  | nil => rfl
  | cons m messages ih => rw [agedList, toolCount_cons, toolCount_cons, role_agedAt, ih]

/-- What holds between each message and its replacement. -/
theorem forall₂_agedList_iff {R : ChatMessage → ChatMessage → Prop} (messages : List ChatMessage) :
    List.Forall₂ R messages (aging.agedList hasReader messages) ↔
      AllAt (fun revPosition m => R m (aging.agedAt hasReader revPosition m)) messages := by
  induction messages with
  | nil => exact iff_of_true .nil trivial
  | cons m messages ih => rw [agedList, AllAt, forall₂_cons, ih]

theorem agedList_agedList_iff (messages : List ChatMessage) :
    aging.agedList hasReader (aging.agedList hasReader messages) = aging.agedList hasReader messages ↔
      AllAt (fun revPosition m => aging.agedAt hasReader revPosition (aging.agedAt hasReader revPosition m) =
        aging.agedAt hasReader revPosition m) messages := by
  induction messages with
  | nil => exact iff_of_true rfl trivial
  | cons m messages ih => rw [agedList, AllAt, agedList, cons.injEq, toolCount_agedList, ih]

variable {P Q : ℕ → ChatMessage → Prop}

theorem allAt_and (messages : List ChatMessage) :
    AllAt (fun revPosition m => P revPosition m ∧ Q revPosition m) messages ↔ AllAt P messages ∧ AllAt Q messages := by
  induction messages with
  | nil => exact iff_of_true trivial ⟨trivial, trivial⟩
  | cons m messages ih =>
    simp only [AllAt, ih]
    exact and_and_and_comm

theorem allAt_congr (h : ∀ revPosition m, P revPosition m ↔ Q revPosition m)
    (messages : List ChatMessage) : AllAt P messages ↔ AllAt Q messages := by
  induction messages with
  | nil => exact Iff.rfl
  | cons m messages ih => exact and_congr (h _ _) ih

end

/-! ### References -/

def backquote : Char := Char.ofNat 0x60

/-- A text quotes the name of a reader. -/
def Quotes (text name : String) : Prop := backquote :: (name.toList ++ [backquote]) <:+: text.toList

instance (text name : String) : Decidable (Quotes text name) := inferInstanceAs (Decidable (_ <:+: _))

variable {label : String}

theorem backquote_notMem_header (h : backquote ∉ label.toList) (bytes : ℕ) :
    backquote ∉ (header label bytes).toList := by
  have hdigits : backquote ∉ toDigits 10 bytes := fun hmem =>
    absurd (isDigit_of_mem_toDigits (by decide) (by decide) hmem) (by decide)
  unfold header
  simp only [String.toList_append, mem_append, not_or]
  exact ⟨⟨⟨⟨by decide, h⟩, by decide⟩, by simpa using hdigits⟩, by decide⟩

/-- A brief summary quotes what its preview quotes. -/
theorem quotes_briefText_iff (h : backquote ∉ label.toList) (count : ℕ) (text name : String) :
    Quotes (briefText label count text) name ↔ Quotes (preview count text) name := by
  unfold Quotes briefText
  rw [String.toList_append, String.toList_append]
  constructor
  · intro hin
    rw [append_assoc] at hin
    have hrest := Text.infix_of_infix_append hin (backquote_notMem_header h _)
    rw [← cons_append] at hrest ⊢
    exact Text.infix_of_infix_append_last hrest (by decide)
  · exact fun hin => (hin.trans (suffix_append _ _).isInfix).trans (prefix_append _ _).isInfix

theorem quotes_compressedText_iff (bytes : ℕ) (callId name : String) :
    Quotes (compressedText bytes callId) name ↔ Quotes (reference callId) name := by
  unfold Quotes compressedText
  rw [String.toList_append]
  constructor
  · intro hin
    refine Text.infix_of_infix_append hin ?_
    rw [String.toList_append, mem_append, not_or]
    exact ⟨backquote_notMem_header (by decide) _, by decide⟩
  · exact fun hin => hin.trans (suffix_append _ _).isInfix

/-! ### Lengths -/

variable {bytes bytes' : ℕ}

/-- A header gives the number of bytes away. -/
theorem header_append_inj {rest rest' : List Char}
    (h : (header label bytes).toList ++ rest = (header label bytes').toList ++ rest') :
    bytes = bytes' ∧ rest = rest' := by
  have hspace : ∀ n : ℕ, ' ' ∉ toDigits 10 n := fun n hmem =>
    absurd (isDigit_of_mem_toDigits (by decide) (by decide) hmem) (by decide)
  have hbytes : bytes = bytes' := by
    have hend : " bytes] ".toList = ' ' :: "bytes] ".toList := by decide
    unfold header at h
    simp only [String.toList_append, append_assoc, hend, cons_append] at h
    have hrest := append_cancel_left (append_cancel_left (append_cancel_left h))
    have hdigits := Text.eq_of_append_cons hrest (by simpa using hspace bytes) (by simpa using hspace bytes')
    have hvalue := congrArg (fun digits => ofDigitChars 10 digits 0) hdigits
    simpa using hvalue
  subst hbytes
  exact ⟨rfl, append_cancel_left h⟩

def headerBytes (label : String) (bytes : ℕ) : ℕ := label.utf8ByteSize + (toString bytes).utf8ByteSize + 10

theorem utf8ByteSize_header (label : String) (bytes : ℕ) :
    (header label bytes).utf8ByteSize = headerBytes label bytes := by
  have hopen : "[".utf8ByteSize = 1 := by decide
  have hspace : " ".utf8ByteSize = 1 := by decide
  have hclose : " bytes] ".utf8ByteSize = 8 := by decide
  unfold header headerBytes
  simp only [String.utf8ByteSize_append, hopen, hspace, hclose]
  omega

theorem utf8ByteSize_briefText (label : String) (count : ℕ) (text : String) :
    (briefText label count text).utf8ByteSize =
      headerBytes label text.utf8ByteSize + (preview count text).utf8ByteSize + 3 := by
  have hdots : "...".utf8ByteSize = 3 := by decide
  unfold briefText
  rw [String.utf8ByteSize_append, String.utf8ByteSize_append, utf8ByteSize_header, hdots]

theorem utf8ByteSize_compressedText (bytes : ℕ) (callId : String) : (compressedText bytes callId).utf8ByteSize =
      headerBytes "Compressed" bytes + 26 + (reference callId).utf8ByteSize := by
  have hvia : "Full result available via ".utf8ByteSize = 26 := by decide
  unfold compressedText
  rw [String.utf8ByteSize_append, String.utf8ByteSize_append, utf8ByteSize_header, hvia]

theorem compressedText_inj {callId : String} :
    compressedText bytes callId = compressedText bytes' callId ↔ bytes = bytes' := by
  constructor
  · intro h
    have hlist := congrArg String.toList h
    unfold compressedText at hlist
    simp only [String.toList_append, append_assoc] at hlist
    exact (header_append_inj hlist).1
  · exact fun h => congrArg (compressedText · callId) h

variable {count : ℕ}

theorem briefText_inj {text text' : String} : briefText label count text = briefText label count text' ↔
      text.utf8ByteSize = text'.utf8ByteSize ∧ preview count text = preview count text' := by
  unfold briefText
  constructor
  · intro h
    have hlist := congrArg String.toList h
    simp only [String.toList_append, append_assoc] at hlist
    obtain ⟨hbytes, hrest⟩ := header_append_inj hlist
    exact ⟨hbytes, String.toList_inj.1 (append_cancel_right hrest)⟩
  · rintro ⟨hbytes, hsame⟩
    rw [hbytes, hsame]

/-- A preview of a longer text is the same if it is full. -/
theorem take_append_take_iff {α : Type*} {front text back : List α} (hfront : front ≠ []) :
    (front ++ text.take count ++ back).take count = text.take count ↔ (front ++ text).take count = text.take count := by
  have hpos := length_pos_iff.2 hfront
  by_cases hfull : count ≤ text.length
  · have hlong : count ≤ (front ++ text.take count).length := by
      rw [length_append, length_take]
      omega
    rw [take_append_of_le_length hlong, take_append, take_append, take_take, min_eq_left (sub_le _ _)]
  · rw [take_of_length_le (le_of_not_ge hfull)]
    refine iff_of_false (fun h => ?_) fun h => ?_
    all_goals
      have hlength := congrArg List.length h
      simp only [length_take, length_append] at hlength
      omega

/-- A brief summary is the same again if the text is as long, and starts with a header of its own. -/
theorem briefText_fixed_iff (label : String) (count : ℕ) (text : String) :
    briefText label count (briefText label count text) = briefText label count text ↔
      (briefText label count text).utf8ByteSize = text.utf8ByteSize ∧
        preview count (header label text.utf8ByteSize ++ text) = preview count text := by
  have hheader : (header label text.utf8ByteSize).toList ≠ [] := by
    unfold header
    simp
  have hpreview : preview count (briefText label count text) = preview count text ↔
      preview count (header label text.utf8ByteSize ++ text) = preview count text := by
    unfold preview briefText
    rw [String.ofList_inj, String.ofList_inj, String.toList_append, String.toList_append, String.toList_append]
    unfold preview
    rw [String.toList_ofList]
    exact take_append_take_iff hheader
  rw [briefText_inj, hpreview]

/-! ### Stability -/

section

variable (aging : ToolResultAging) (hasReader : String → Bool)

/-- What an aging promises: the messages that are not results and the newest results stay, no message gets longer,
the quoted readers stay quoted, and a second aging changes nothing. -/
structure AgesStably (messages : List ChatMessage) : Prop where
  untouched : ∀ before m after, messages = before ++ m :: after →
    m.role ≠ "tool" ∨ toolCount after < aging.keepFull →
      (aging.ageToolResults hasReader messages).1[before.length]? = some m
  shorter : List.Forall₂ (fun m m' => m'.text.utf8ByteSize ≤ m.text.utf8ByteSize) messages
    (aging.ageToolResults hasReader messages).1
  references : List.Forall₂ (fun m m' => ∀ name, hasReader name = true → Quotes m.text name → Quotes m'.text name)
    messages (aging.ageToolResults hasReader messages).1
  again : (aging.ageToolResults hasReader (aging.ageToolResults hasReader messages).1).1 =
    (aging.ageToolResults hasReader messages).1

/-- A message is aged, for its call. -/
structure Due (revPosition : ℕ) (m : ChatMessage) (callId : String) : Prop where
  tool : m.role = "tool"
  old : aging.keepFull ≤ revPosition
  long : aging.compressThreshold ≤ m.text.utf8ByteSize
  call : m.toolCallId = some callId
  named : callId ≠ ""

/-- A brief summary is under the threshold, or the same again; and the preview quotes the readers. -/
def SettlesBriefly (label : String) (count : ℕ) (text : String) : Prop :=
  (headerBytes label text.utf8ByteSize + (preview count text).utf8ByteSize + 3 < aging.compressThreshold ∨
    headerBytes label text.utf8ByteSize + (preview count text).utf8ByteSize + 3 = text.utf8ByteSize ∧
      preview count (header label text.utf8ByteSize ++ text) = preview count text) ∧
  ∀ name, hasReader name = true → Quotes text name → Quotes (preview count text) name

/-- A reference is under the threshold, or as long as the text; and it quotes the readers. -/
def SettlesByReference (callId text : String) : Prop :=
  (headerBytes "Compressed" text.utf8ByteSize + 26 + (reference callId).utf8ByteSize < aging.compressThreshold ∨
    headerBytes "Compressed" text.utf8ByteSize + 26 + (reference callId).utf8ByteSize = text.utf8ByteSize) ∧
  ∀ name, hasReader name = true → Quotes text name → Quotes (reference callId) name

/-- A message that is aged settles. -/
def Settles (revPosition : ℕ) (m : ChatMessage) : Prop :=
  ∀ callId, aging.Due revPosition m callId →
    if revPosition < aging.microtoolEnd then
      if hasReader (readerName callId) then aging.SettlesByReference hasReader callId m.text
      else aging.SettlesBriefly hasReader "Old result" 150 m.text
    else aging.SettlesBriefly hasReader "Historical result" 100 m.text

end

section

variable {aging : ToolResultAging} {hasReader : String → Bool} {revPosition : ℕ} {m : ChatMessage} {callId : String}

theorem ageMessage_of_due (h : aging.Due revPosition m callId) : aging.ageMessage hasReader revPosition m =
    some { m with content := .text (aging.agedText hasReader revPosition callId m.text) } := by
  unfold ageMessage
  rw [if_neg (not_lt.2 h.old), if_neg (not_lt.2 h.long), h.call,
    Option.filter_some_pos (by simpa using h.named)]

theorem agedAt_of_due (h : aging.Due revPosition m callId) : aging.agedAt hasReader revPosition m =
    { m with content := .text (aging.agedText hasReader revPosition callId m.text) } := by
  rw [agedAt, if_pos h.tool, ageMessage_of_due h, Option.getD_some]

theorem agedAt_of_not_due (h : ∀ callId, ¬aging.Due revPosition m callId) :
    aging.agedAt hasReader revPosition m = m := by
  unfold agedAt
  split_ifs with htool
  · unfold ageMessage
    split_ifs with hnew hshort
    · rfl
    · rfl
    · cases hcall : m.toolCallId.filter (· ≠ "") with
      | none => rfl
      | some callId =>
        obtain ⟨hsome, hnamed⟩ := Option.filter_eq_some_iff.1 hcall
        exact absurd ⟨htool, not_lt.1 hnew, not_lt.1 hshort, hsome, of_decide_eq_true hnamed⟩ (h callId)
  · rfl

/-- When the text that is due stays the same the second time. -/
theorem agedText_settles_iff : (if revPosition < aging.microtoolEnd then
      if hasReader (readerName callId) then aging.SettlesByReference hasReader callId m.text
      else aging.SettlesBriefly hasReader "Old result" 150 m.text
    else aging.SettlesBriefly hasReader "Historical result" 100 m.text) ↔
      ((aging.agedText hasReader revPosition callId m.text).utf8ByteSize < aging.compressThreshold ∨
        aging.agedText hasReader revPosition callId (aging.agedText hasReader revPosition callId m.text) =
          aging.agedText hasReader revPosition callId m.text) ∧
      ∀ name, hasReader name = true → Quotes m.text name →
        Quotes (aging.agedText hasReader revPosition callId m.text) name := by
  unfold agedText
  split_ifs with hmicro hreader
  · unfold SettlesByReference
    simp only [compressedText_inj, utf8ByteSize_compressedText, quotes_compressedText_iff]
  · unfold SettlesBriefly
    simp only [briefText_fixed_iff, utf8ByteSize_briefText,
      quotes_briefText_iff (show backquote ∉ "Old result".toList by decide)]
  · unfold SettlesBriefly
    simp only [briefText_fixed_iff, utf8ByteSize_briefText,
      quotes_briefText_iff (show backquote ∉ "Historical result".toList by decide)]

/-- A text that is the same again is as long as before. -/
theorem utf8ByteSize_of_agedText_fixed {text : String}
    (h : aging.agedText hasReader revPosition callId (aging.agedText hasReader revPosition callId text) =
      aging.agedText hasReader revPosition callId text) :
    (aging.agedText hasReader revPosition callId text).utf8ByteSize = text.utf8ByteSize := by
  unfold agedText at h ⊢
  split_ifs at h ⊢
  · exact compressedText_inj.1 h
  · exact (briefText_inj.1 h).1
  · exact (briefText_inj.1 h).1

/-- **One message**: it settles exactly if it gets no longer, keeps its readers, and stays the second time. -/
theorem settles_iff : aging.Settles hasReader revPosition m ↔
    (aging.agedAt hasReader revPosition m).text.utf8ByteSize ≤ m.text.utf8ByteSize ∧
      (∀ name, hasReader name = true → Quotes m.text name → Quotes (aging.agedAt hasReader revPosition m).text name) ∧
      aging.agedAt hasReader revPosition (aging.agedAt hasReader revPosition m) =
        aging.agedAt hasReader revPosition m := by
  by_cases hdue : ∃ callId, aging.Due revPosition m callId
  · obtain ⟨callId, hdue⟩ := hdue
    have hsettles : aging.Settles hasReader revPosition m ↔
        if revPosition < aging.microtoolEnd then
          if hasReader (readerName callId) then aging.SettlesByReference hasReader callId m.text
          else aging.SettlesBriefly hasReader "Old result" 150 m.text
        else aging.SettlesBriefly hasReader "Historical result" 100 m.text := by
      refine ⟨fun h => h callId hdue, fun h callId' hdue' => ?_⟩
      obtain rfl := Option.some.inj (hdue.call.symm.trans hdue'.call)
      exact h
    rw [hsettles, agedText_settles_iff, agedAt_of_due hdue]
    generalize hnew : aging.agedText hasReader revPosition callId m.text = new
    have hagain : aging.agedAt hasReader revPosition { m with content := .text new } =
        { m with content := .text new } ↔
          new.utf8ByteSize < aging.compressThreshold ∨ aging.agedText hasReader revPosition callId new = new := by
      by_cases hshort : new.utf8ByteSize < aging.compressThreshold
      · refine iff_of_true (agedAt_of_not_due fun _ hdue' => ?_) (.inl hshort)
        exact absurd hdue'.long (not_le.2 hshort)
      · have hdue' : aging.Due revPosition { m with content := .text new } callId :=
          ⟨hdue.tool, hdue.old, not_lt.1 hshort, hdue.call, hdue.named⟩
        rw [agedAt_of_due hdue']
        simp only [ChatMessage.mk.injEq, ChatContent.text.injEq, true_and, and_true, hshort, false_or]
        exact Iff.rfl
    rw [hagain]
    constructor
    · rintro ⟨hsame, hquotes⟩
      refine ⟨?_, hquotes, hsame⟩
      rcases hsame with hshort | hfixed
      · exact (hshort.trans_le hdue.long).le
      · rw [← hnew] at hfixed ⊢
        exact (utf8ByteSize_of_agedText_fixed hfixed).le
    · exact fun h => ⟨h.2.2, h.2.1⟩
  · have hnot : ∀ callId, ¬aging.Due revPosition m callId := fun callId h => hdue ⟨callId, h⟩
    have hstays := @agedAt_of_not_due aging hasReader _ _ hnot
    rw [hstays, hstays]
    exact iff_of_true (fun callId h => absurd h (hnot callId)) ⟨le_rfl, fun _ _ h => h, rfl⟩

theorem getElem?_agedList {before after : List ChatMessage} {m : ChatMessage} :
    (aging.agedList hasReader (before ++ m :: after))[before.length]? =
      some (aging.agedAt hasReader (toolCount after) m) := by
  induction before with
  | nil => rfl
  | cons first before ih => exact ih

end

/-- **When an aging is stable.** -/
theorem agesStably_iff (aging : ToolResultAging) (hasReader : String → Bool) (messages : List ChatMessage) :
    aging.AgesStably hasReader messages ↔ AllAt (aging.Settles hasReader) messages := by
  have hall : AllAt (aging.Settles hasReader) messages ↔
      List.Forall₂ (fun m m' => m'.text.utf8ByteSize ≤ m.text.utf8ByteSize) messages
          (aging.agedList hasReader messages) ∧
        List.Forall₂ (fun m m' => ∀ name, hasReader name = true → Quotes m.text name → Quotes m'.text name)
          messages (aging.agedList hasReader messages) ∧
        aging.agedList hasReader (aging.agedList hasReader messages) = aging.agedList hasReader messages := by
    rw [forall₂_agedList_iff, forall₂_agedList_iff, agedList_agedList_iff, ← allAt_and, ← allAt_and]
    exact allAt_congr (fun _ _ => settles_iff) messages
  rw [hall]
  constructor
  · rintro ⟨-, hshorter, hreferences, hagain⟩
    rw [ageToolResults_eq] at hshorter hreferences
    rw [ageToolResults_eq, ageToolResults_eq] at hagain
    exact ⟨hshorter, hreferences, hagain⟩
  · rintro ⟨hshorter, hreferences, hagain⟩
    rw [← ageToolResults_eq] at hshorter hreferences
    refine ⟨fun before m after hsplit hstays => ?_, hshorter, hreferences, ?_⟩
    · rw [ageToolResults_eq, hsplit, getElem?_agedList]
      rcases hstays with hother | hnew
      · rw [agedAt, if_neg hother]
      · rw [agedAt_of_lt hnew]
    · rw [ageToolResults_eq, ageToolResults_eq, hagain]

def toolMessage (text callId : String) : ChatMessage := ⟨"tool", .text text, none, none, some callId, none⟩

/-- A text of 13 bytes becomes a summary of 38. -/
theorem not_agesStably : ¬(ToolResultAging.mk 0 3 10).AgesStably (fun _ => false)
    [toolMessage "exit status 0" "call_0"] := by
  intro h
  have hshorter := (forall₂_cons.1 h.shorter).1
  exact absurd hshorter (by decide +kernel)

end ToolResultAging

end WildAgentOs.Core
