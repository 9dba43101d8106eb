import Mathlib
import WildAgentOs.Lib.EditScript
import WildAgentOs.Tools.ContentStore

/-!
# Unified differences as patches

`tools/workspace_monitor/diff_engine.rs`: the groups of the difference of two texts are shown as hunks.  The spans of a
hunk are taken from the first operation of its group and from the last one.

* `tokenizeLines`, `IsTextDiff`;
* `shownHunks`, `unifiedDiff_eq`, `hunksText_injective`, `SpansGroup`, `unifiedDiff_isPatch_iff`.
-/

namespace WildAgentOs.Tools.DiffEngine

open EditScript List Function

/-! ### Differences by lines -/

/-- The lines of a text with their line breaks, behind the start of a line. -/
def tokenize (start : List Char) : List Char → List (List Char)
  | [] => if start = [] then [] else [start]
  | '\r' :: '\n' :: s => (start ++ ['\r', '\n']) :: tokenize [] s
  | '\r' :: s => (start ++ ['\r']) :: tokenize [] s
  | '\n' :: s => (start ++ ['\n']) :: tokenize [] s
  | c :: s => tokenize (start ++ [c]) s

/-- The lines that two texts are compared by. -/
def tokenizeLines (text : String) : List String := (tokenize [] text.toList).map String.ofList

section

variable {α : Type*}

def tagOf : Edit α → DiffTag
  | .equal _ => .equal
  | .delete _ => .delete
  | .insert _ => .insert
  | .replace _ _ => .replace

/-- The operation of an edit at a place of the old and one of the new lines. -/
def opOf (i j : ℕ) (edit : Edit α) : DiffOp := ⟨tagOf edit, (i, i + edit.old.length), (j, j + edit.new.length)⟩

def opsOf : ℕ → ℕ → List (Edit α) → List DiffOp
  | _, _, [] => []
  | i, j, edit :: edits => opOf i j edit :: opsOf (i + edit.old.length) (j + edit.new.length) edits

def groupsOf : ℕ → ℕ → List (Segment α) → List (List DiffOp)
  | _, _, [] => []
  | i, j, segment :: segments =>
    opsOf (i + segment.gap.length) (j + segment.gap.length) segment.edits ::
      groupsOf (i + segment.gap.length + (oldOf segment.edits).length)
        (j + segment.gap.length + (newOf segment.edits).length) segments

end

/-- The lines of an operation. -/
def changesOf (old new : List String) (op : DiffOp) : List (ChangeTag × String) :=
  let gone := (old.take op.oldRange.2).drop op.oldRange.1
  let added := (new.take op.newRange.2).drop op.newRange.1
  match op.tag with
  | .equal => gone.map (.equal, ·)
  | .delete => gone.map (.delete, ·)
  | .insert => added.map (.insert, ·)
  | .replace => gone.map (.delete, ·) ++ added.map (.insert, ·)

/-- **A difference**: its operations are an edit script, so are its groups with what is the same between them, and the
changes of an operation are its lines. -/
structure IsTextDiff (diff : TextDiff) (old new : List String) : Prop where
  ops : ∃ edits, oldOf edits = old ∧ newOf edits = new ∧ diff.ops = opsOf 0 0 edits
  groupedOps : ∀ n, ∃ segments rest, (∀ segment ∈ segments, segment.edits ≠ []) ∧ olds segments rest = old ∧
    news segments rest = new ∧ diff.groupedOps n = groupsOf 0 0 segments
  iterChanges : ∀ op, op.oldRange.2 ≤ old.length → op.newRange.2 ≤ new.length →
    diff.iterChanges op = changesOf old new op

/-! ### Patches as texts -/

def lineTag : Line String → ChangeTag
  | .context _ => .equal
  | .deleted _ => .delete
  | .inserted _ => .insert

def lineText (line : Line String) : String := sigil (lineTag line) ++ line.value ++ "\n"

def hunkText (hunk : Hunk String) : String :=
  "@@ -" ++ toString hunk.oldStart ++ "," ++ toString hunk.oldLines ++ " +" ++ toString hunk.newStart ++ "," ++
    toString hunk.newLines ++ " @@\n" ++ String.join (hunk.body.map lineText)

def hunksText (hunks : List (Hunk String)) : String := String.join (hunks.map hunkText)

/-- The two lines that name the versions. -/
def fileHeader (filePath : String) (oldVersion newVersion : ℕ) : String :=
  "--- " ++ filePath ++ " (v" ++ toString oldVersion ++ ")\n+++ " ++ filePath ++ " (v" ++ toString newVersion ++ ")\n"

/-- A line without line breaks. -/
def IsLine (line : String) : Prop := '\n' ∉ line.toList ∧ '\r' ∉ line.toList

/-- **A text is a patch of two lists of lines**: behind the names of the versions it has hunks that are a patch. -/
def IsPatchText (old new : List String) (filePath : String) (oldVersion newVersion : ℕ) (text : String) : Prop :=
  ∃ hunks, text = fileHeader filePath oldVersion newVersion ++ hunksText hunks ∧ IsPatch old new hunks

/-- The spans of the first and the last operation are those of the whole group: behind the first one no old line is
covered, and before the last one no new line. -/
def SpansGroup (group : List DiffOp) : Prop :=
  (∀ op ∈ group.tail, op.oldRange.1 = op.oldRange.2) ∧ ∀ op ∈ group.dropLast, op.newRange.1 = op.newRange.2

/-- The hunk that is shown of a group. -/
def shownHunk (group : List DiffOp) (body : List (Line String)) : Hunk String :=
  { oldStart := (groupSpan group).1.1 + 1
    oldLines := (groupSpan group).1.2 - (groupSpan group).1.1
    newStart := (groupSpan group).2.1 + 1
    newLines := (groupSpan group).2.2 - (groupSpan group).2.1
    body }

def shownHunks : ℕ → ℕ → List (Segment String) → List (Hunk String)
  | _, _, [] => []
  | i, j, segment :: segments =>
    shownHunk (opsOf (i + segment.gap.length) (j + segment.gap.length) segment.edits) (linesOf segment.edits) ::
      shownHunks (i + segment.gap.length + (oldOf segment.edits).length)
        (j + segment.gap.length + (newOf segment.edits).length) segments

/-- The lines as which a list of lines is compared: no line is like an empty one. -/
def comparedLines (lines : List String) : List String := if lines = [] then [""] else lines

/-- A token without its line break. -/
def chomp (token : String) : String := String.ofList token.toList.dropLast

/-! ### The lines of a text -/

@[simp] theorem chomp_append (line : String) : chomp (line ++ "\n") = line := by
  simp [chomp]

theorem tokenize_line {line : List Char} (hbreak : '\n' ∉ line) (hreturn : '\r' ∉ line) (start s : List Char) :
    tokenize start (line ++ '\n' :: s) = (start ++ line ++ ['\n']) :: tokenize [] s := by
  induction line generalizing start with
  | nil => simp [tokenize]
  | cons c line ih =>
    simp only [mem_cons, not_or] at hbreak hreturn
    rw [cons_append, tokenize, ih hbreak.2 hreturn.2]
    · simp
    · rintro rest rfl
      exact absurd rfl hreturn.1
    · rintro rfl
      exact absurd rfl hreturn.1
    · rintro rfl
      exact absurd rfl hbreak.1

theorem toList_textOf (lines : List String) :
    (textOf lines).toList = (comparedLines lines).flatMap fun line => line.toList ++ ['\n'] := by
  unfold textOf comparedLines
  split_ifs with hnil
  · simp [hnil]
  · induction lines with
    | nil => exact absurd rfl hnil
    | cons line lines ih =>
      cases lines with
      | nil => simp
      | cons next lines =>
        have hrest := ih (cons_ne_nil next lines)
        rw [String.intercalate_cons_cons, flatMap_cons, ← hrest]
        simp

variable {lines : List String}

theorem isLine_comparedLines (h : ∀ line ∈ lines, IsLine line) : ∀ line ∈ comparedLines lines, IsLine line := by
  unfold comparedLines
  split_ifs with hnil
  · simp [IsLine]
  · exact h

/-- The tokens of lines are the lines with their breaks. -/
theorem tokenizeLines_textOf (h : ∀ line ∈ lines, IsLine line) :
    tokenizeLines (textOf lines) = (comparedLines lines).map (· ++ "\n") := by
  unfold tokenizeLines
  rw [toList_textOf]
  have hlines := isLine_comparedLines h
  generalize comparedLines lines = tokens at hlines
  induction tokens with
  | nil => rfl
  | cons token tokens ih =>
    obtain ⟨hbreak, hreturn⟩ := hlines token mem_cons_self
    rw [flatMap_cons, append_assoc, singleton_append, tokenize_line hbreak hreturn, map_cons,
      ih fun line hline => hlines line (mem_cons_of_mem token hline), map_cons]
    simp [String.ofList_append]

/-! ### The text of a difference -/

/-- A token is a line and its break. -/
def IsToken (token : String) : Prop := ∃ line, IsLine line ∧ token = line ++ "\n"

theorem isToken_map (h : ∀ line ∈ lines, IsLine line) : ∀ token ∈ lines.map (· ++ "\n"), IsToken token := by
  intro token htoken
  obtain ⟨line, hline, rfl⟩ := mem_map.1 htoken
  exact ⟨line, h line hline, rfl⟩

theorem map_chomp (lines : List String) : (lines.map (· ++ "\n")).map chomp = lines := by
  simp [comp_def]

/-- A change of one token is one line. -/
theorem changeText_token {tag : ChangeTag} {token : String} (h : IsToken token) :
    changeText (tag, token) = sigil tag ++ chomp token ++ "\n" := by
  obtain ⟨line, ⟨hbreak, -⟩, rfl⟩ := h
  unfold changeText
  have hkept : line.toList.reverse.dropWhile (· = '\n') = line.toList.reverse := by
    rw [dropWhile_eq_self_iff]
    intro hpos
    simp only [decide_eq_true_eq]
    intro hhead
    exact hbreak (hhead ▸ mem_reverse.1 (getElem_mem hpos))
  simp [hkept, splitOn_eq_singleton hbreak]

theorem changesOf_opOf (before after before' after' : List String) (edit : Edit String) :
    changesOf (before ++ (edit.old ++ after)) (before' ++ (edit.new ++ after'))
      (opOf before.length before'.length edit) = edit.lines.map fun line => (lineTag line, line.value) := by
  have hold : ((before ++ (edit.old ++ after)).take (before.length + edit.old.length)).drop before.length =
      edit.old := by
    simp [take_append]
  have hnew : ((before' ++ (edit.new ++ after')).take (before'.length + edit.new.length)).drop before'.length =
      edit.new := by
    simp [take_append]
  unfold changesOf opOf
  simp only [hold, hnew]
  cases edit <;> simp [tagOf, Edit.lines, Edit.old, Edit.new, lineTag, Line.value, comp_def]

section

variable {diff : TextDiff} {old new : List String}

/-- The changes of a group are the lines of its edits. -/
theorem changes_eq_lines (hdiff : IsTextDiff diff old new) (holdTokens : ∀ token ∈ old, IsToken token)
    (hnewTokens : ∀ token ∈ new, IsToken token) (edits : List (Edit String)) (before after before' after' : List String)
    (hold : before ++ (oldOf edits ++ after) = old) (hnew : before' ++ (newOf edits ++ after') = new) :
    (opsOf before.length before'.length edits).flatMap (fun op => (diff.iterChanges op).map changeText) =
      (linesOf (edits.map (Edit.map chomp))).map lineText := by
  induction edits generalizing before before' with
  | nil => rfl
  | cons edit edits ih =>
    rw [oldOf_cons, append_assoc] at hold
    rw [newOf_cons, append_assoc] at hnew
    have hrest := ih (before ++ edit.old) (before' ++ edit.new) (by rw [← hold, append_assoc])
      (by rw [← hnew, append_assoc])
    have hchanges := hdiff.iterChanges (opOf before.length before'.length edit)
      (by simp [opOf, ← hold]) (by simp [opOf, ← hnew])
    have hlines := changesOf_opOf before (oldOf edits ++ after) before' (newOf edits ++ after') edit
    rw [hold, hnew, ← hchanges] at hlines
    simp only [length_append] at hrest
    rw [opsOf, flatMap_cons, hrest, hlines, map_cons]
    simp only [linesOf, flatMap_cons, map_append, map_map, Edit.lines_map, append_cancel_right_eq]
    refine map_congr_left fun line hline => ?_
    have htoken : IsToken line.value := by
      rcases Edit.value_mem_of_mem_lines hline with hmem | hmem
      · exact holdTokens _ (by simp [← hold, hmem])
      · exact hnewTokens _ (by simp [← hnew, hmem])
    have htag : lineTag (line.map chomp) = lineTag line := by
      cases line <;> rfl
    simp only [comp_apply, changeText_token htoken, lineText, htag, Line.value_map]

variable {α β : Type*}

theorem opsOf_map (f : α → β) (i j : ℕ) (edits : List (Edit α)) :
    opsOf i j (edits.map (Edit.map f)) = opsOf i j edits := by
  induction edits generalizing i j with
  | nil => rfl
  | cons edit edits ih =>
    have hop : opOf i j (edit.map f) = opOf i j edit := by
      cases edit <;> simp [opOf, tagOf, Edit.map, Edit.old, Edit.new]
    simp only [map_cons, opsOf, hop, Edit.old_map, Edit.new_map, length_map, ih]

theorem groupsOf_map (f : α → β) (i j : ℕ) (segments : List (Segment α)) :
    groupsOf i j (segments.map (Segment.map f)) = groupsOf i j segments := by
  induction segments generalizing i j with
  | nil => rfl
  | cons segment segments ih =>
    simp only [map_cons, groupsOf, Segment.map, opsOf_map, oldOf_map, newOf_map, length_map, ih]

def groupText (diff : TextDiff) (group : List DiffOp) : String :=
  let (a, b) := groupSpan group
  "@@ -" ++ toString (a.1 + 1) ++ "," ++ toString (a.2 - a.1) ++ " +" ++ toString (b.1 + 1) ++ "," ++
    toString (b.2 - b.1) ++ " @@\n" ++
    String.join (group.flatMap fun op => (diff.iterChanges op).map changeText)

theorem map_groupText (hdiff : IsTextDiff diff old new) (holdTokens : ∀ token ∈ old, IsToken token)
    (hnewTokens : ∀ token ∈ new, IsToken token) (segments : List (Segment String)) (rest before before' : List String)
    (hold : before ++ olds segments rest = old) (hnew : before' ++ news segments rest = new) :
    (groupsOf before.length before'.length segments).map (groupText diff) =
      (shownHunks before.length before'.length (segments.map (Segment.map chomp))).map hunkText := by
  induction segments generalizing before before' with
  | nil => rfl
  | cons segment segments ih =>
    rw [olds_cons, ← append_assoc before] at hold
    rw [news_cons, ← append_assoc before'] at hnew
    have hlines := changes_eq_lines hdiff holdTokens hnewTokens segment.edits _ _ _ _ hold hnew
    have hrest := ih (before ++ segment.gap ++ oldOf segment.edits) (before' ++ segment.gap ++ newOf segment.edits)
      (by rw [← hold, append_assoc]) (by rw [← hnew, append_assoc])
    simp only [length_append] at hlines hrest
    simp only [groupsOf, shownHunks, map_cons, Segment.map, length_map, opsOf_map, oldOf_map, newOf_map, hrest]
    simp only [groupText, hunkText, shownHunk, hlines]

end

/-- **What `unified_diff` shows** are the spans and the lines of the groups. -/
theorem unifiedDiff_eq {env : ContentEnv} {old new : List String}
    (hdiff : IsTextDiff (env.fromLines (textOf old) (textOf new)) (tokenizeLines (textOf old))
      (tokenizeLines (textOf new))) (hold : ∀ line ∈ old, IsLine line) (hnew : ∀ line ∈ new, IsLine line)
    (filePath : String) (oldVersion newVersion : ℕ) :
    ∃ segments rest, (∀ segment ∈ segments, segment.edits ≠ []) ∧ olds segments rest = comparedLines old ∧
      news segments rest = comparedLines new ∧
      (env.fromLines (textOf old) (textOf new)).groupedOps 3 = groupsOf 0 0 segments ∧
      unifiedDiff env old new filePath oldVersion newVersion =
        fileHeader filePath oldVersion newVersion ++ hunksText (shownHunks 0 0 segments) := by
  obtain ⟨segments, rest, hedits, holds, hnews, hgroups⟩ := hdiff.groupedOps 3
  have htext : unifiedDiff env old new filePath oldVersion newVersion =
      fileHeader filePath oldVersion newVersion ++ String.join
        ((groupsOf 0 0 segments).map (groupText (env.fromLines (textOf old) (textOf new)))) := by
    rw [← hgroups]
    rfl
  rw [tokenizeLines_textOf hold, tokenizeLines_textOf hnew] at hdiff
  rw [tokenizeLines_textOf hold] at holds
  rw [tokenizeLines_textOf hnew] at hnews
  have hhunks := map_groupText hdiff (isToken_map (isLine_comparedLines hold)) (isToken_map (isLine_comparedLines hnew))
    segments rest [] [] holds hnews
  simp only [length_nil] at hhunks
  refine ⟨segments.map (Segment.map chomp), rest.map chomp, ?_, ?_, ?_, ?_, ?_⟩
  · intro segment hsegment
    obtain ⟨segment, hmem, rfl⟩ := mem_map.1 hsegment
    simpa [Segment.map] using hedits segment hmem
  · rw [olds_map, holds, map_chomp]
  · rw [news_map, hnews, map_chomp]
  · rw [hgroups, groupsOf_map]
  · rw [htext, hunksText, ← hhunks]

/-! ### A text shows one list of hunks at most -/

/-- The first line of a hunk. -/
def headerChars (hunk : Hunk String) : List Char :=
  "@@ -".toList ++ (Nat.toDigits 10 hunk.oldStart ++ ',' :: (Nat.toDigits 10 hunk.oldLines ++ ' ' ::
    ('+' :: (Nat.toDigits 10 hunk.newStart ++ ',' :: (Nat.toDigits 10 hunk.newLines ++ ' ' :: "@@".toList)))))

def lineChars (line : Line String) : List Char := (sigil (lineTag line)).toList ++ line.value.toList

def hunkLines (hunk : Hunk String) : List (List Char) := headerChars hunk :: hunk.body.map lineChars

theorem toList_hunksText (hunks : List (Hunk String)) :
    (hunksText hunks).toList = (hunks.flatMap hunkLines).flatMap (· ++ ['\n']) := by
  unfold hunksText
  rw [String.toList_join, flatMap_map, flatMap_assoc]
  refine flatMap_congr fun hunk _ => ?_
  simp [hunkText, hunkLines, headerChars, String.toList_join, flatMap_map, lineText, lineChars,
    Nat.toString_eq_repr, Nat.toList_repr]

/-- Lines are told apart by their breaks. -/
theorem eq_of_flatMap_break {ls ls' : List (List Char)} (hls : ∀ l ∈ ls, '\n' ∉ l) (hls' : ∀ l ∈ ls', '\n' ∉ l)
    (h : ls.flatMap (· ++ ['\n']) = ls'.flatMap (· ++ ['\n'])) : ls = ls' := by
  induction ls generalizing ls' with
  | nil =>
    cases ls' with
    | nil => rfl
    | cons l' ls' => simp at h
  | cons l ls ih =>
    cases ls' with
    | nil => simp at h
    | cons l' ls' =>
      simp only [flatMap_cons, append_assoc, singleton_append] at h
      obtain rfl := Text.eq_of_append_cons h (hls l mem_cons_self) (hls' l' mem_cons_self)
      have htail := (cons.inj (append_cancel_left h)).2
      rw [ih (fun m hm => hls m (mem_cons_of_mem l hm)) (fun m hm => hls' m (mem_cons_of_mem l hm)) htail]

variable {c : Char}

theorem not_mem_toDigits (hc : c.isDigit = false) (n : ℕ) : c ∉ Nat.toDigits 10 n := by
  intro hmem
  rw [Nat.isDigit_of_mem_toDigits (by decide) (by decide) hmem] at hc
  cases hc

/-- A number is told from what follows it. -/
theorem eq_of_toDigits_append (hc : c.isDigit = false) {n n' : ℕ} {s s' : List Char}
    (h : Nat.toDigits 10 n ++ c :: s = Nat.toDigits 10 n' ++ c :: s') : n = n' ∧ s = s' := by
  have hdigits := Text.eq_of_append_cons h (not_mem_toDigits hc n) (not_mem_toDigits hc n')
  have hn : n = n' := by
    apply Nat.repr_inj.1
    apply String.toList_inj.1
    rw [Nat.toList_repr, Nat.toList_repr, hdigits]
  subst hn
  exact ⟨rfl, (cons.inj (append_cancel_left h)).2⟩

theorem headerChars_inj {hunk hunk' : Hunk String} (h : headerChars hunk = headerChars hunk') :
    hunk.oldStart = hunk'.oldStart ∧ hunk.oldLines = hunk'.oldLines ∧ hunk.newStart = hunk'.newStart ∧
      hunk.newLines = hunk'.newLines := by
  obtain ⟨holdStart, h⟩ := eq_of_toDigits_append (by decide) (append_cancel_left h)
  obtain ⟨holdLines, h⟩ := eq_of_toDigits_append (by decide) h
  obtain ⟨hnewStart, h⟩ := eq_of_toDigits_append (by decide) (cons.inj h).2
  obtain ⟨hnewLines, -⟩ := eq_of_toDigits_append (by decide) h
  exact ⟨holdStart, holdLines, hnewStart, hnewLines⟩

theorem lineChars_injective : Injective lineChars := by
  intro line line' h
  cases line <;> cases line' <;>
    simp_all [lineChars, lineTag, sigil, Line.value, String.toList_inj]

theorem headerChars_ne_lineChars (hunk : Hunk String) (line : Line String) : headerChars hunk ≠ lineChars line := by
  cases line <;> simp [headerChars, lineChars, lineTag, sigil]

variable {hunks hunks' : List (Hunk String)}

/-- The lines of a hunk end where the next hunk starts. -/
theorem eq_of_body_append {body body' : List (Line String)}
    (h : body.map lineChars ++ hunks.flatMap hunkLines = body'.map lineChars ++ hunks'.flatMap hunkLines) :
    body = body' ∧ hunks.flatMap hunkLines = hunks'.flatMap hunkLines := by
  have hstart : ∀ (hunks : List (Hunk String)) (line : Line String) (ls : List (List Char)),
      hunks.flatMap hunkLines ≠ lineChars line :: ls := by
    intro hunks line ls h
    cases hunks with
    | nil => cases h
    | cons hunk hunks => exact headerChars_ne_lineChars hunk line (cons.inj h).1
  induction body generalizing body' with
  | nil =>
    cases body' with
    | nil => exact ⟨rfl, h⟩
    | cons line' body' => exact absurd h (hstart hunks line' _)
  | cons line body ih =>
    cases body' with
    | nil => exact absurd h.symm (hstart hunks' line _)
    | cons line' body' =>
      obtain ⟨hline, htail⟩ := cons.inj h
      obtain ⟨rfl, hhunks⟩ := ih htail
      rw [lineChars_injective hline]
      exact ⟨rfl, hhunks⟩

theorem flatMap_hunkLines_injective (h : hunks.flatMap hunkLines = hunks'.flatMap hunkLines) : hunks = hunks' := by
  induction hunks generalizing hunks' with
  | nil =>
    cases hunks' with
    | nil => rfl
    | cons hunk' hunks' => cases h
  | cons hunk hunks ih =>
    cases hunks' with
    | nil => cases h
    | cons hunk' hunks' =>
      obtain ⟨hheader, htail⟩ := cons.inj h
      obtain ⟨hold, hold', hnew, hnew'⟩ := headerChars_inj hheader
      obtain ⟨hbody, hrest⟩ := eq_of_body_append htail
      rw [ih hrest]
      cases hunk
      cases hunk'
      simp_all

/-- The lines of hunks have no breaks of their own. -/
def BreakFree (hunks : List (Hunk String)) : Prop := ∀ hunk ∈ hunks, ∀ line ∈ hunk.body, '\n' ∉ line.value.toList

theorem not_mem_hunkLines {hunks : List (Hunk String)} (h : BreakFree hunks) :
    ∀ l ∈ hunks.flatMap hunkLines, '\n' ∉ l := by
  intro l hl
  obtain ⟨hunk, hhunk, hl⟩ := mem_flatMap.1 hl
  rcases mem_cons.1 hl with rfl | hl
  · simp [headerChars, not_mem_toDigits]
  · obtain ⟨line, hline, rfl⟩ := mem_map.1 hl
    have hvalue := h hunk hhunk line hline
    cases line <;> simp_all [lineChars, lineTag, sigil]

/-- **A text shows one list of hunks at most**, as long as their lines have no breaks. -/
theorem hunksText_injective (hfree : BreakFree hunks) (hfree' : BreakFree hunks')
    (h : hunksText hunks = hunksText hunks') : hunks = hunks' := by
  have hlist := congrArg String.toList h
  rw [toList_hunksText, toList_hunksText] at hlist
  exact flatMap_hunkLines_injective (eq_of_flatMap_break (not_mem_hunkLines hfree) (not_mem_hunkLines hfree') hlist)

/-! ### The spans of a group -/

section

variable {edits : List (Edit String)} {segments : List (Segment String)} {i j : ℕ}

theorem opsOf_concat (i j : ℕ) (edits : List (Edit String)) (edit : Edit String) : opsOf i j (edits ++ [edit]) =
      opsOf i j edits ++ [opOf (i + (oldOf edits).length) (j + (newOf edits).length) edit] := by
  induction edits generalizing i j with
  | nil => rfl
  | cons first edits ih =>
    rw [cons_append, opsOf, ih, opsOf, oldOf_cons, newOf_cons, length_append, length_append,
      Nat.add_assoc, Nat.add_assoc, cons_append]

theorem oldRange_empty_iff : (∀ op ∈ opsOf i j edits, op.oldRange.1 = op.oldRange.2) ↔ oldOf edits = [] := by
  induction edits generalizing i j with
  | nil => simp [opsOf]
  | cons edit edits ih => simp [opsOf, ih, opOf]

theorem newRange_empty_iff : (∀ op ∈ opsOf i j edits, op.newRange.1 = op.newRange.2) ↔ newOf edits = [] := by
  induction edits generalizing i j with
  | nil => simp [opsOf]
  | cons edit edits ih => simp [opsOf, ih, opOf]

theorem shownHunk_cons (i j : ℕ) (edit : Edit String) (edits : List (Edit String)) (body : List (Line String)) :
    (shownHunk (opsOf i j (edit :: edits)) body).oldStart = i + 1 ∧
      (shownHunk (opsOf i j (edit :: edits)) body).oldLines = edit.old.length := by
  simp [shownHunk, groupSpan, opsOf, opOf]

theorem shownHunk_concat (i j : ℕ) (edit : Edit String) (edits : List (Edit String)) (body : List (Line String)) :
    (shownHunk (opsOf i j (edits ++ [edit])) body).newStart = j + (newOf edits).length + 1 ∧
      (shownHunk (opsOf i j (edits ++ [edit])) body).newLines = edit.new.length := by
  simp [shownHunk, groupSpan, opsOf_concat, opOf]

/-- The old span is that of the group if and only if nothing follows the first operation. -/
theorem oldLines_eq_iff (hedits : edits ≠ []) (body : List (Line String)) :
    (shownHunk (opsOf i j edits) body).oldLines = (oldOf edits).length ↔
      ∀ op ∈ (opsOf i j edits).tail, op.oldRange.1 = op.oldRange.2 := by
  cases edits with
  | nil => exact absurd rfl hedits
  | cons edit edits =>
    rw [(shownHunk_cons i j edit edits body).2, opsOf, tail_cons, oldRange_empty_iff]
    simp

/-- The new span is that of the group if and only if nothing precedes the last operation. -/
theorem newLines_eq_iff (hedits : edits ≠ []) (body : List (Line String)) :
    (shownHunk (opsOf i j edits) body).newLines = (newOf edits).length ↔
      ∀ op ∈ (opsOf i j edits).dropLast, op.newRange.1 = op.newRange.2 := by
  induction edits using reverseRecOn with
  | nil => exact absurd rfl hedits
  | append_singleton edits edit =>
    rw [(shownHunk_concat i j edit edits body).2, opsOf_concat, dropLast_concat, newRange_empty_iff]
    simp

theorem shownHunk_eq (hedits : edits ≠ []) (hspans : SpansGroup (opsOf i j edits)) (body : List (Line String)) :
    shownHunk (opsOf i j edits) body = ⟨i + 1, (oldOf edits).length, j + 1, (newOf edits).length, body⟩ := by
  have hold := (oldLines_eq_iff hedits body).2 hspans.1
  have hnew := (newLines_eq_iff hedits body).2 hspans.2
  have holdStart : (shownHunk (opsOf i j edits) body).oldStart = i + 1 := by
    cases edits with
    | nil => exact absurd rfl hedits
    | cons edit edits => exact (shownHunk_cons i j edit edits body).1
  have hnewStart : (shownHunk (opsOf i j edits) body).newStart = j + 1 := by
    induction edits using reverseRecOn with
    | nil => exact absurd rfl hedits
    | append_singleton edits edit =>
      have hempty := hspans.2
      rw [opsOf_concat, dropLast_concat, newRange_empty_iff] at hempty
      rw [(shownHunk_concat i j edit edits body).1, hempty, length_nil]
  rw [← hold, ← hnew, ← holdStart, ← hnewStart]
  rfl

/-- Where all spans are right, the hunks are those of the script. -/
theorem shownHunks_eq_hunksOf (hedits : ∀ segment ∈ segments, segment.edits ≠ [])
    (hspans : ∀ group ∈ groupsOf i j segments, SpansGroup group) : shownHunks i j segments = hunksOf i j segments := by
  induction segments generalizing i j with
  | nil => rfl
  | cons segment segments ih =>
    rw [shownHunks, hunksOf, shownHunk_eq (hedits segment mem_cons_self) (hspans _ mem_cons_self),
      ih (fun later hlater => hedits later (mem_cons_of_mem segment hlater))
        fun group hgroup => hspans group (mem_cons_of_mem _ hgroup)]

/-- Where all numbers of lines are right, so are the spans. -/
theorem spansGroup_of_lengths (hedits : ∀ segment ∈ segments, segment.edits ≠ [])
    (hlengths : ∀ hunk ∈ shownHunks i j segments, hunk.old.length = hunk.oldLines ∧ hunk.new.length = hunk.newLines) :
    ∀ group ∈ groupsOf i j segments, SpansGroup group := by
  induction segments generalizing i j with
  | nil => simp [groupsOf]
  | cons segment segments ih =>
    intro group hgroup
    rcases mem_cons.1 hgroup with rfl | hgroup
    · obtain ⟨hold, hnew⟩ := hlengths _ mem_cons_self
      have hnonempty := hedits segment mem_cons_self
      constructor
      · rw [← oldLines_eq_iff hnonempty (linesOf segment.edits), ← hold]
        simp [Hunk.old, shownHunk]
      · rw [← newLines_eq_iff hnonempty (linesOf segment.edits), ← hnew]
        simp [Hunk.new, shownHunk]
    · exact ih (fun later hlater => hedits later (mem_cons_of_mem segment hlater))
        (fun hunk hhunk => hlengths hunk (mem_cons_of_mem _ hhunk)) group hgroup

/-- The lines of the hunks are those of the script in any case. -/
theorem map_body_shownHunks (i j : ℕ) (segments : List (Segment String)) :
    (shownHunks i j segments).map Hunk.body = (hunksOf i j segments).map Hunk.body := by
  induction segments generalizing i j with
  | nil => rfl
  | cons segment segments ih => simp [shownHunks, hunksOf, shownHunk, ih]

end

/-! ### When the text is a patch -/

section

variable {old new : List String} {hunks : List (Hunk String)} {segments : List (Segment String)}

theorem value_mem_of_mem_body {hunk : Hunk String} {line : Line String} (h : line ∈ hunk.body) :
    line.value ∈ hunk.old ∨ line.value ∈ hunk.new := by
  unfold Hunk.old Hunk.new
  cases line with
  | context a => exact .inl (mem_filterMap.2 ⟨.context a, h, rfl⟩)
  | deleted a => exact .inl (mem_filterMap.2 ⟨.deleted a, h, rfl⟩)
  | inserted a => exact .inr (mem_filterMap.2 ⟨.inserted a, h, rfl⟩)

/-- The lines of a patch are lines of the lists. -/
theorem breakFree_of_isPatch (hpatch : IsPatch old new hunks) (hold : ∀ line ∈ old, IsLine line)
    (hnew : ∀ line ∈ new, IsLine line) : BreakFree hunks := by
  intro hunk hhunk line hline
  have hfits := hpatch.fits hunk hhunk
  rcases value_mem_of_mem_body hline with hmem | hmem
  · rw [hfits.old] at hmem
    exact (hold _ (mem_of_mem_drop (mem_of_mem_take hmem))).1
  · rw [hfits.new] at hmem
    exact (hnew _ (mem_of_mem_drop (mem_of_mem_take hmem))).1

/-- What only depends on the lines of the hunks is the same for the hunks that are shown and those of the script. -/
theorem map_shownHunks {β : Type*} (f : List (Line String) → β) (segments : List (Segment String)) :
    (shownHunks 0 0 segments).map (fun hunk => f hunk.body) = (hunksOf 0 0 segments).map fun hunk => f hunk.body := by
  have hbody := congrArg (List.map f) (map_body_shownHunks 0 0 segments)
  simpa only [map_map, comp_def] using hbody

variable {rest : List String}

theorem breakFree_shownHunks (holds : ∀ line ∈ olds segments rest, IsLine line)
    (hnews : ∀ line ∈ news segments rest, IsLine line) : BreakFree (shownHunks 0 0 segments) := by
  have hfree := breakFree_of_isPatch (isPatch_hunksOf segments rest) holds hnews
  intro hunk hhunk line hline
  obtain ⟨hunk', hhunk', hbody⟩ := mem_map.1 (map_body_shownHunks 0 0 segments ▸ mem_map_of_mem hhunk)
  exact hfree hunk' hhunk' line (hbody ▸ hline)

theorem length_comparedLines (lines : List String) :
    (comparedLines lines).length = if lines = [] then 1 else lines.length := by
  unfold comparedLines
  split_ifs <;> rfl

/-- Only two empty lists, or two that are not, can be told apart as they are compared. -/
theorem nil_iff_of_isPatch (holds : olds segments rest = comparedLines old)
    (hnews : news segments rest = comparedLines new) (hpatch : IsPatch old new (shownHunks 0 0 segments)) :
    old = [] ↔ new = [] := by
  have hlength := hpatch.length_add
  have hscript := length_add_hunksOf segments rest
  have hsameOld := map_shownHunks (fun body => (body.filterMap Line.old?).length) segments
  have hsameNew := map_shownHunks (fun body => (body.filterMap Line.new?).length) segments
  unfold Hunk.old Hunk.new at hlength hscript
  rw [hsameOld, hsameNew] at hlength
  rw [holds, hnews, length_comparedLines, length_comparedLines] at hscript
  split_ifs at hscript with hnew hold hold
  · exact iff_of_true hold hnew
  · rw [hnew, length_nil] at hlength
    omega
  · rw [hold, length_nil] at hlength
    omega
  · exact iff_of_false hold hnew

/-- What an operation without lines is. -/
def CoversNothing (op : DiffOp) : Prop := op.oldRange.1 = op.oldRange.2 ∧ op.newRange.1 = op.newRange.2

theorem coversNothing_iff (i j : ℕ) (segments : List (Segment String)) :
    (∀ group ∈ groupsOf i j segments, ∀ op ∈ group, CoversNothing op) ↔
      ∀ hunk ∈ hunksOf i j segments, hunk.old = [] ∧ hunk.new = [] := by
  induction segments generalizing i j with
  | nil => simp [groupsOf, hunksOf]
  | cons segment segments ih =>
    have hhead : (∀ op ∈ opsOf (i + segment.gap.length) (j + segment.gap.length) segment.edits, CoversNothing op) ↔
        oldOf segment.edits = [] ∧ newOf segment.edits = [] := by
      rw [← oldRange_empty_iff (i := i + segment.gap.length) (j := j + segment.gap.length),
        ← newRange_empty_iff (i := i + segment.gap.length) (j := j + segment.gap.length)]
      exact ⟨fun h => ⟨fun op hop => (h op hop).1, fun op hop => (h op hop).2⟩,
        fun h op hop => ⟨h.1 op hop, h.2 op hop⟩⟩
    simp only [groupsOf, hunksOf, forall_mem_cons, hhead, ih, Hunk.old, Hunk.new, filterMap_old?_linesOf,
      filterMap_new?_linesOf]

section

variable {env : ContentEnv} {filePath : String} {oldVersion newVersion : ℕ}

/-- A text that is a patch shows the hunks that are shown. -/
theorem isPatch_shownHunks (hold : ∀ line ∈ old, IsLine line) (hnew : ∀ line ∈ new, IsLine line)
    (holds : olds segments rest = comparedLines old) (hnews : news segments rest = comparedLines new)
    (h : IsPatchText old new filePath oldVersion newVersion
      (fileHeader filePath oldVersion newVersion ++ hunksText (shownHunks 0 0 segments))) :
    IsPatch old new (shownHunks 0 0 segments) := by
  obtain ⟨hunks, hsame, hpatch⟩ := h
  have hfree : BreakFree (shownHunks 0 0 segments) :=
    breakFree_shownHunks (holds ▸ isLine_comparedLines hold) (hnews ▸ isLine_comparedLines hnew)
  rwa [hunksText_injective hfree (breakFree_of_isPatch hpatch hold hnew) ((String.append_right_inj _).1 hsame)]

/-- Only a difference with right spans is a patch. -/
theorem spansGroup_of_isPatchText (hold : ∀ line ∈ old, IsLine line) (hnew : ∀ line ∈ new, IsLine line)
    (hdiff : IsTextDiff (env.fromLines (textOf old) (textOf new)) (tokenizeLines (textOf old))
      (tokenizeLines (textOf new)))
    (h : IsPatchText old new filePath oldVersion newVersion (unifiedDiff env old new filePath oldVersion newVersion)) :
    ∀ group ∈ (env.fromLines (textOf old) (textOf new)).groupedOps 3, SpansGroup group := by
  obtain ⟨segments, rest, hedits, holds, hnews, hgroups, htext⟩ :=
    unifiedDiff_eq hdiff hold hnew filePath oldVersion newVersion
  have hpatch := isPatch_shownHunks hold hnew holds hnews (htext ▸ h)
  rw [hgroups]
  exact spansGroup_of_lengths hedits fun hunk hhunk =>
    ⟨(hpatch.fits hunk hhunk).oldLines, (hpatch.fits hunk hhunk).newLines⟩

end

/-- **The unified difference is a correct patch exactly where both lists are empty and nothing is shown, or neither is,
and the first and the last operation of every group have the spans of the group.** -/
theorem unifiedDiff_isPatch_iff (env : ContentEnv) (old new : List String) (filePath : String)
    (oldVersion newVersion : ℕ) (hold : ∀ line ∈ old, IsLine line) (hnew : ∀ line ∈ new, IsLine line)
    (hdiff : IsTextDiff (env.fromLines (textOf old) (textOf new)) (tokenizeLines (textOf old))
      (tokenizeLines (textOf new))) :
    IsPatchText old new filePath oldVersion newVersion
        (unifiedDiff env old new filePath oldVersion newVersion) ↔
      (old = [] ↔ new = []) ∧
        (old = [] → ∀ group ∈ (env.fromLines (textOf old) (textOf new)).groupedOps 3, ∀ op ∈ group, CoversNothing op) ∧
        ∀ group ∈ (env.fromLines (textOf old) (textOf new)).groupedOps 3, SpansGroup group := by
  obtain ⟨segments, rest, hedits, holds, hnews, hgroups, htext⟩ :=
    unifiedDiff_eq hdiff hold hnew filePath oldVersion newVersion
  constructor
  · intro h
    have hspans := spansGroup_of_isPatchText hold hnew hdiff h
    have hpatch := isPatch_shownHunks hold hnew holds hnews (htext ▸ h)
    have hnil := nil_iff_of_isPatch holds hnews hpatch
    refine ⟨hnil, fun hempty => ?_, hspans⟩
    rw [hgroups] at hspans ⊢
    rw [coversNothing_iff, ← shownHunks_eq_hunksOf hedits hspans]
    intro hunk hhunk
    obtain ⟨-, -, -, -, hunkOld, hunkNew⟩ := hpatch.fits hunk hhunk
    rw [hempty, drop_nil, take_nil] at hunkOld
    rw [hnil.1 hempty, drop_nil, take_nil] at hunkNew
    exact ⟨hunkOld, hunkNew⟩
  · rw [hgroups, htext]
    rintro ⟨hnil, hnothing, hspans⟩
    refine ⟨shownHunks 0 0 segments, rfl, ?_⟩
    rw [shownHunks_eq_hunksOf hedits hspans]
    have hpatch := isPatch_hunksOf segments rest
    rw [holds, hnews] at hpatch
    by_cases hempty : old = []
    · -- The hunks have no lines, so they are a patch of the empty list too.
      have hlines := (coversNothing_iff 0 0 segments).1 (hnothing hempty)
      rw [hempty, hnil.1 hempty]
      refine ⟨fun hunk hhunk => ?_, hpatch.ordered, patch_nil (fun hunk hhunk => (hlines hunk hhunk).2) 0⟩
      have hfits := hpatch.fits hunk hhunk
      obtain ⟨hunkOld, hunkNew⟩ := hlines hunk hhunk
      exact { hfits with
        old := by rw [hunkOld, drop_nil, take_nil]
        new := by rw [hunkNew, drop_nil, take_nil] }
    · have hother : new ≠ [] := fun h => hempty (hnil.2 h)
      unfold comparedLines at hpatch
      rwa [if_neg hempty, if_neg hother] at hpatch

end

/-! ### Differences of one group -/

/-- The difference whose operations are given by edits and all in one group. -/
def diffOf (edits : List (Edit String)) : TextDiff :=
  ⟨opsOf 0 0 edits, fun _ => [opsOf 0 0 edits], changesOf (oldOf edits) (newOf edits)⟩

theorem isTextDiff_diffOf {edits : List (Edit String)} (h : edits ≠ []) :
    IsTextDiff (diffOf edits) (oldOf edits) (newOf edits) where
  ops := ⟨edits, rfl, rfl, rfl⟩
  groupedOps := fun _ => ⟨[⟨[], edits⟩], [], by simpa using h, by simp, by simp, rfl⟩
  iterChanges := fun _ _ _ => rfl

def envOf (edits : List (Edit String)) : ContentEnv := ⟨fun _ _ => diffOf edits, id⟩

/-- One line for another, with nothing the same. -/
theorem unifiedDiff_isPatch_iff_replace : IsPatchText ["one"] ["two"] "notes" 1 2
        (unifiedDiff (envOf [.replace ["one\n"] ["two\n"]]) ["one"] ["two"] "notes" 1 2) ↔
      ((["one"] : List String) = [] ↔ (["two"] : List String) = []) ∧
        ((["one"] : List String) = [] →
          ∀ group ∈ [opsOf 0 0 [Edit.replace ["one\n"] ["two\n"]]], ∀ op ∈ group, CoversNothing op) ∧
        ∀ group ∈ [opsOf 0 0 [Edit.replace ["one\n"] ["two\n"]]], SpansGroup group :=
  unifiedDiff_isPatch_iff (envOf [.replace ["one\n"] ["two\n"]]) ["one"] ["two"] "notes" 1 2
    (by simp [IsLine]) (by simp [IsLine]) (isTextDiff_diffOf (by simp))

/-- A line that is changed between two that stay. -/
def changedEdits : List (Edit String) :=
  [.equal ["line1\n"], .replace ["line2\n"] ["line2_modified\n"], .equal ["line3\n"]]

/-- The hunk says that it covers the first old line and the last new one, and has all three of either list. -/
theorem not_isPatchText_changedEdits : IsTextDiff ((envOf changedEdits).fromLines (textOf ["line1", "line2", "line3"])
      (textOf ["line1", "line2_modified", "line3"])) (tokenizeLines (textOf ["line1", "line2", "line3"]))
      (tokenizeLines (textOf ["line1", "line2_modified", "line3"])) ∧
    ¬IsPatchText ["line1", "line2", "line3"] ["line1", "line2_modified", "line3"] "test.txt" 1 2
      (unifiedDiff (envOf changedEdits) ["line1", "line2", "line3"] ["line1", "line2_modified", "line3"] "test.txt"
        1 2) := by
  have hold : ∀ line ∈ ["line1", "line2", "line3"], IsLine line := by simp [IsLine]
  have hnew : ∀ line ∈ ["line1", "line2_modified", "line3"], IsLine line := by simp [IsLine]
  have hdiff : IsTextDiff (diffOf changedEdits) (tokenizeLines (textOf ["line1", "line2", "line3"]))
      (tokenizeLines (textOf ["line1", "line2_modified", "line3"])) := by
    rw [tokenizeLines_textOf hold, tokenizeLines_textOf hnew]
    exact isTextDiff_diffOf (by simp [changedEdits])
  refine ⟨hdiff, fun h => ?_⟩
  have hspans := spansGroup_of_isPatchText hold hnew hdiff h (opsOf 0 0 changedEdits) mem_cons_self
  exact absurd (hspans.1 ⟨.replace, (1, 2), (1, 2)⟩ (by decide)) (by decide)

end WildAgentOs.Tools.DiffEngine
