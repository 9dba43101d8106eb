import Mathlib.Data.List.Basic
import Mathlib.Tactic

/-!
# Edit scripts and patches

An edit script takes one list to another: stretches are kept, deleted, inserted or replaced.  A patch is what is shown
of a script: hunks of lines with the places and the numbers of the lines that they cover.

* `Edit`, `Segment`, `Hunk`, `patch`, `IsPatch`, `isPatch_hunksOf`, `IsPatch.length_add`.
-/

namespace EditScript

open List

variable {α β : Type*}

inductive Edit (α : Type*)
  | equal (kept : List α)
  | delete (gone : List α)
  | insert (added : List α)
  | replace (gone added : List α)
  deriving DecidableEq

/-- A line of a hunk. -/
inductive Line (α : Type*)
  | context (a : α)
  | deleted (a : α)
  | inserted (a : α)
  deriving DecidableEq

namespace Line

def value : Line α → α
  | context a | deleted a | inserted a => a

def map (f : α → β) : Line α → Line β
  | context a => context (f a)
  | deleted a => deleted (f a)
  | inserted a => inserted (f a)

@[simp] theorem value_map (f : α → β) (line : Line α) : (line.map f).value = f line.value := by
  cases line <;> rfl

def old? : Line α → Option α
  | context a | deleted a => some a
  | inserted _ => none

def new? : Line α → Option α
  | context a | inserted a => some a
  | deleted _ => none

end Line

namespace Edit

/-- What an edit covers of the old list. -/
def old : Edit α → List α
  | equal kept => kept
  | delete gone => gone
  | insert _ => []
  | replace gone _ => gone

/-- What an edit covers of the new list. -/
def new : Edit α → List α
  | equal kept => kept
  | delete _ => []
  | insert added => added
  | replace _ added => added

def lines : Edit α → List (Line α)
  | equal kept => kept.map .context
  | delete gone => gone.map .deleted
  | insert added => added.map .inserted
  | replace gone added => gone.map .deleted ++ added.map .inserted

def map (f : α → β) : Edit α → Edit β
  | equal kept => equal (kept.map f)
  | delete gone => delete (gone.map f)
  | insert added => insert (added.map f)
  | replace gone added => replace (gone.map f) (added.map f)

@[simp] theorem old_map (f : α → β) (edit : Edit α) : (edit.map f).old = edit.old.map f := by
  cases edit <;> rfl

@[simp] theorem new_map (f : α → β) (edit : Edit α) : (edit.map f).new = edit.new.map f := by
  cases edit <;> rfl

@[simp] theorem lines_map (f : α → β) (edit : Edit α) : (edit.map f).lines = edit.lines.map (Line.map f) := by
  cases edit <;> simp [map, lines, Line.map, Function.comp_def]

theorem value_mem_of_mem_lines {edit : Edit α} {line : Line α} (h : line ∈ edit.lines) :
    line.value ∈ edit.old ∨ line.value ∈ edit.new := by
  cases edit <;> simp only [lines, mem_append, mem_map] at h
  case equal | delete =>
    obtain ⟨a, ha, rfl⟩ := h
    exact .inl ha
  case insert =>
    obtain ⟨a, ha, rfl⟩ := h
    exact .inr ha
  case replace =>
    rcases h with ⟨a, ha, rfl⟩ | ⟨a, ha, rfl⟩
    · exact .inl ha
    · exact .inr ha

@[simp] theorem filterMap_old?_lines (edit : Edit α) : edit.lines.filterMap Line.old? = edit.old := by
  cases edit <;> simp [lines, old, Line.old?, filterMap_map, Function.comp_def]

@[simp] theorem filterMap_new?_lines (edit : Edit α) : edit.lines.filterMap Line.new? = edit.new := by
  cases edit <;> simp [lines, new, Line.new?, filterMap_map, Function.comp_def]

end Edit

def oldOf (edits : List (Edit α)) : List α := edits.flatMap Edit.old

def newOf (edits : List (Edit α)) : List α := edits.flatMap Edit.new

def linesOf (edits : List (Edit α)) : List (Line α) := edits.flatMap Edit.lines

@[simp] theorem oldOf_nil : oldOf ([] : List (Edit α)) = [] := rfl

@[simp] theorem newOf_nil : newOf ([] : List (Edit α)) = [] := rfl

@[simp] theorem oldOf_cons (edit : Edit α) (edits : List (Edit α)) : oldOf (edit :: edits) = edit.old ++ oldOf edits :=
  rfl

@[simp] theorem newOf_cons (edit : Edit α) (edits : List (Edit α)) : newOf (edit :: edits) = edit.new ++ newOf edits :=
  rfl

@[simp] theorem newOf_append (edits edits' : List (Edit α)) : newOf (edits ++ edits') = newOf edits ++ newOf edits' :=
  flatMap_append

@[simp] theorem filterMap_old?_linesOf (edits : List (Edit α)) : (linesOf edits).filterMap Line.old? = oldOf edits := by
  induction edits with
  | nil => rfl
  | cons edit edits ih =>
    rw [oldOf_cons, ← ih, ← edit.filterMap_old?_lines, ← filterMap_append]
    rfl

@[simp] theorem filterMap_new?_linesOf (edits : List (Edit α)) : (linesOf edits).filterMap Line.new? = newOf edits := by
  induction edits with
  | nil => rfl
  | cons edit edits ih =>
    rw [newOf_cons, ← ih, ← edit.filterMap_new?_lines, ← filterMap_append]
    rfl

@[simp] theorem oldOf_map (f : α → β) (edits : List (Edit α)) :
    oldOf (edits.map (Edit.map f)) = (oldOf edits).map f := by
  induction edits with
  | nil => rfl
  | cons edit edits ih => simp [ih]

@[simp] theorem newOf_map (f : α → β) (edits : List (Edit α)) :
    newOf (edits.map (Edit.map f)) = (newOf edits).map f := by
  induction edits with
  | nil => rfl
  | cons edit edits ih => simp [ih]

/-! ### Hunks -/

/-- Edits behind a stretch that is the same in both lists and left out. -/
structure Segment (α : Type*) where
  gap : List α
  edits : List (Edit α)

namespace Segment

def map (f : α → β) (segment : Segment α) : Segment β := ⟨segment.gap.map f, segment.edits.map (Edit.map f)⟩

end Segment

/-- The old list of a script whose segments are followed by a stretch that is left out. -/
def olds (segments : List (Segment α)) (rest : List α) : List α :=
  segments.flatMap (fun segment => segment.gap ++ oldOf segment.edits) ++ rest

def news (segments : List (Segment α)) (rest : List α) : List α :=
  segments.flatMap (fun segment => segment.gap ++ newOf segment.edits) ++ rest

@[simp] theorem olds_nil (rest : List α) : olds [] rest = rest := rfl

@[simp] theorem news_nil (rest : List α) : news [] rest = rest := rfl

@[simp] theorem olds_cons (segment : Segment α) (segments : List (Segment α)) (rest : List α) :
    olds (segment :: segments) rest = segment.gap ++ (oldOf segment.edits ++ olds segments rest) := by
  simp [olds]

@[simp] theorem news_cons (segment : Segment α) (segments : List (Segment α)) (rest : List α) :
    news (segment :: segments) rest = segment.gap ++ (newOf segment.edits ++ news segments rest) := by
  simp [news]

theorem olds_map (f : α → β) (segments : List (Segment α)) (rest : List α) :
    olds (segments.map (Segment.map f)) (rest.map f) = (olds segments rest).map f := by
  induction segments with
  | nil => rfl
  | cons segment segments ih => simp [Segment.map, ih]

theorem news_map (f : α → β) (segments : List (Segment α)) (rest : List α) :
    news (segments.map (Segment.map f)) (rest.map f) = (news segments rest).map f := by
  induction segments with
  | nil => rfl
  | cons segment segments ih => simp [Segment.map, ih]

/-- Lines of a patch, with the first line and the number of lines that they cover of either list.  Lines are numbered
from one. -/
structure Hunk (α : Type*) where
  oldStart : ℕ
  oldLines : ℕ
  newStart : ℕ
  newLines : ℕ
  body : List (Line α)
  deriving DecidableEq

def Hunk.old (hunk : Hunk α) : List α := hunk.body.filterMap Line.old?

def Hunk.new (hunk : Hunk α) : List α := hunk.body.filterMap Line.new?

/-- The list that the hunks of a patch make of an old list, of which a number of lines lies behind already. -/
def patch : ℕ → List α → List (Hunk α) → List α
  | _, old, [] => old
  | position, old, hunk :: hunks =>
    old.take (hunk.oldStart - 1 - position) ++ hunk.new ++
      patch (hunk.oldStart - 1 + hunk.oldLines) (old.drop (hunk.oldStart - 1 - position + hunk.oldLines)) hunks

/-- A hunk has as many lines of both lists as it says, and they are the lines that stand there. -/
structure Hunk.Fits (old new : List α) (hunk : Hunk α) : Prop where
  oldStart : 1 ≤ hunk.oldStart
  newStart : 1 ≤ hunk.newStart
  oldLines : hunk.old.length = hunk.oldLines
  newLines : hunk.new.length = hunk.newLines
  old : hunk.old = (old.drop (hunk.oldStart - 1)).take hunk.oldLines
  new : hunk.new = (new.drop (hunk.newStart - 1)).take hunk.newLines

/-- A hunk ends before another one starts. -/
def Hunk.Before (hunk later : Hunk α) : Prop :=
  hunk.oldStart + hunk.oldLines ≤ later.oldStart ∧ hunk.newStart + hunk.newLines ≤ later.newStart

/-- **A correct patch**: its hunks fit, they are in order without overlap, and they make the new list of the old one. -/
structure IsPatch (old new : List α) (hunks : List (Hunk α)) : Prop where
  fits : ∀ hunk ∈ hunks, hunk.Fits old new
  ordered : hunks.Pairwise Hunk.Before
  applied : patch 0 old hunks = new

/-- The hunks of a script, behind numbers of old and of new lines. -/
def hunksOf : ℕ → ℕ → List (Segment α) → List (Hunk α)
  | _, _, [] => []
  | i, j, segment :: segments =>
    ⟨i + segment.gap.length + 1, (oldOf segment.edits).length, j + segment.gap.length + 1,
      (newOf segment.edits).length, linesOf segment.edits⟩ ::
      hunksOf (i + segment.gap.length + (oldOf segment.edits).length)
        (j + segment.gap.length + (newOf segment.edits).length) segments

/-- A hunk of a script covers what its edits cover. -/
theorem fits_of_edits (before after before' after' : List α) (edits : List (Edit α)) :
    Hunk.Fits (before ++ (oldOf edits ++ after)) (before' ++ (newOf edits ++ after'))
      ⟨before.length + 1, (oldOf edits).length, before'.length + 1, (newOf edits).length, linesOf edits⟩ where
  oldStart := Nat.le_add_left 1 before.length
  newStart := Nat.le_add_left 1 before'.length
  oldLines := by simp [Hunk.old]
  newLines := by simp [Hunk.new]
  old := by simp [Hunk.old]
  new := by simp [Hunk.new]

variable {hunk : Hunk α}

/-- The hunks of a script start behind what lies behind. -/
theorem lt_start_of_mem_hunksOf {segments : List (Segment α)} {i j : ℕ}
    (h : hunk ∈ hunksOf i j segments) : i < hunk.oldStart ∧ j < hunk.newStart := by
  induction segments generalizing i j with
  | nil => cases h
  | cons segment segments ih =>
    rcases mem_cons.1 h with rfl | h
    · constructor <;> simp only <;> omega
    · obtain ⟨hold, hnew⟩ := ih h
      constructor <;> omega

section

variable (segments : List (Segment α))
include segments

theorem fits_hunksOf (rest before before' : List α) :
    ∀ hunk ∈ hunksOf before.length before'.length segments,
      hunk.Fits (before ++ olds segments rest) (before' ++ news segments rest) := by
  induction segments generalizing before before' with
  | nil => simp [hunksOf]
  | cons segment segments ih =>
    intro hunk hhunk
    rw [olds_cons, news_cons]
    rcases mem_cons.1 hhunk with rfl | hhunk
    · have hfits := fits_of_edits (before ++ segment.gap) (olds segments rest) (before' ++ segment.gap)
        (news segments rest) segment.edits
      rwa [length_append, length_append, append_assoc, append_assoc] at hfits
    · have hrest := ih (before ++ segment.gap ++ oldOf segment.edits) (before' ++ segment.gap ++ newOf segment.edits)
        hunk (by simpa only [length_append] using hhunk)
      simpa only [append_assoc] using hrest

theorem ordered_hunksOf (i j : ℕ) : (hunksOf i j segments).Pairwise Hunk.Before := by
  induction segments generalizing i j with
  | nil => exact List.Pairwise.nil
  | cons segment segments ih =>
    refine List.Pairwise.cons (fun later hlater => ?_) (ih _ _)
    obtain ⟨hold, hnew⟩ := lt_start_of_mem_hunksOf hlater
    constructor <;> simp only <;> omega

theorem patch_hunksOf (rest : List α) (i j : ℕ) :
    patch i (olds segments rest) (hunksOf i j segments) = news segments rest := by
  induction segments generalizing i j with
  | nil => rfl
  | cons segment segments ih =>
    rw [hunksOf, patch, olds_cons, news_cons]
    simp only [Nat.add_sub_cancel, Nat.add_sub_cancel_left, ← drop_drop, take_left, drop_left, Hunk.new,
      filterMap_new?_linesOf]
    rw [ih, append_assoc]

/-- **The hunks of a script are a patch.** -/
theorem isPatch_hunksOf (rest : List α) :
    IsPatch (olds segments rest) (news segments rest) (hunksOf 0 0 segments) where
  fits := fits_hunksOf segments rest [] []
  ordered := ordered_hunksOf segments 0 0
  applied := patch_hunksOf segments rest 0 0

end

/-! ### What a patch says about its lists -/

variable {old new : List α}

theorem Hunk.Fits.oldEnd (h : hunk.Fits old new) : hunk.oldLines ≤ old.length - (hunk.oldStart - 1) := by
  have hlength := congrArg List.length h.old
  rw [h.oldLines, length_take, length_drop] at hlength
  omega

variable {hunks : List (Hunk α)}

theorem length_patch {position : ℕ} (hfits : ∀ hunk ∈ hunks, hunk.Fits old new) (hordered : hunks.Pairwise Hunk.Before)
    (hposition : ∀ hunk ∈ hunks, position < hunk.oldStart) :
    (patch position (old.drop position) hunks).length + (hunks.map (·.old.length)).sum =
      old.length - position + (hunks.map (·.new.length)).sum := by
  induction hunks generalizing position with
  | nil => simp [patch]
  | cons hunk hunks ih =>
    have hhunk := hfits hunk mem_cons_self
    have hstart := hposition hunk mem_cons_self
    have hend := hhunk.oldEnd
    have hone := hhunk.oldStart
    have hrest := @ih (hunk.oldStart - 1 + hunk.oldLines)
      (fun later hlater => hfits later (mem_cons_of_mem hunk hlater)) hordered.of_cons fun later hlater => by
        have hbefore := (rel_of_pairwise_cons hordered hlater).1
        omega
    have hsplit : position + (hunk.oldStart - 1 - position + hunk.oldLines) = hunk.oldStart - 1 + hunk.oldLines := by
      omega
    simp only [patch, length_append, length_take, length_drop, drop_drop, hsplit, map_cons,
      sum_cons, hhunk.oldLines] at hrest ⊢
    omega

/-- **How long the lists are**: what is deleted is missing in the new list, and what is inserted in the old one. -/
theorem IsPatch.length_add (h : IsPatch old new hunks) :
    new.length + (hunks.map (·.old.length)).sum = old.length + (hunks.map (·.new.length)).sum := by
  have hlength := @length_patch _ old new hunks 0 h.fits h.ordered fun hunk hhunk => (h.fits hunk hhunk).oldStart
  rwa [drop_zero, h.applied] at hlength

/-- How long the lists of a script are. -/
theorem length_add_hunksOf (segments : List (Segment α)) (rest : List α) :
    (news segments rest).length + ((hunksOf 0 0 segments).map (·.old.length)).sum =
      (olds segments rest).length + ((hunksOf 0 0 segments).map (·.new.length)).sum :=
  (isPatch_hunksOf segments rest).length_add

/-- Hunks without lines leave the empty list. -/
theorem patch_nil (h : ∀ hunk ∈ hunks, hunk.new = []) (position : ℕ) : patch position [] hunks = [] := by
  induction hunks generalizing position with
  | nil => rfl
  | cons hunk hunks ih =>
    rw [patch, h hunk mem_cons_self, take_nil, drop_nil, ih fun later hlater => h later (mem_cons_of_mem hunk hlater)]
    rfl

/-! ### What a script keeps -/

namespace Edit

def kept : Edit α → List α
  | equal kept => kept
  | _ => []

/-- The new lines of an edit are none of the old ones. -/
def adds : Edit α → Bool
  | insert _ | replace _ _ => true
  | _ => false

theorem kept_sublist_old (edit : Edit α) : edit.kept.Sublist edit.old := by
  cases edit with
  | equal kept => exact Sublist.refl kept
  | delete | insert | replace => exact nil_sublist _

theorem kept_sublist_new (edit : Edit α) : edit.kept.Sublist edit.new := by
  cases edit with
  | equal kept => exact Sublist.refl kept
  | delete | insert | replace => exact nil_sublist _

/-- An edit keeps its new lines, or none of them. -/
theorem kept_eq (edit : Edit α) : edit.kept = if edit.adds then [] else edit.new := by
  cases edit <;> rfl

@[simp] theorem kept_map (f : α → β) (edit : Edit α) : (edit.map f).kept = edit.kept.map f := by
  cases edit <;> rfl

end Edit

def keptOf (edits : List (Edit α)) : List α := edits.flatMap Edit.kept

theorem keptOf_map (f : α → β) (edits : List (Edit α)) : keptOf (edits.map (Edit.map f)) = (keptOf edits).map f := by
  induction edits with
  | nil => rfl
  | cons edit edits ih => simp_all [keptOf]

/-- The marks of the lines of the new list that are added. -/
def addedMarks (edits : List (Edit α)) : List Bool := edits.flatMap fun edit => List.replicate edit.new.length edit.adds

theorem keptOf_sublist_oldOf (edits : List (Edit α)) : (keptOf edits).Sublist (oldOf edits) := by
  induction edits with
  | nil => exact Sublist.refl []
  | cons edit edits ih => exact edit.kept_sublist_old.append ih

theorem keptOf_sublist_newOf (edits : List (Edit α)) : (keptOf edits).Sublist (newOf edits) := by
  induction edits with
  | nil => exact Sublist.refl []
  | cons edit edits ih => exact edit.kept_sublist_new.append ih

@[simp] theorem length_addedMarks (edits : List (Edit α)) : (addedMarks edits).length = (newOf edits).length := by
  induction edits with
  | nil => rfl
  | cons edit edits ih =>
    rw [newOf_cons, length_append, ← ih]
    simp [addedMarks]

theorem unmarked_replicate (l : List α) (mark : Bool) :
    ((l.zip (List.replicate l.length mark)).filter fun entry => !entry.2).map Prod.fst = if mark then [] else l := by
  induction l with
  | nil => cases mark <;> rfl
  | cons a l ih =>
    rw [length_cons, replicate_succ, zip_cons_cons]
    cases mark <;> simp_all

/-- **What is kept** are the lines of the new list that are not marked. -/
theorem unmarked_eq_keptOf (edits : List (Edit α)) :
    (((newOf edits).zip (addedMarks edits)).filter fun entry => !entry.2).map Prod.fst = keptOf edits := by
  induction edits with
  | nil => rfl
  | cons edit edits ih =>
    have hhead : ((edit.new.zip (List.replicate edit.new.length edit.adds)).filter fun entry => !entry.2).map
        Prod.fst = edit.kept := (unmarked_replicate edit.new edit.adds).trans edit.kept_eq.symm
    have hzip : (newOf (edit :: edits)).zip (addedMarks (edit :: edits)) =
        edit.new.zip (List.replicate edit.new.length edit.adds) ++ (newOf edits).zip (addedMarks edits) := by
      rw [newOf_cons]
      exact zip_append (by simp)
    rw [hzip, filter_append, map_append, hhead, ih]
    rfl

end EditScript
