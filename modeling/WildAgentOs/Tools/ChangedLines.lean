import WildAgentOs.Tools.UnifiedDiff

/-!
# Changed lines

The ranges of the new lines that a difference adds, and the view of them with the three lines before each range.  The
view does not look at what it has shown already, so ranges that are close show lines twice.

* `IsShortestDiff`: what Myers' algorithm promises of a difference;
* `AreRanges`, `outside`, `Entry`, `Shows`, `IsView`, `ExactChanges`, `Spaced`, `changedLines_exact_iff`.
-/

namespace WildAgentOs.Tools.DiffEngine

open EditScript List Function Nat

/-! ### Ranges -/

def InRanges (ranges : List (ℕ × ℕ)) (i : ℕ) : Prop := ∃ range ∈ ranges, range.1 ≤ i ∧ i < range.2

instance (ranges : List (ℕ × ℕ)) (i : ℕ) : Decidable (InRanges ranges i) :=
  inferInstanceAs (Decidable (∃ range ∈ ranges, range.1 ≤ i ∧ i < range.2))

/-- Ranges of a number of lines, in order, and none next to another. -/
structure AreRanges (n : ℕ) (ranges : List (ℕ × ℕ)) : Prop where
  nonempty : ∀ range ∈ ranges, range.1 < range.2
  inside : ∀ range ∈ ranges, range.2 ≤ n
  apart : ranges.Pairwise fun range later => range.2 < later.1

/-- The lines that are in no range. -/
def outside (ranges : List (ℕ × ℕ)) (lines : List String) : List String :=
  (lines.zipIdx.filter fun entry => !decide (InRanges ranges entry.2)).map Prod.fst

/-! ### Views -/

/-- What a line of a view shows. -/
inductive Entry
  | snip
  | context (i : ℕ)
  | changed (i : ℕ)
  deriving DecidableEq

namespace Entry

def position : Entry → Option ℕ
  | snip => none
  | context i | changed i => some i

def changed? : Entry → Option ℕ
  | changed i => some i
  | _ => none

def text (lines : List String) : Entry → String
  | snip => "... (snip) ..."
  | context i => " " ++ lines.getD i ""
  | changed i => "+" ++ lines.getD i ""

end Entry

/-- Behind a number of lines, a view goes on with the next line, or with a marker and a later line. -/
inductive Marked : ℕ → List Entry → Prop
  | done (n : ℕ) : Marked n []
  | next (n : ℕ) (entry : Entry) (entries : List Entry) (h : entry.position = some n)
      (hrest : Marked (n + 1) entries) : Marked n (entry :: entries)
  | snip (n i : ℕ) (entry : Entry) (entries : List Entry) (hleft : n < i) (h : entry.position = some i)
      (hrest : Marked (i + 1) entries) : Marked n (.snip :: entry :: entries)

/-- **An exact view**: lines in their order and none twice, the lines in the ranges as changed ones, and a marker
exactly where lines are left out before a line that is shown. -/
structure Shows (n : ℕ) (ranges : List (ℕ × ℕ)) (entries : List Entry) : Prop where
  inside : ∀ i ∈ entries.filterMap Entry.position, i < n
  ordered : (entries.filterMap Entry.position).Pairwise (· < ·)
  changed : ∀ i, .changed i ∈ entries ↔ InRanges ranges i
  marked : Marked 0 entries

def IsView (lines : List String) (ranges : List (ℕ × ℕ)) (output : List String) : Prop :=
  ∃ entries, output = entries.map (Entry.text lines) ∧ Shows lines.length ranges entries

/-! ### The changes -/

/-- **A shortest difference**: its operations are an edit script, and no common subsequence is longer than what the
script keeps. -/
def IsShortestDiff (diff : TextDiff) (old new : List String) : Prop :=
  ∃ edits, oldOf edits = old ∧ newOf edits = new ∧ diff.ops = opsOf 0 0 edits ∧
    ∀ common : List String, common.Sublist old → common.Sublist new → common.length ≤ (keptOf edits).length

/-- **The changes are shown exactly.** -/
structure ExactChanges (env : ContentEnv) (old new : List String) : Prop where
  ranges : AreRanges new.length (changedRanges env old new)
  kept : (outside (changedRanges env old new) new).Sublist old
  empty : changedRanges env old new = [] ↔ new.Sublist old
  view : IsView new (changedRanges env old new)
    (ContentStore.extractChangedLines new (changedRanges env old new))

/-- An operation adds a new line. -/
def Adds (ops : List DiffOp) (i : ℕ) : Prop :=
  ∃ op ∈ ops, (op.tag = .insert ∨ op.tag = .replace) ∧ op.newRange.1 ≤ i ∧ i < op.newRange.2

/-- Between two lines that are added there is no gap of one line or of two. -/
def Spaced (ops : List DiffOp) : Prop := ∀ i, Adds ops i → ¬Adds ops (i + 1) → ¬Adds ops (i + 2) ∧ ¬Adds ops (i + 3)

/-! ### Runs of marks -/

variable {i : ℕ} {range : ℕ × ℕ}

section

variable {ranges : List (ℕ × ℕ)} {marks : List Bool} {lines : List String}

theorem inRanges_cons : InRanges (range :: ranges) i ↔ range.1 ≤ i ∧ i < range.2 ∨ InRanges ranges i := by
  simp [InRanges]

variable {start : Option ℕ}

/-- The runs of marks are ranges that start where the run does that is open. -/
theorem changedRuns_bounds (hstart : ∀ s, start = some s → s < i) :
    ∀ range ∈ changedRuns i start marks, start.getD i ≤ range.1 ∧ range.1 < range.2 ∧ range.2 ≤ i + marks.length := by
  induction marks generalizing i start with
  | nil =>
    cases start with
    | none => simp [changedRuns]
    | some s => simp [changedRuns, hstart s rfl]
  | cons mark marks ih =>
    intro range hrange
    cases mark with
    | true =>
      have hbounds := @ih (i + 1) (some (start.getD i)) (by
        intro s hs
        cases start with
        | none => simp_all
        | some t => have := hstart t rfl; simp_all; omega) range hrange
      simp only [Option.getD_some, length_cons] at hbounds ⊢
      omega
    | false =>
      cases start with
      | none =>
        have hbounds := @ih (i + 1) none (by simp) range hrange
        simp only [Option.getD_none, length_cons] at hbounds ⊢
        omega
      | some s =>
        have hlt := hstart s rfl
        rcases mem_cons.1 hrange with rfl | hrange
        · simp only [Option.getD_some, length_cons]
          omega
        · have hbounds := @ih (i + 1) none (by simp) range hrange
          simp only [Option.getD_none, Option.getD_some, length_cons] at hbounds ⊢
          omega

theorem changedRuns_apart (i : ℕ) (start : Option ℕ) :
    (changedRuns i start marks).Pairwise fun range later => range.2 < later.1 := by
  induction marks generalizing i start with
  | nil => cases start <;> simp [changedRuns]
  | cons mark marks ih =>
    cases mark with
    | true => exact ih (i + 1) _
    | false =>
      cases start with
      | none => exact ih (i + 1) none
      | some s =>
        refine List.Pairwise.cons (fun later hlater => ?_) (ih (i + 1) none)
        have hbounds := @changedRuns_bounds _ _ none (by simp) later hlater
        exact lt_of_succ_le hbounds.1

/-- What the runs cover are the marks, and what is open. -/
theorem inRanges_changedRuns (hstart : ∀ s, start = some s → s < i) (k : ℕ) : InRanges (changedRuns i start marks) k ↔
      (∃ s, start = some s ∧ s ≤ k ∧ k < i) ∨ ∃ m, k = i + m ∧ marks[m]? = some true := by
  induction marks generalizing i start with
  | nil =>
    cases start with
    | none => simp [changedRuns, InRanges]
    | some s => simp [changedRuns, InRanges]
  | cons mark marks ih =>
    have hshift : (∃ m, k = i + m ∧ (mark :: marks)[m]? = some true) ↔
        k = i ∧ mark = true ∨ ∃ m, k = i + 1 + m ∧ marks[m]? = some true := by
      constructor
      · rintro ⟨m, rfl, hm⟩
        cases m with
        | zero => exact .inl ⟨rfl, by simpa using hm⟩
        | succ m => exact .inr ⟨m, by omega, by simpa using hm⟩
      · rintro (⟨rfl, rfl⟩ | ⟨m, rfl, hm⟩)
        · exact ⟨0, rfl, rfl⟩
        · exact ⟨m + 1, by omega, by simpa using hm⟩
    rw [hshift]
    cases mark with
    | true =>
      rw [changedRuns, ih (by cases start <;> grind)]
      cases start with
      | none => grind
      | some s =>
        have hlt := hstart s rfl
        grind
    | false =>
      cases start with
      | none =>
        rw [changedRuns, ih (by simp)]
        simp
      | some s =>
        rw [changedRuns, inRanges_cons, ih (by simp)]
        simp

/-- The lines outside ranges are those without a mark. -/
theorem outside_eq (hlength : marks.length = lines.length)
    (hmarks : ∀ k < lines.length, InRanges ranges k ↔ marks[k]? = some true) :
    outside ranges lines = ((lines.zip marks).filter fun entry => !entry.2).map Prod.fst := by
  have hfrom : ∀ (lines : List String) (marks : List Bool) (j : ℕ), marks.length = lines.length →
      (∀ k < lines.length, InRanges ranges (j + k) ↔ marks[k]? = some true) →
      ((lines.zipIdx j).filter fun entry => !decide (InRanges ranges entry.2)).map Prod.fst =
        ((lines.zip marks).filter fun entry => !entry.2).map Prod.fst := by
    intro lines
    induction lines with
    | nil => simp
    | cons line lines ih =>
      intro marks j hlength hmarks
      cases marks with
      | nil => cases hlength
      | cons mark marks =>
        have hrest := ih marks (j + 1) (by simpa using hlength) fun k hk => by
          have := hmarks (k + 1) (by simpa using hk)
          rwa [← add_assoc, add_right_comm, getElem?_cons_succ] at this
        have hhead : InRanges ranges j ↔ mark = true := by simpa using hmarks 0 (by simp)
        rw [zipIdx_cons, zip_cons_cons, filter_cons, filter_cons]
        by_cases hmark : mark = true
        · simp [hmark, hhead.2 hmark, hrest]
        · have hnot : ¬InRanges ranges j := fun h => hmark (hhead.1 h)
          simp [hmark, hnot, hrest]
  exact hfrom lines marks 0 hlength (by simpa using hmarks)

end

/-! ### Operations and marks -/

section

variable {α : Type*}

theorem adds_cons {op : DiffOp} {ops : List DiffOp} : Adds (op :: ops) i ↔
      ((op.tag = .insert ∨ op.tag = .replace) ∧ op.newRange.1 ≤ i ∧ i < op.newRange.2) ∨ Adds ops i := by
  simp [Adds]

theorem le_of_adds {edits : List (Edit α)} {i j k : ℕ} (h : Adds (opsOf i j edits) k) : j ≤ k := by
  induction edits generalizing i j with
  | nil => simp [opsOf, Adds] at h
  | cons edit edits ih =>
    rcases adds_cons.1 h with ⟨-, hstart, -⟩ | h
    · exact hstart
    · exact (le_add_right j edit.new.length).trans (ih h)

theorem tagOf_adds (edit : Edit α) : (tagOf edit = .insert ∨ tagOf edit = .replace) ↔ edit.adds = true := by
  cases edit <;> simp [tagOf, Edit.adds]

/-- The marks are the new lines that the operations add. -/
theorem adds_opsOf (edits : List (Edit α)) (i j k : ℕ) :
    Adds (opsOf i j edits) (j + k) ↔ (addedMarks edits)[k]? = some true := by
  induction edits generalizing i j k with
  | nil => simp [opsOf, Adds, addedMarks]
  | cons edit edits ih =>
    have hmarks : addedMarks (edit :: edits) = List.replicate edit.new.length edit.adds ++ addedMarks edits := rfl
    rw [opsOf, adds_cons, hmarks]
    simp only [opOf, tagOf_adds]
    by_cases hk : k < edit.new.length
    · have hrest : ¬Adds (opsOf (i + edit.old.length) (j + edit.new.length) edits) (j + k) := fun h => by
        have := le_of_adds h
        omega
      rw [getElem?_append_left (by simpa using hk), getElem?_replicate_of_lt hk]
      simp [hrest, hk]
    · have hshift : j + k = j + edit.new.length + (k - edit.new.length) := by omega
      rw [getElem?_append_right (by simpa using hk), length_replicate, hshift, ih]
      simp

/-- The ranges are the new lines that the operations add. -/
theorem inRanges_changedRanges (env : ContentEnv) (old new : List String) (k : ℕ) :
    InRanges (changedRanges env old new) k ↔ k < new.length ∧ Adds (env.fromLines (textOf old) (textOf new)).ops k := by
  unfold changedRanges
  simp only
  rw [inRanges_changedRuns (by simp)]
  simp [Adds, List.getElem?_eq_some_iff]

theorem areRanges_changedRanges (env : ContentEnv) (old new : List String) :
    AreRanges new.length (changedRanges env old new) := by
  unfold changedRanges
  refine ⟨fun range hrange => ?_, fun range hrange => ?_, changedRuns_apart 0 none⟩
  · exact (changedRuns_bounds (by simp) range hrange).2.1
  · simpa using (changedRuns_bounds (by simp) range hrange).2.2

end

/-! ### What is left -/

variable {ranges : List (ℕ × ℕ)} {diff : TextDiff}

section

variable {env : ContentEnv} {old new : List String}

/-- A shortest difference of tokens is one of lines. -/
theorem isShortestDiff_lines {lines lines' : List String}
    (h : IsShortestDiff diff (lines.map (· ++ "\n")) (lines'.map (· ++ "\n"))) : IsShortestDiff diff lines lines' := by
  obtain ⟨edits, hold, hnew, hops, hlongest⟩ := h
  refine ⟨edits.map (Edit.map chomp), ?_, ?_, ?_, fun common hcommon hcommon' => ?_⟩
  · rw [oldOf_map, hold, map_chomp]
  · rw [newOf_map, hnew, map_chomp]
  · rw [hops, opsOf_map]
  · have hlength := hlongest _ (hcommon.map (· ++ "\n")) (hcommon'.map (· ++ "\n"))
    rw [keptOf_map, length_map]
    simpa using hlength

/-- Nothing is left out of the lines only where there are no ranges. -/
theorem outside_eq_self_iff {lines : List String} (h : AreRanges lines.length ranges) :
    outside ranges lines = lines ↔ ranges = [] := by
  constructor
  · intro hsame
    have hlength := congrArg List.length hsame
    rw [outside, length_map] at hlength
    have hall := length_filter_eq_length_iff.1 (hlength.trans (length_zipIdx (l := lines) (i := 0)).symm)
    by_contra hne
    obtain ⟨range, hrange⟩ := exists_mem_of_ne_nil ranges hne
    have hlt : range.1 < lines.length := (h.nonempty range hrange).trans_le (h.inside range hrange)
    have hnot := hall (lines[range.1], range.1) (mk_mem_zipIdx_iff_getElem?.2 (getElem?_eq_getElem hlt))
    have hin : InRanges ranges range.1 := ⟨range, hrange, le_rfl, h.nonempty range hrange⟩
    simp [hin] at hnot
  · rintro rfl
    simp [outside, InRanges]

theorem outside_changedRanges {edits : List (Edit String)} (hnew : newOf edits = new)
    (hops : (env.fromLines (textOf old) (textOf new)).ops = opsOf 0 0 edits) :
    outside (changedRanges env old new) new = keptOf edits := by
  rw [← unmarked_eq_keptOf, hnew]
  refine outside_eq (by rw [length_addedMarks, hnew]) fun k hk => ?_
  have hadds := adds_opsOf edits 0 0 k
  rw [zero_add, ← hops] at hadds
  rw [inRanges_changedRanges, hadds]
  exact and_iff_right hk

/-- **What is left of the new lines is left of the old ones**, and there are no ranges exactly where the new lines are
left of the old ones, unless an empty line is taken for one of an empty list. -/
theorem kept_iff (hshortest : IsShortestDiff (env.fromLines (textOf old) (textOf new)) (comparedLines old)
    (comparedLines new)) :
    ((outside (changedRanges env old new) new).Sublist old ∧ (changedRanges env old new = [] ↔ new.Sublist old)) ↔
      (old ≠ [] ∨ "" ∉ new) := by
  by_cases hnil : new = []
  · have hranges : changedRanges env old [] = [] := rfl
    subst hnil
    simp [hranges, outside]
  · obtain ⟨edits, holds, hnews, hops, hlongest⟩ := hshortest
    have hcompared : comparedLines new = new := if_neg hnil
    rw [hcompared] at hnews hlongest
    rw [outside_changedRanges hnews hops, ← outside_eq_self_iff (areRanges_changedRanges env old new),
      outside_changedRanges hnews hops]
    have hkeptOld := keptOf_sublist_oldOf edits
    have hkeptNew := keptOf_sublist_newOf edits
    rw [holds] at hkeptOld
    rw [hnews] at hkeptNew
    by_cases hempty : old = []
    · subst hempty
      have hblank : comparedLines [] = [""] := rfl
      rw [hblank] at hkeptOld hlongest
      constructor
      · rintro ⟨hkept, -⟩
        refine .inr fun hmem => ?_
        have hone := hlongest [""] (Sublist.refl _) (singleton_sublist.2 hmem)
        rw [sublist_nil.1 hkept] at hone
        simp at hone
      · intro h
        have hmem : "" ∉ new := h.resolve_left (by simp)
        have hkept : keptOf edits = [] := by
          rcases sublist_singleton.1 hkeptOld with hkept | hkept
          · exact hkept
          · exact absurd (hkeptNew.subset (hkept ▸ mem_singleton_self "")) hmem
        rw [hkept]
        simp [hnil, eq_comm]
    · have hcompared : comparedLines old = old := if_neg hempty
      rw [hcompared] at hkeptOld hlongest
      refine iff_of_true ⟨hkeptOld, fun hsame => hsame ▸ hkeptOld, fun hsub => ?_⟩ (.inl hempty)
      exact hkeptNew.eq_of_length_le (hlongest new hsub (Sublist.refl new))

end

/-! ### The view -/

/-- The positions from one to another. -/
def positionsOf (range : ℕ × ℕ) : List ℕ := List.range' range.1 (range.2 - range.1)

/-- The entries that `extract_changed_lines` shows behind the end of a range. -/
def entriesFrom : ℕ → List (ℕ × ℕ) → List Entry
  | _, [] => []
  | lastEnd, range :: ranges =>
    (if lastEnd < range.1 - 3 then [.snip] else []) ++ ((positionsOf (range.1 - 3, range.1)).map .context ++
      ((positionsOf range).map .changed ++ entriesFrom range.2 ranges))

/-- Every range starts three lines behind the end of the one before it at least, or at the first lines. -/
def Clear : ℕ → List (ℕ × ℕ) → Prop
  | _, [] => True
  | lastEnd, range :: ranges => lastEnd ≤ range.1 - 3 ∧ Clear range.2 ranges

section

variable {ranges : List (ℕ × ℕ)} {lines : List String} {entries : List Entry} {n lastEnd : ℕ}

@[simp] theorem mem_positionsOf : i ∈ positionsOf range ↔ range.1 ≤ i ∧ i < range.2 := by
  simp only [positionsOf, mem_range'_1]
  omega

variable {a b : ℕ}

theorem take_drop_eq_positionsOf (hb : b ≤ lines.length) :
    (lines.take b).drop a = (positionsOf (a, b)).map fun i => lines.getD i "" := by
  apply ext_getElem
  · simp [positionsOf, hb]
  · intro k hk _
    simp only [length_drop, length_take, min_eq_left hb] at hk
    have hlt : a + k < lines.length := by omega
    simp [positionsOf, getElem_drop, getElem?_eq_getElem hlt]

/-- **What is shown** are the entries. -/
theorem extractChangedLines_eq (hinside : ∀ range ∈ ranges, range.1 ≤ range.2 ∧ range.2 ≤ lines.length) :
    ContentStore.extractChangedLines lines ranges = (entriesFrom 0 ranges).map (Entry.text lines) := by
  have hfold : ∀ (ranges : List (ℕ × ℕ)) (shown : List String) (lastEnd : ℕ),
      (∀ range ∈ ranges, range.1 ≤ range.2 ∧ range.2 ≤ lines.length) →
      (ranges.foldl (fun (result : List String × ℕ) (range : ℕ × ℕ) =>
        (result.1 ++ (if result.2 < range.1 - 3 then ["... (snip) ..."] else []) ++
          ((lines.take range.1).drop (range.1 - 3)).map (" " ++ ·) ++
          ((lines.take range.2).drop range.1).map ("+" ++ ·), range.2)) (shown, lastEnd)).1 =
        shown ++ (entriesFrom lastEnd ranges).map (Entry.text lines) := by
    intro ranges
    induction ranges with
    | nil => simp [entriesFrom]
    | cons range ranges ih =>
      intro shown lastEnd hinside
      obtain ⟨hle, hend⟩ := hinside range mem_cons_self
      rw [foldl_cons, ih _ _ fun later hlater => hinside later (mem_cons_of_mem range hlater), entriesFrom,
        take_drop_eq_positionsOf (hle.trans hend), take_drop_eq_positionsOf hend]
      split_ifs <;> simp [Entry.text, comp_def]
  exact hfold ranges [] 0 hinside

theorem changed_mem_entriesFrom : .changed i ∈ entriesFrom lastEnd ranges ↔ InRanges ranges i := by
  induction ranges generalizing lastEnd with
  | nil => simp [entriesFrom, InRanges]
  | cons range ranges ih =>
    rw [entriesFrom, inRanges_cons]
    split_ifs <;> simp [ih]

theorem position_lt_of_mem (h : AreRanges n ranges) :
    ∀ i ∈ (entriesFrom lastEnd ranges).filterMap Entry.position, i < n := by
  obtain ⟨hnonempty, hinside, -⟩ := h
  induction ranges generalizing lastEnd with
  | nil => simp [entriesFrom]
  | cons range ranges ih =>
    intro i hi
    have hlt := hnonempty range mem_cons_self
    have hle := hinside range mem_cons_self
    rw [entriesFrom, filterMap_append, filterMap_append, filterMap_append] at hi
    rcases mem_append.1 hi with hi | hi
    · split_ifs at hi <;> simp [Entry.position] at hi
    · simp only [mem_append, filterMap_map, mem_filterMap, comp_apply, Entry.position,
      mem_positionsOf, Option.some.injEq, exists_eq_right] at hi
      rcases hi with hi | hi | hi
      · omega
      · omega
      · exact ih (fun later hlater => hnonempty later (mem_cons_of_mem range hlater))
          (fun later hlater => hinside later (mem_cons_of_mem range hlater)) i (mem_filterMap.2 hi)

/-- A view goes on in order. -/
theorem Marked.ordered (h : Marked n entries) :
    (∀ i ∈ entries.filterMap Entry.position, n ≤ i) ∧ (entries.filterMap Entry.position).Pairwise (· < ·) := by
  induction h with
  | done n => simp
  | next n entry entries h hrest ih =>
    rw [filterMap_cons_some h]
    refine ⟨forall_mem_cons.2 ⟨le_rfl, fun i hi => (ih.1 i hi).trans' (le_succ n)⟩, ?_⟩
    exact pairwise_cons.2 ⟨fun i hi => ih.1 i hi, ih.2⟩
  | snip n i entry entries hleft h hrest ih =>
    rw [filterMap_cons_none rfl, filterMap_cons_some h]
    refine ⟨forall_mem_cons.2 ⟨hleft.le, fun k hk => by have := ih.1 k hk; omega⟩, ?_⟩
    exact pairwise_cons.2 ⟨fun k hk => ih.1 k hk, ih.2⟩

/-- A stretch of lines goes on with what follows it. -/
theorem marked_positionsOf {f : ℕ → Entry} (hf : ∀ i, (f i).position = some i) (hle : a ≤ b)
    (h : Marked b entries) : Marked a ((positionsOf (a, b)).map f ++ entries) := by
  obtain ⟨k, rfl⟩ := Nat.exists_eq_add_of_le hle
  have hpositions : positionsOf (a, a + k) = List.range' a k := by simp [positionsOf]
  rw [hpositions]
  clear hpositions hle
  induction k generalizing a with
  | zero => exact h
  | succ k ih =>
    rw [range'_succ, map_cons, cons_append]
    exact .next a (f a) _ (hf a) (ih (by rwa [Nat.add_right_comm]))

/-- A marker goes on with what follows it at a later line. -/
theorem marked_snip (hleft : n < i) (hne : entries ≠ []) (h : Marked i entries)
    (hfirst : entries.head?.bind Entry.position = some i) : Marked n (.snip :: entries) := by
  cases h with
  | done => exact absurd rfl hne
  | next _ entry entries h hrest => exact .snip n i entry entries hleft h hrest
  | snip _ k entry entries hleft' h hrest => simp [Entry.position] at hfirst

/-- Ranges with room between them are shown in order, with the markers where they belong. -/
theorem marked_entriesFrom (hnonempty : ∀ range ∈ ranges, range.1 < range.2) (hclear : Clear lastEnd ranges) :
    Marked lastEnd (entriesFrom lastEnd ranges) := by
  induction ranges generalizing lastEnd with
  | nil => exact .done lastEnd
  | cons range ranges ih =>
    have hrest := ih (fun later hlater => hnonempty later (mem_cons_of_mem range hlater)) hclear.2
    have hlt := hnonempty range mem_cons_self
    have hshown : Marked (range.1 - 3) ((positionsOf (range.1 - 3, range.1)).map .context ++
        ((positionsOf range).map .changed ++ entriesFrom range.2 ranges)) :=
      marked_positionsOf (fun i => rfl) (Nat.sub_le range.1 3)
        (marked_positionsOf (f := Entry.changed) (fun i => rfl) hlt.le hrest)
    rw [entriesFrom]
    split_ifs with hsnip
    · have hpositive : 0 < range.1 - (range.1 - 3) := by omega
      refine marked_snip hsnip (by simp [positionsOf]; omega) hshown ?_
      obtain ⟨k, hk⟩ := Nat.exists_eq_add_of_lt hpositive
      simp [positionsOf, hk, range'_succ, Entry.position]
    · have hsame : lastEnd = range.1 - 3 := le_antisymm hclear.1 (not_lt.1 hsnip)
      rw [hsame]
      exact hshown

/-- Ranges with room between them are shown exactly. -/
theorem shows_entriesFrom (h : AreRanges n ranges) (hclear : Clear 0 ranges) :
    Shows n ranges (entriesFrom 0 ranges) where
  inside := position_lt_of_mem h
  ordered := (marked_entriesFrom h.nonempty hclear).ordered.2
  changed := fun _ => changed_mem_entriesFrom
  marked := marked_entriesFrom h.nonempty hclear

/-! ### Reading a view back -/

/-- The first character of an entry's text. -/
def Entry.sign : Entry → Char
  | snip => '.'
  | context _ => ' '
  | changed _ => '+'

/-- Texts that are the same have the same signs. -/
theorem map_sign_eq {entries' : List Entry} (h : entries.map (Entry.text lines) = entries'.map (Entry.text lines)) :
    entries.map Entry.sign = entries'.map Entry.sign := by
  have hsign : ∀ entry : Entry, (entry.text lines).toList.head? = some entry.sign := by
    intro entry
    cases entry <;> simp [Entry.text, Entry.sign]
  have hheads := congrArg (List.map fun text => text.toList.head?) h
  simp only [map_map, comp_def, hsign] at hheads
  apply map_injective_iff.2 (Option.some_injective Char)
  simpa only [map_map, comp_def] using hheads

theorem filterMap_changed?_of_ne (h : ∀ entry ∈ entries, entry.sign ≠ '+') : entries.filterMap Entry.changed? = [] := by
  rw [filterMap_eq_nil_iff]
  intro entry hentry
  cases entry with
  | snip | context i => rfl
  | changed i => exact absurd rfl (h _ hentry)

theorem length_filterMap_position (h : ∀ entry ∈ entries, entry.sign ≠ '.') :
    (entries.filterMap Entry.position).length = entries.length := by
  induction entries with
  | nil => rfl
  | cons entry entries ih =>
    have hrest := ih fun later hlater => h later (mem_cons_of_mem entry hlater)
    cases entry with
    | snip => exact absurd rfl (h _ mem_cons_self)
    | context i | changed i => simp [Entry.position, hrest]

theorem filterMap_changed?_eq (h : ∀ entry ∈ entries, entry.sign = '+') :
    entries.filterMap Entry.changed? = entries.filterMap Entry.position := by
  apply filterMap_congr
  intro entry hentry
  cases entry with
  | snip | context i => exact absurd (h _ hentry) (by simp [Entry.sign])
  | changed i => rfl

theorem filterMap_changed?_sublist (entries : List Entry) :
    (entries.filterMap Entry.changed?).Sublist (entries.filterMap Entry.position) := by
  induction entries with
  | nil => exact Sublist.refl []
  | cons entry entries ih =>
    cases entry with
    | snip => exact ih
    | context i => exact ih.cons i
    | changed i => exact ih.cons_cons i

theorem mem_filterMap_changed? : i ∈ entries.filterMap Entry.changed? ↔ .changed i ∈ entries := by
  rw [mem_filterMap]
  constructor
  · rintro ⟨entry, hentry, hi⟩
    cases entry with
    | snip | context k => cases hi
    | changed k =>
      cases hi
      exact hentry
  · exact fun h => ⟨_, h, rfl⟩

/-- Numbers that increase between two bounds are not more than fit there. -/
theorem add_length_le {l : List ℕ} {m : ℕ} (hle : n ≤ m) (hl : l.Pairwise (· < ·)) (hbounds : ∀ i ∈ l, n ≤ i ∧ i < m) :
    n + l.length ≤ m := by
  induction l generalizing n with
  | nil => simpa using hle
  | cons a l ih =>
    obtain ⟨hlow, hhigh⟩ := hbounds a mem_cons_self
    have hrest := ih (n := a + 1) hhigh hl.of_cons fun i hi =>
      ⟨rel_of_pairwise_cons hl hi, (hbounds i (mem_cons_of_mem a hi)).2⟩
    rw [length_cons]
    omega

/-- **The lines before a range fit between it and what is shown before**, if every line is shown once and in order. -/
theorem clear_of_signs (hnonempty : ∀ range ∈ ranges, range.1 < range.2)
    (hordered : (entries.filterMap Entry.position).Pairwise (· < ·))
    (hlow : ∀ i ∈ entries.filterMap Entry.position, n ≤ i)
    (hsign : entries.map Entry.sign = (entriesFrom lastEnd ranges).map Entry.sign)
    (hchanged : entries.filterMap Entry.changed? = ranges.flatMap positionsOf) : Clear n ranges := by
  induction ranges generalizing entries n lastEnd with
  | nil => trivial
  | cons range ranges ih =>
    have hlt := hnonempty range mem_cons_self
    rw [entriesFrom, map_append, map_append, map_append] at hsign
    obtain ⟨marker, entries, rfl, hmarker, hsign⟩ := map_eq_append_iff.1 hsign
    obtain ⟨before, entries, rfl, hbefore, hsign⟩ := map_eq_append_iff.1 hsign
    obtain ⟨inside, behind, rfl, hinside, hsign⟩ := map_eq_append_iff.1 hsign
    have hmarkerSign : ∀ entry ∈ marker, entry.sign = '.' := by
      intro entry hentry
      have hmem := hmarker ▸ mem_map_of_mem (f := Entry.sign) hentry
      split_ifs at hmem
      · simpa [Entry.sign] using hmem
      · cases hmem
    have hbeforeSign : ∀ entry ∈ before, entry.sign = ' ' := by
      intro entry hentry
      have hmem := hbefore ▸ mem_map_of_mem (f := Entry.sign) hentry
      simp only [map_map, mem_map, comp_apply] at hmem
      obtain ⟨i, -, hi⟩ := hmem
      exact hi.symm
    have hinsideSign : ∀ entry ∈ inside, entry.sign = '+' := by
      intro entry hentry
      have hmem := hinside ▸ mem_map_of_mem (f := Entry.sign) hentry
      simp only [map_map, mem_map, comp_apply] at hmem
      obtain ⟨i, -, hi⟩ := hmem
      exact hi.symm
    -- The entries of the range are its positions.
    have hpositions : inside.filterMap Entry.position = positionsOf range ∧
        behind.filterMap Entry.changed? = ranges.flatMap positionsOf := by
      rw [filterMap_append, filterMap_append, filterMap_append,
        filterMap_changed?_of_ne (fun entry hentry => by rw [hmarkerSign entry hentry]; decide),
        filterMap_changed?_of_ne (fun entry hentry => by rw [hbeforeSign entry hentry]; decide),
        filterMap_changed?_eq hinsideSign, nil_append, nil_append, flatMap_cons] at hchanged
      refine append_inj hchanged ?_
      rw [length_filterMap_position (fun entry hentry => by rw [hinsideSign entry hentry]; decide)]
      simpa using congrArg List.length hinside
    have hbeforeLength : (before.filterMap Entry.position).length = range.1 - (range.1 - 3) := by
      rw [length_filterMap_position (fun entry hentry => by rw [hbeforeSign entry hentry]; decide)]
      simpa [positionsOf] using congrArg List.length hbefore
    simp only [filterMap_append, hpositions.1, mem_append, pairwise_append, mem_positionsOf] at hordered hlow
    obtain ⟨-, ⟨hbeforeOrdered, ⟨-, hbehindOrdered, hinsideBehind⟩, hbeforeInside⟩, -⟩ := hordered
    have hfits := add_length_le (hlow range.1 (.inr (.inr (.inl ⟨le_rfl, hlt⟩)))) hbeforeOrdered fun i hi =>
      ⟨hlow i (.inr (.inl hi)), hbeforeInside i hi range.1 (.inl ⟨le_rfl, hlt⟩)⟩
    refine ⟨by omega, ih (fun later hlater => hnonempty later (mem_cons_of_mem range hlater)) hbehindOrdered
      (fun i hi => ?_) hsign hpositions.2⟩
    have hlast := hinsideBehind (range.2 - 1) ⟨by omega, by omega⟩ i hi
    omega

theorem pairwise_positionsOf (hnonempty : ∀ range ∈ ranges, range.1 < range.2)
    (hapart : ranges.Pairwise fun range later => range.2 < later.1) :
    (ranges.flatMap positionsOf).Pairwise (· < ·) := by
  induction ranges with
  | nil => exact List.Pairwise.nil
  | cons range ranges ih =>
    rw [flatMap_cons, pairwise_append]
    refine ⟨pairwise_lt_range', ih (fun later hlater => hnonempty later (mem_cons_of_mem range hlater))
      hapart.of_cons, fun i hi k hk => ?_⟩
    obtain ⟨later, hlater, hk⟩ := mem_flatMap.1 hk
    have hbefore := rel_of_pairwise_cons hapart hlater
    simp only [mem_positionsOf] at hi hk
    omega

/-- **The view is exact where the ranges have room between them, and nowhere else.** -/
theorem isView_iff (h : AreRanges lines.length ranges) :
    IsView lines ranges (ContentStore.extractChangedLines lines ranges) ↔ Clear 0 ranges := by
  rw [extractChangedLines_eq fun range hrange => ⟨(h.nonempty range hrange).le, h.inside range hrange⟩]
  constructor
  · rintro ⟨entries, htext, hshows⟩
    refine clear_of_signs h.nonempty hshows.ordered (fun i _ => zero_le i) (map_sign_eq htext.symm) ?_
    refine (hshows.ordered.sublist (filterMap_changed?_sublist entries)).eq_of_mem_iff
      (pairwise_positionsOf h.nonempty h.apart) fun i => ?_
    rw [mem_filterMap_changed?, hshows.changed]
    simp [InRanges, mem_flatMap]
  · exact fun hclear => ⟨_, rfl, shows_entriesFrom h hclear⟩

/-! ### Gaps -/

theorem lt_of_inRanges_tail {k : ℕ} (hapart : (range :: ranges).Pairwise fun range later => range.2 < later.1)
    (h : InRanges ranges k) : range.2 < k := by
  obtain ⟨later, hlater, hstart, -⟩ := h
  exact (rel_of_pairwise_cons hapart hlater).trans_le hstart

/-- With room between them, the ranges start three lines behind the end of what is shown. -/
theorem le_of_clear (hnonempty : ∀ range ∈ ranges, range.1 < range.2)
    (hapart : ranges.Pairwise fun range later => range.2 < later.1) (hclear : Clear lastEnd ranges)
    (hlast : 0 < lastEnd) {k : ℕ} (hk : InRanges ranges k) : lastEnd + 3 ≤ k := by
  cases ranges with
  | nil => simp [InRanges] at hk
  | cons range ranges =>
    have hstart := hclear.1
    rcases inRanges_cons.1 hk with hk | hk
    · omega
    · have hbehind := lt_of_inRanges_tail hapart hk
      have hlt := hnonempty range mem_cons_self
      omega

/-- **There is room between the ranges exactly where no gap between them is one line or two.** -/
theorem clear_iff (hnonempty : ∀ range ∈ ranges, range.1 < range.2)
    (hapart : ranges.Pairwise fun range later => range.2 < later.1)
    (hfirst : ∀ range ∈ ranges.head?, lastEnd ≤ range.1 - 3) :
    Clear lastEnd ranges ↔ ∀ i, InRanges ranges i → ¬InRanges ranges (i + 1) →
      ¬InRanges ranges (i + 2) ∧ ¬InRanges ranges (i + 3) := by
  induction ranges generalizing lastEnd with
  | nil => simp [Clear, InRanges]
  | cons range ranges ih =>
    have hlt := hnonempty range mem_cons_self
    have htail : ∀ later ∈ ranges, later.1 < later.2 := fun later hlater =>
      hnonempty later (mem_cons_of_mem range hlater)
    have hbehind : ∀ {k}, InRanges ranges k → range.2 < k := fun hk => lt_of_inRanges_tail hapart hk
    constructor
    · rintro ⟨-, hclear⟩ i hi hnext
      have hroom : ∀ k, i + 2 ≤ k → k < i + 4 → ¬InRanges (range :: ranges) k := by
        intro k hlow hhigh hk
        simp only [inRanges_cons, not_or] at hi hnext hk
        rcases hi with hi | hi
        · -- the range ends behind the line
          have hend : range.2 = i + 1 := by omega
          rcases hk with hk | hk
          · omega
          · have hfar := le_of_clear htail hapart.of_cons hclear (by omega) hk
            omega
        · have hbefore := hbehind hi
          have hfirst : ∀ later ∈ ranges.head?, range.2 ≤ later.1 - 3 := by
            cases ranges with
            | nil => simp
            | cons next ranges => simpa using hclear.1
          have hspaced := (ih htail hapart.of_cons hfirst).1 hclear i hi hnext.2
          rcases hk with hk | hk
          · omega
          · obtain rfl | rfl : k = i + 2 ∨ k = i + 3 := by omega
            · exact hspaced.1 hk
            · exact hspaced.2 hk
      exact ⟨hroom (i + 2) le_rfl (by omega), hroom (i + 3) (by omega) (by omega)⟩
    · intro hspaced
      have hnext : ∀ later ∈ ranges.head?, range.2 ≤ later.1 - 3 := by
        intro later hlater
        have hmem : later ∈ ranges := mem_of_mem_head? hlater
        have hfar := rel_of_pairwise_cons hapart hmem
        have hlater : InRanges (range :: ranges) later.1 :=
          inRanges_cons.2 (.inr ⟨later, hmem, le_rfl, htail later hmem⟩)
        have hlast := hspaced (range.2 - 1) (inRanges_cons.2 (.inl ⟨by omega, by omega⟩)) fun h => by
          rcases inRanges_cons.1 h with h | h
          · omega
          · have := hbehind h
            omega
        have htwo : later.1 ≠ range.2 + 1 := fun h => hlast.1 (by
          rwa [show range.2 - 1 + 2 = later.1 by omega])
        have hthree : later.1 ≠ range.2 + 2 := fun h => hlast.2 (by
          rwa [show range.2 - 1 + 3 = later.1 by omega])
        omega
      refine ⟨hfirst range rfl, (ih htail hapart.of_cons hnext).2 fun i hi hnot => ?_⟩
      have hlow := hbehind hi
      have hrest := hspaced i (inRanges_cons.2 (.inr hi)) fun h => by
        rcases inRanges_cons.1 h with h | h
        · omega
        · exact hnot h
      exact ⟨fun h => hrest.1 (inRanges_cons.2 (.inr h)), fun h => hrest.2 (inRanges_cons.2 (.inr h))⟩

end

/-- The first range may start at any line. -/
theorem clear_zero_iff {n : ℕ} (h : AreRanges n ranges) :
    Clear 0 ranges ↔ ∀ i, InRanges ranges i → ¬InRanges ranges (i + 1) →
      ¬InRanges ranges (i + 2) ∧ ¬InRanges ranges (i + 3) :=
  clear_iff h.nonempty h.apart fun range _ => zero_le (range.1 - 3)

/-- Only the lines that are compared are added. -/
theorem lt_of_adds {old new : List String} (h : IsShortestDiff diff old new)
    (hi : Adds diff.ops i) : i < new.length := by
  obtain ⟨edits, -, rfl, hops, -⟩ := h
  rw [hops, ← zero_add i, adds_opsOf, List.getElem?_eq_some_iff] at hi
  obtain ⟨hlt, -⟩ := hi
  rwa [length_addedMarks] at hlt

section

variable {env : ContentEnv} {old new : List String}

theorem clear_changedRanges_iff (hshortest : IsShortestDiff (env.fromLines (textOf old) (textOf new))
    (comparedLines old) (comparedLines new)) :
    Clear 0 (changedRanges env old new) ↔ Spaced (env.fromLines (textOf old) (textOf new)).ops := by
  have hlt : ∀ {i}, Adds (env.fromLines (textOf old) (textOf new)).ops i → i < (comparedLines new).length :=
    fun hi => lt_of_adds hshortest hi
  by_cases hnil : new = []
  · -- No line is left to add behind the one that is compared.
    subst hnil
    have hranges : changedRanges env old [] = [] := rfl
    rw [hranges]
    refine iff_of_true trivial fun i hi hnext => ⟨fun h => ?_, fun h => ?_⟩ <;>
      exact absurd (hlt h) (by simp [comparedLines])
  · have hcompared : comparedLines new = new := if_neg hnil
    rw [hcompared] at hlt
    have hin : ∀ i, InRanges (changedRanges env old new) i ↔ Adds (env.fromLines (textOf old) (textOf new)).ops i :=
      fun i => (inRanges_changedRanges env old new i).trans (and_iff_right_of_imp hlt)
    rw [clear_zero_iff (areRanges_changedRanges env old new)]
    simp only [hin, Spaced]

/-- A view that is exact has room between its ranges. -/
theorem spaced_of_exactChanges (hshortest : IsShortestDiff (env.fromLines (textOf old) (textOf new))
    (comparedLines old) (comparedLines new)) (h : ExactChanges env old new) :
    Spaced (env.fromLines (textOf old) (textOf new)).ops :=
  (clear_changedRanges_iff hshortest).1 ((isView_iff h.ranges).1 h.view)

end

/-- **The changes are shown exactly where no empty list is taken for an empty line that the new list has, and no gap of
one line or of two is between lines that are added.** -/
theorem changedLines_exact_iff (env : ContentEnv) (old new : List String) (hold : ∀ line ∈ old, IsLine line)
    (hnew : ∀ line ∈ new, IsLine line)
    (hdiff : IsShortestDiff (env.fromLines (textOf old) (textOf new)) (tokenizeLines (textOf old))
      (tokenizeLines (textOf new))) :
    ExactChanges env old new ↔ (old ≠ [] ∨ "" ∉ new) ∧ Spaced (env.fromLines (textOf old) (textOf new)).ops := by
  rw [tokenizeLines_textOf hold, tokenizeLines_textOf hnew] at hdiff
  have hshortest := isShortestDiff_lines hdiff
  rw [← kept_iff hshortest]
  constructor
  · exact fun h => ⟨⟨h.kept, h.empty⟩, spaced_of_exactChanges hshortest h⟩
  · rintro ⟨⟨hkept, hempty⟩, hspaced⟩
    have hranges := areRanges_changedRanges env old new
    exact ⟨hranges, hkept, hempty, (isView_iff hranges).2 ((clear_changedRanges_iff hshortest).2 hspaced)⟩

/-- Two lines behind one that stays. -/
def appendedEdits : List (Edit String) := [.equal ["a\n"], .insert ["b\n", "c\n"]]

theorem changedLines_exact_iff_appended : ExactChanges (envOf appendedEdits) ["a"] ["a", "b", "c"] ↔
      ((["a"] : List String) ≠ [] ∨ "" ∉ ["a", "b", "c"]) ∧ Spaced (opsOf 0 0 appendedEdits) :=
  changedLines_exact_iff (envOf appendedEdits) ["a"] ["a", "b", "c"] (by simp [IsLine]) (by simp [IsLine])
    ⟨appendedEdits, rfl, rfl, rfl, fun _ h _ => h.length_le⟩

/-- A line before one that stays, and a line behind it. -/
def wrappedEdits : List (Edit String) := [.insert ["x\n"], .equal ["keep\n"], .insert ["y\n"]]

/-- The lines `x` and `keep` are shown before `y`, and `x` is shown already. -/
theorem not_exactChanges_wrappedEdits :
    IsShortestDiff ((envOf wrappedEdits).fromLines (textOf ["keep"]) (textOf ["x", "keep", "y"]))
        (tokenizeLines (textOf ["keep"])) (tokenizeLines (textOf ["x", "keep", "y"])) ∧
      ¬ExactChanges (envOf wrappedEdits) ["keep"] ["x", "keep", "y"] := by
  have hold : ∀ line ∈ ["keep"], IsLine line := by simp [IsLine]
  have hnew : ∀ line ∈ ["x", "keep", "y"], IsLine line := by simp [IsLine]
  have hdiff : IsShortestDiff (diffOf wrappedEdits) (tokenizeLines (textOf ["keep"]))
      (tokenizeLines (textOf ["x", "keep", "y"])) := by
    rw [tokenizeLines_textOf hold, tokenizeLines_textOf hnew]
    exact ⟨wrappedEdits, rfl, rfl, rfl, fun _ h _ => h.length_le⟩
  refine ⟨hdiff, fun h => ?_⟩
  rw [tokenizeLines_textOf hold, tokenizeLines_textOf hnew] at hdiff
  have hspaced := spaced_of_exactChanges (isShortestDiff_lines hdiff) h
  have hadds : ∀ i, Adds (opsOf 0 0 wrappedEdits) i ↔ i = 0 ∨ i = 2 := by
    intro i
    simp only [Adds, opsOf, opOf, wrappedEdits, tagOf, Edit.old, Edit.new, mem_cons, not_mem_nil,
      or_false, exists_eq_or_imp, exists_eq_left, length_cons, length_nil]
    simp
    omega
  exact (hspaced 0 ((hadds 0).2 (.inl rfl)) fun hone => by simpa using (hadds 1).1 hone).1 ((hadds 2).2 (.inr rfl))

end WildAgentOs.Tools.DiffEngine
