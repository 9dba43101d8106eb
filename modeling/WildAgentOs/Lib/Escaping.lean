import WildAgentOs.Lib.Text

/-!
# Escapes that are taken off one after the other

A text is spelled symbol by symbol, where a mark stands before the symbols that need one, and before itself.  The
marks are taken off by one replacement for each marked symbol, that of the mark itself last; each replacement only
sees the marks of its own symbol, whatever run of marks stands in front.

* `escapeWith`: the spelling;
* `replace_escapeWith`, `replace_escapeWith_mark`, `even_trailing_marks`, `trim_eq_self_iff`.
-/

namespace Escaping

open Text List

/-! ### White space at the ends -/

variable {s : List Char}

theorem trimStart_eq_self_iff : trimStart s = s ↔ ∀ c ∈ s.head?, isWhitespace c = false := by
  unfold trimStart
  cases s with
  | nil => simp
  | cons c s =>
    by_cases hc : isWhitespace c = true
    · have hne : s.dropWhile isWhitespace ≠ c :: s := by
        intro heq
        have hle := (dropWhile_suffix isWhitespace (l := s)).length_le
        rw [heq, length_cons] at hle
        omega
      simp [hc, hne]
    · simp [hc]

theorem trimEnd_eq_self_iff : trimEnd s = s ↔ ∀ c ∈ s.getLast?, isWhitespace c = false := by
  have hreverse : trimEnd s = s ↔ trimStart s.reverse = s.reverse := by
    unfold trimEnd trimStart
    rw [reverse_eq_iff]
  rw [hreverse, trimStart_eq_self_iff, head?_reverse]

/-- **A text stays as it is** when neither of its ends is white space. -/
theorem trim_eq_self_iff : trim s = s ↔
    (∀ c ∈ s.head?, isWhitespace c = false) ∧ ∀ c ∈ s.getLast?, isWhitespace c = false := by
  rw [← trimStart_eq_self_iff, ← trimEnd_eq_self_iff]
  unfold trim
  constructor
  · intro h
    have hstart : trimStart s = s := by
      have hsuffix : trimStart s <:+ s := dropWhile_suffix _
      have hlength : (trimEnd (trimStart s)).length ≤ (trimStart s).length := by
        unfold trimEnd
        rw [length_reverse, ← @length_reverse _ (trimStart s)]
        exact (dropWhile_suffix _).length_le
      rw [h] at hlength
      exact hsuffix.eq_of_length_le hlength
    exact ⟨hstart, by rwa [hstart] at h⟩
  · rintro ⟨hstart, hend⟩
    rw [hstart, hend]

/-! ### Spellings -/

/-- A mark before each symbol that is marked. -/
def escapeWith (mark : Char) (marked : Char → Bool) (s : List Char) : List Char :=
  s.flatMap fun c => if marked c then [mark, c] else [c]

variable {mark p : Char} {marked : Char → Bool}

@[simp] theorem escapeWith_nil : escapeWith mark marked [] = [] := rfl

variable {c : Char}

theorem escapeWith_cons_of_marked (h : marked c = true) (s : List Char) :
    escapeWith mark marked (c :: s) = mark :: c :: escapeWith mark marked s := by
  simp [escapeWith, h]

theorem escapeWith_cons_of_unmarked (h : marked c = false) (s : List Char) :
    escapeWith mark marked (c :: s) = c :: escapeWith mark marked s := by
  simp [escapeWith, h]

theorem escapeWith_append (s t : List Char) :
    escapeWith mark marked (s ++ t) = escapeWith mark marked s ++ escapeWith mark marked t :=
  flatMap_append

/-- A text without marked symbols is its own spelling. -/
theorem escapeWith_eq_self (h : ∀ c ∈ s, marked c = false) : escapeWith mark marked s = s := by
  induction s with
  | nil => rfl
  | cons c s ih =>
    rw [escapeWith_cons_of_unmarked (h c mem_cons_self), ih fun d hd => h d (mem_cons_of_mem c hd)]

/-- The first symbol of a spelling is the mark or that of the text. -/
theorem head?_escapeWith (h : c ∈ (escapeWith mark marked s).head?) : c = mark ∨ c ∈ s.head? ∧ marked c = false := by
  cases s with
  | nil => simp at h
  | cons d s =>
    cases hd : marked d with
    | true =>
      rw [escapeWith_cons_of_marked hd] at h
      exact .inl (by simpa using h.symm)
    | false =>
      rw [escapeWith_cons_of_unmarked hd] at h
      obtain rfl : d = c := by simpa using h
      exact .inr ⟨by simp, hd⟩

/-- The last symbol of a spelling is that of the text. -/
theorem getLast?_escapeWith (s : List Char) : (escapeWith mark marked s).getLast? = s.getLast? := by
  induction s using reverseRecOn with
  | nil => rfl
  | append_singleton s c ih =>
    rw [escapeWith_append]
    cases hc : marked c <;> simp [escapeWith, hc]

/-- One symbol that starts no occurrence. -/
theorem replace_cons_of_not_start {pat rep : List Char} (h : ¬pat <+: c :: s) :
    replace pat rep (c :: s) = c :: replace pat rep s := by
  unfold Text.replace
  rw [replaceFrom, if_neg h]

/-- An occurrence of two symbols. -/
theorem replace_cons_cons (a b : Char) (rep s : List Char) :
    replace [a, b] rep (a :: b :: s) = rep ++ replace [a, b] rep s := by
  unfold Text.replace
  rw [replaceFrom, if_pos (by simp)]
  rfl

/-- **The marks of one symbol** are taken off by one replacement, and no others. -/
theorem replace_escapeWith (hp : marked p = true) (hmark : marked mark = true) (hne : p ≠ mark) (s : List Char) :
    replace [mark, p] [p] (escapeWith mark marked s) = escapeWith mark (fun c => marked c && decide (c ≠ p)) s := by
  -- A spelling does not start with the bare symbol, so the second mark of a pair starts no occurrence.
  have hstart : ∀ s, ¬[mark, p] <+: mark :: escapeWith mark marked s := by
    rintro s ⟨t, ht⟩
    have hhead : p ∈ (escapeWith mark marked s).head? := by
      rw [← (cons.inj ht).2]
      rfl
    rcases head?_escapeWith hhead with heq | ⟨-, hfalse⟩
    · exact hne heq
    · rw [hp] at hfalse
      cases hfalse
  induction s with
  | nil => rfl
  | cons c s ih =>
    cases hc : marked c with
    | true =>
      rw [escapeWith_cons_of_marked hc]
      by_cases hcp : c = p
      · subst hcp
        rw [replace_cons_cons, ih, escapeWith_cons_of_unmarked (by simp)]
        rfl
      · rw [escapeWith_cons_of_marked (by simp [hc, hcp]), replace_cons_of_not_start (by simp [Ne.symm hcp])]
        by_cases hcm : c = mark
        · subst hcm
          rw [replace_cons_of_not_start (hstart s), ih]
        · rw [replace_cons_of_not_start (by simp [Ne.symm hcm]), ih]
    | false =>
      have hcm : mark ≠ c := by
        rintro rfl
        rw [hmark] at hc
        cases hc
      rw [escapeWith_cons_of_unmarked hc, escapeWith_cons_of_unmarked (by simp [hc]),
        replace_cons_of_not_start (by simp [hcm]), ih]

/-- **The last replacement** takes the mark off itself. -/
theorem replace_escapeWith_mark (hmarked : ∀ c, marked c = true ↔ c = mark) (s : List Char) :
    replace [mark, mark] [mark] (escapeWith mark marked s) = s := by
  induction s with
  | nil => rfl
  | cons c s ih =>
    by_cases hc : c = mark
    · subst hc
      rw [escapeWith_cons_of_marked ((hmarked c).2 rfl), replace_cons_cons, ih]
      rfl
    · rw [escapeWith_cons_of_unmarked (by simpa using mt (hmarked c).1 hc),
        replace_cons_of_not_start (by simp [Ne.symm hc]), ih]

/-- **Marks at the end of a spelling come in pairs**, behind a symbol that is no mark. -/
theorem even_trailing_marks (hc : c ≠ mark) (hmark : marked mark = true) (s front : List Char) :
    ((front ++ c :: escapeWith mark marked s).reverse.takeWhile (· = mark)).length % 2 = 0 := by
  induction s using reverseRecOn with
  | nil => simp [hc]
  | append_singleton s d ih =>
    rw [escapeWith_append, ← cons_append, ← append_assoc, reverse_append]
    by_cases hd : d = mark
    · subst hd
      have hpair : (escapeWith d marked [d]).reverse = [d, d] := by
        rw [escapeWith_cons_of_marked hmark]
        rfl
      rw [hpair]
      simp only [cons_append, nil_append, decide_true, takeWhile_cons_of_pos, length_cons]
      omega
    · have hlast : ∃ rest, (escapeWith mark marked [d]).reverse = d :: rest := by
        cases hd' : marked d <;> simp [escapeWith, hd']
      obtain ⟨rest, hrest⟩ := hlast
      rw [hrest]
      simp [hd]

end Escaping
