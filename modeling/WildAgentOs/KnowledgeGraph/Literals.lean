import WildAgentOs.KnowledgeGraph.Store

/-!
# Literals

`sparql_literal`, what the store makes of it, how the store prints a string, and what `normalize_term` and a JSON
string leave of that.

* `sparqlLiteral`, `parseString`;
* `printLiteral`, `normalizeTerm_printLiteral`: the escapes stay, and what looks like a datatype or a language tag
  is cut off;
* `jsonString_escape`.
-/

namespace WildAgentOs.KnowledgeGraph

open Text List Option

/-! ### Into the store -/

def sparqlLiteral (value : List Char) : List Char :=
  let value := replace ['\\'] "\\\\".toList value
  let value := replace ['"'] "\\\"".toList value
  let value := replace ['\n'] "\\n".toList value
  let value := replace ['\r'] "\\r".toList value
  '"' :: value ++ ['"']

/-- The characters that stand behind a backslash. -/
def echar : Char → Option Char
  | 't' => some '\t'
  | 'b' => some '\x08'
  | 'n' => some '\n'
  | 'r' => some '\r'
  | 'f' => some '\x0c'
  | '"' => some '"'
  | '\'' => some '\''
  | '\\' => some '\\'
  | _ => none

def parseEscapes : List Char → Option (List Char)
  | [] => some []
  | '\\' :: c :: s => (echar c).bind fun c => (parseEscapes s).map (c :: ·)
  | c :: s => if c = '\\' ∨ c = '"' ∨ c = '\n' ∨ c = '\r' then none else (parseEscapes s).map (c :: ·)

/-- How the store reads a string in quotes. -/
def parseString : List Char → Option (List Char)
  | '"' :: s => if s.getLast? = some '"' then parseEscapes s.dropLast else none
  | _ => none

/-- What `sparql_literal` makes of a character. -/
def sparqlEscape (c : Char) : List Char :=
  if c = '\\' then "\\\\".toList
  else if c = '"' then "\\\"".toList
  else if c = '\n' then "\\n".toList
  else if c = '\r' then "\\r".toList
  else [c]

theorem replace_char (c : Char) (rep s : List Char) :
    replace [c] rep s = s.flatMap fun x => if x = c then rep else [x] := by
  unfold Text.replace
  induction s with
  | nil => rfl
  | cons x s ih =>
    unfold replaceFrom
    rw [List.flatMap_cons]
    by_cases hx : x = c
    · rw [if_pos (by simp [hx]), if_pos hx]
      exact congrArg (rep ++ ·) ih
    · rw [if_neg (by simp [Ne.symm hx]), if_neg hx, ih]
      rfl

theorem sparqlLiteral_eq (value : List Char) : sparqlLiteral value = '"' :: value.flatMap sparqlEscape ++ ['"'] := by
  unfold sparqlLiteral
  simp only [replace_char, flatMap_assoc]
  have hchar : ∀ c : Char, (((if c = '\\' then "\\\\".toList else [c]).flatMap fun c =>
      (if c = '"' then "\\\"".toList else [c]).flatMap fun c =>
        (if c = '\n' then "\\n".toList else [c]).flatMap fun c =>
          if c = '\r' then "\\r".toList else [c])) = sparqlEscape c := by
    intro c
    unfold sparqlEscape
    split_ifs with h₁ h₂ h₃ h₄
    · rfl
    · rw [h₂]
      rfl
    · rw [h₃]
      rfl
    · rw [h₄]
      rfl
    · simp [h₂, h₃, h₄]
  simp only [hchar]

theorem parseEscapes_flatMap (value : List Char) : parseEscapes (value.flatMap sparqlEscape) = some value := by
  induction value with
  | nil => rfl
  | cons c value ih =>
    rw [flatMap_cons]
    generalize value.flatMap sparqlEscape = s at ih ⊢
    unfold sparqlEscape
    split_ifs with h₁ h₂ h₃ h₄
    · simp [parseEscapes, echar, ih, h₁]
    · simp [parseEscapes, echar, ih, h₂]
    · simp [parseEscapes, echar, ih, h₃]
    · simp [parseEscapes, echar, ih, h₄]
    · rw [singleton_append]
      unfold parseEscapes
      split
      next heq => exact (nomatch heq)
      next heq => exact absurd (cons.inj heq).1 h₁
      next heq =>
        obtain ⟨rfl, rfl⟩ := cons.inj heq
        simp [h₁, h₂, h₃, h₄, ih]

/-- A string is read as it was. -/
theorem parseString_sparqlLiteral (value : List Char) : parseString (sparqlLiteral value) = some value := by
  rw [sparqlLiteral_eq]
  change (if (value.flatMap sparqlEscape ++ ['"']).getLast? = some '"' then
    parseEscapes (value.flatMap sparqlEscape ++ ['"']).dropLast else none) = _
  rw [if_pos (by simp), dropLast_concat, parseEscapes_flatMap]

/-! ### Out of the store -/

def hexDigit (n : ℕ) : Char := if n < 10 then Char.ofNat (48 + n) else Char.ofNat (55 + n)

/-- What the store prints for a character of a string. -/
def escapeChar (c : Char) : List Char :=
  if c = '\x08' then "\\b".toList
  else if c = '\t' then "\\t".toList
  else if c = '\n' then "\\n".toList
  else if c = '\x0c' then "\\f".toList
  else if c = '\r' then "\\r".toList
  else if c = '"' then "\\\"".toList
  else if c = '\\' then "\\\\".toList
  else if c.toNat < 32 ∨ c.toNat = 127 then "\\u00".toList ++ [hexDigit (c.toNat / 16), hexDigit (c.toNat % 16)]
  else [c]

def escape (value : List Char) : List Char := value.flatMap escapeChar

/-- How the store prints a string. -/
def printLiteral (value : List Char) : List Char := '"' :: escape value ++ ['"']

theorem rsplitOnce_eq_none {sep s : List Char} (hsep : sep ≠ []) : rsplitOnce sep s = none ↔ ¬sep <:+: s := by
  induction s with
  | nil => simp [rsplitOnce, hsep]
  | cons c s ih =>
    rw [infix_cons_iff, not_or, ← ih, rsplitOnce]
    cases rsplitOnce sep s with
    | some parts => simp
    | none =>
      simp only
      split_ifs with hin <;> simp [hin]

/-- Nothing in the string looks like a datatype or a language tag behind a quote. -/
def Uncut (value : List Char) : Prop := ¬"\"^^<".toList <:+: '"' :: value ∧ ¬"\"@".toList <:+: '"' :: value

instance (value : List Char) : Decidable (Uncut value) := inferInstanceAs (Decidable (_ ∧ _))

/-- What is printed as it is, and is no quote. -/
def Verbatim (t : List Char) : Prop := ∀ c ∈ t, escapeChar c = [c] ∧ c ≠ '"' ∧ c ≠ '\\'

instance (t : List Char) : Decidable (Verbatim t) := List.decidableBAll _ t

/-- What is not printed as it is begins with a backslash, and a quote stands in it only for a quote. -/
theorem escapeChar_cases (c : Char) : escapeChar c = [c] ∧ c ≠ '"' ∧ c ≠ '\\' ∨ escapeChar c = ['\\', '"'] ∧ c = '"' ∨
      ∃ e, escapeChar c = '\\' :: e ∧ '"' ∉ escapeChar c := by
  have hhex : ∀ n < 16, hexDigit n ≠ '"' := by decide
  unfold escapeChar
  split_ifs with h₁ h₂ h₃ h₄ h₅ h₆ h₇ h₈
  · exact .inr (.inr ⟨_, rfl, by decide⟩)
  · exact .inr (.inr ⟨_, rfl, by decide⟩)
  · exact .inr (.inr ⟨_, rfl, by decide⟩)
  · exact .inr (.inr ⟨_, rfl, by decide⟩)
  · exact .inr (.inr ⟨_, rfl, by decide⟩)
  · exact .inr (.inl ⟨rfl, h₆⟩)
  · exact .inr (.inr ⟨_, rfl, by decide⟩)
  · refine .inr (.inr ⟨_, rfl, ?_⟩)
    have hhigh := hhex (c.toNat / 16) (by omega)
    have hlow := hhex (c.toNat % 16) (by omega)
    simp [hhigh.symm, hlow.symm]
  · exact .inl ⟨rfl, h₆, h₇⟩

section

variable {t value : List Char}

theorem prefix_of_prefix_escape (ht : Verbatim t) (h : t <+: escape value ++ ['"']) : t <+: value := by
  induction t generalizing value with
  | nil => exact nil_prefix
  | cons c t ih =>
    obtain ⟨-, hquote, hback⟩ := ht c mem_cons_self
    cases value with
    | nil => exact absurd (cons_prefix_cons.1 h).1 hquote
    | cons x value =>
      unfold escape at h
      rw [flatMap_cons] at h
      obtain ⟨hx, -⟩ | ⟨hx, -⟩ | ⟨e, hx, -⟩ := escapeChar_cases x
      · rw [hx] at h
        obtain ⟨hc, htail⟩ := cons_prefix_cons.1 h
        exact cons_prefix_cons.2 ⟨hc, ih (fun c hc => ht c (mem_cons_of_mem _ hc)) htail⟩
      · rw [hx] at h
        exact absurd (cons_prefix_cons.1 h).1 hback
      · rw [hx] at h
        exact absurd (cons_prefix_cons.1 h).1 hback

theorem infix_append_iff {α : Type*} {c : α} {t a b : List α} (hc : c ∉ a) : c :: t <:+: a ++ b ↔ c :: t <:+: b := by
  induction a with
  | nil => rfl
  | cons x a ih =>
    rw [cons_append, infix_cons_iff, ih fun hin => hc (mem_cons_of_mem _ hin)]
    refine or_iff_right fun h => hc ?_
    rw [(cons_prefix_cons.1 h).1]
    exact mem_cons_self

/-- A quote, and what is printed as it is behind it, is found only where it was. -/
theorem infix_of_infix_print (ht : Verbatim t) (hne : t ≠ []) (h : '"' :: t <:+: printLiteral value) :
    '"' :: t <:+: '"' :: value := by
  have hinner : ∀ value : List Char, '"' :: t <:+: escape value ++ ['"'] → '"' :: t <:+: value := by
    intro value
    induction value with
    | nil =>
      intro h
      obtain h | h := infix_cons_iff.1 h
      · exact absurd (prefix_nil.1 (cons_prefix_cons.1 h).2) hne
      · exact absurd (infix_nil.1 h) (cons_ne_nil _ _)
    | cons x value ih =>
      intro h
      have hescape : escape (x :: value) ++ ['"'] = escapeChar x ++ (escape value ++ ['"']) := by
        unfold escape
        rw [flatMap_cons, append_assoc]
      rw [hescape] at h
      rw [infix_cons_iff]
      obtain ⟨hx, hquote, -⟩ | ⟨hx, rfl⟩ | ⟨e, -, hquote⟩ := escapeChar_cases x
      · rw [hx, infix_append_iff (by simpa using hquote.symm)] at h
        exact .inr (ih h)
      · rw [hx] at h
        obtain h | h := infix_cons_iff.1 h
        · exact absurd (cons_prefix_cons.1 h).1 (by decide)
        · obtain h | h := infix_cons_iff.1 h
          · exact .inl (cons_prefix_cons.2 ⟨rfl, prefix_of_prefix_escape ht (cons_prefix_cons.1 h).2⟩)
          · exact .inr (ih h)
      · rw [infix_append_iff hquote] at h
        exact .inr (ih h)
  obtain h | h := infix_cons_iff.1 h
  · exact infix_cons_iff.2 (.inl (cons_prefix_cons.2 ⟨rfl, prefix_of_prefix_escape ht (cons_prefix_cons.1 h).2⟩))
  · exact infix_cons_iff.2 (.inr (hinner value h))

/-- What is read of a printed string: the string with its escapes. -/
theorem normalizeTerm_printLiteral (h : Uncut value) : normalizeTerm (printLiteral value) = some (escape value) := by
  have hdatatype : rsplitOnce "\"^^<".toList (printLiteral value) = none :=
    (rsplitOnce_eq_none (by decide)).2 fun hin =>
      h.1 (infix_of_infix_print (t := "^^<".toList) (by decide) (by decide) hin)
  have hlanguage : rsplitOnce "\"@".toList (printLiteral value) = none :=
    (rsplitOnce_eq_none (by decide)).2 fun hin =>
      h.2 (infix_of_infix_print (t := "@".toList) (by decide) (by decide) hin)
  have hhead : (printLiteral value).head? = some '"' := rfl
  have hlast : (printLiteral value).getLast? = some '"' := getLast?_concat
  unfold normalizeTerm
  have hopen : ¬(some '"' = some '<' ∧ (printLiteral value).getLast? = some '>') := fun h => absurd h.1 (by decide)
  rw [hdatatype, hlanguage, hhead, if_neg hopen, if_pos rfl]
  simp only
  rw [if_pos ⟨hlast, by simp [printLiteral]⟩]
  change some (escape value ++ ['"']).dropLast = _
  rw [dropLast_concat]

/-- A string that is read as it was written. -/
def Prints (value : List Char) : Prop :=
  (∀ c ∈ value, escapeChar c = [c]) ∧ ¬"^^<".toList <+: value ∧ ¬"@".toList <+: value

theorem escape_of_verbatim (h : ∀ c ∈ value, escapeChar c = [c]) : escape value = value := by
  unfold escape
  rw [flatMap_congr h, flatMap_singleton']

theorem Prints.uncut (h : Prints value) : Uncut value := by
  have hquote : '"' ∉ value := by
    intro hin
    exact absurd (h.1 '"' hin) (by decide)
  have hnot : ∀ t : List Char, ¬ '"' :: t <:+: value := fun t hin => hquote (hin.subset mem_cons_self)
  constructor
  · intro hin
    exact (infix_cons_iff.1 hin).elim (fun hin => h.2.1 (cons_prefix_cons.1 hin).2) (hnot _)
  · intro hin
    exact (infix_cons_iff.1 hin).elim (fun hin => h.2.2 (cons_prefix_cons.1 hin).2) (hnot _)

end

/-! ### JSON strings -/

def hexValue (c : Char) : Option ℕ :=
  if '0' ≤ c ∧ c ≤ '9' then some (c.toNat - 48)
  else if 'a' ≤ c ∧ c ≤ 'f' then some (c.toNat - 87)
  else if 'A' ≤ c ∧ c ≤ 'F' then some (c.toNat - 55)
  else none

def hex4 : List Char → Option (ℕ × List Char)
  | a :: b :: c :: d :: s => do
    return ((((← hexValue a) * 16 + (← hexValue b)) * 16 + (← hexValue c)) * 16 + (← hexValue d), s)
  | _ => none

/-- The characters that stand behind a backslash in JSON. -/
def jsonEscape : Char → Option Char
  | '"' => some '"'
  | '\\' => some '\\'
  | '/' => some '/'
  | 'b' => some '\x08'
  | 'f' => some '\x0c'
  | 'n' => some '\n'
  | 'r' => some '\r'
  | 't' => some '\t'
  | _ => none

/-- The character of a `\u`, and of a pair of them for a pair of surrogates. -/
def jsonUnicode (s : List Char) : Option (Char × List Char) :=
  (hex4 s).bind fun (n, s) =>
    if 0xD800 ≤ n ∧ n < 0xDC00 then
      match s with
      | '\\' :: 'u' :: s =>
        (hex4 s).bind fun (low, s) =>
          if 0xDC00 ≤ low ∧ low < 0xE000 then
            some (Char.ofNat (0x10000 + (n - 0xD800) * 0x400 + (low - 0xDC00)), s)
          else none
      | _ => none
    else if 0xDC00 ≤ n ∧ n < 0xE000 then none
    else some (Char.ofNat n, s)

def jsonChar : List Char → Option (Char × List Char)
  | [] => none
  | c :: s =>
    if c = '\\' then
      match s with
      | [] => none
      | e :: s => if e = 'u' then jsonUnicode s else (jsonEscape e).map (·, s)
    else if c = '"' ∨ c.toNat < 32 then none
    else some (c, s)

def jsonChars : ℕ → List Char → Option (List Char)
  | _, [] => some []
  | 0, _ => none
  | fuel + 1, s => (jsonChar s).bind fun (c, s) => (jsonChars fuel s).map (c :: ·)

/-- `from_str::<String>` of a text in quotes. -/
def jsonString (s : List Char) : Option (List Char) := jsonChars s.length s

theorem hexValue_hexDigit {n : ℕ} (h : n < 16) : hexValue (hexDigit n) = some n := by
  revert h
  revert n
  decide

/-- What the store prints for a character is read as this character in JSON. -/
theorem jsonChar_escapeChar (c : Char) (s : List Char) : jsonChar (escapeChar c ++ s) = some (c, s) := by
  unfold escapeChar
  split_ifs with h₁ h₂ h₃ h₄ h₅ h₆ h₇ h₈
  · rw [h₁]
    rfl
  · rw [h₂]
    rfl
  · rw [h₃]
    rfl
  · rw [h₄]
    rfl
  · rw [h₅]
    rfl
  · rw [h₆]
    rfl
  · rw [h₇]
    rfl
  · have hhigh : hexValue (hexDigit (c.toNat / 16)) = some (c.toNat / 16) := hexValue_hexDigit (by omega)
    have hlow : hexValue (hexDigit (c.toNat % 16)) = some (c.toNat % 16) := hexValue_hexDigit (by omega)
    have hzero : hexValue '0' = some 0 := by decide
    have hhex : hex4 ('0' :: '0' :: hexDigit (c.toNat / 16) :: hexDigit (c.toNat % 16) :: s) = some (c.toNat, s) := by
      simp only [hex4, hzero, hhigh, hlow, bind_eq_bind, bind_some, Option.pure_def, some.injEq,
        Prod.mk.injEq, and_true]
      omega
    change jsonUnicode ('0' :: '0' :: hexDigit (c.toNat / 16) :: hexDigit (c.toNat % 16) :: s) = _
    unfold jsonUnicode
    rw [hhex, bind_some]
    simp only
    rw [if_neg (by omega), if_neg (by omega), Char.ofNat_toNat]
  · rw [singleton_append]
    unfold jsonChar
    simp only
    rw [if_neg h₇, if_neg]
    rintro (hquote | hcontrol)
    · exact h₆ hquote
    · exact h₈ (.inl hcontrol)

theorem length_le_escape (value : List Char) : value.length ≤ (escape value).length := by
  induction value with
  | nil => exact le_rfl
  | cons c value ih =>
    have hescape : escape (c :: value) = escapeChar c ++ escape value := flatMap_cons
    rw [hescape, length_cons, length_append]
    obtain ⟨hc, -⟩ | ⟨hc, -⟩ | ⟨e, hc, -⟩ := escapeChar_cases c
    all_goals
      rw [hc]
      simp only [length_cons, length_nil]
      omega

/-- A printed string is read in JSON as it was. -/
theorem jsonString_escape (value : List Char) : jsonString (escape value) = some value := by
  have hchars : ∀ (value : List Char) (fuel : ℕ), value.length ≤ fuel → jsonChars fuel (escape value) = some value := by
    intro value
    induction value with
    | nil => exact fun fuel _ => by cases fuel <;> rfl
    | cons c value ih =>
      intro fuel hfuel
      cases fuel with
      | zero => exact absurd hfuel (by simp)
      | succ fuel =>
        have hescape : escape (c :: value) = escapeChar c ++ escape value := flatMap_cons
        have hne : escapeChar c ++ escape value ≠ [] := by
          obtain ⟨hc, -⟩ | ⟨hc, -⟩ | ⟨e, hc, -⟩ := escapeChar_cases c <;> simp [hc]
        rw [hescape, jsonChars, jsonChar_escapeChar, bind_some]
        · simp only [ih fuel (Nat.le_of_succ_le_succ hfuel), map_some]
        · exact fun heq => hne heq
  exact hchars value _ (length_le_escape value)

end WildAgentOs.KnowledgeGraph
