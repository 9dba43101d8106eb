import WildAgentOs.Json.Value
import WildAgentOs.Lib.Text

/-!
# How JSON is printed

The strings and numbers that `serde_json` prints, and lists of printed values between commas.  How a number is printed
is a parameter.

* `printString`, `NumberText`, `Value.nested`;
* `eq_of_printString`, `forall₂_of_listed`: what can be read back from a text that goes on.
-/

namespace WildAgentOs.Json

open List

/-- A lower-case hexadecimal digit. -/
def hexDigit (n : ℕ) : Char := if n < 10 then Char.ofNat (48 + n) else Char.ofNat (87 + n)

/-- The letter behind the backslash that stands for a character. -/
def escapeLetter : Char → Option Char
  | '"' => some '"'
  | '\\' => some '\\'
  | '\x08' => some 'b'
  | '\x0c' => some 'f'
  | '\n' => some 'n'
  | '\r' => some 'r'
  | '\t' => some 't'
  | _ => none

/-- What stands for a character of a string. -/
def escapeChar (c : Char) : List Char :=
  match escapeLetter c with
  | some letter => ['\\', letter]
  | none =>
    if c.toNat < 32 then ['\\', 'u', '0', '0', hexDigit (c.toNat / 16), hexDigit (c.toNat % 16)]
    else [c]

/-- `Value::String(..).to_string()`. -/
def printString (s : String) : List Char := '"' :: (s.toList.flatMap escapeChar ++ ['"'])

def numberChars : List Char := "0123456789+-.eE".toList

/-- How numbers are printed: distinct ones distinctly, with the characters of numbers. -/
structure NumberText where
  print : Number → List Char
  injective : Function.Injective print
  ne_nil : ∀ n, print n ≠ []
  chars : ∀ n, ∀ c ∈ print n, c ∈ numberChars

/-- Induction over values: the items of an array and the members of an object come first. -/
theorem Value.nested {P : Value → Prop} (null : P .null) (bool : ∀ b, P (.bool b)) (number : ∀ n, P (.number n))
    (string : ∀ s, P (.string s)) (array : ∀ items, (∀ v ∈ items, P v) → P (.array items))
    (object : ∀ members : List (String × Value), (∀ m ∈ members, P m.2) → P (.object members)) : ∀ v, P v
  | .null => null
  | .bool b => bool b
  | .number n => number n
  | .string s => string s
  | .array items => array items fun v _ => Value.nested null bool number string array object v
  | .object members => object members fun m _ => Value.nested null bool number string array object m.2
termination_by v => sizeOf v
decreasing_by
  · have := sizeOf_lt_of_mem ‹_›
    simp
    omega
  · have := sizeOf_lt_of_mem ‹_›
    cases m
    simp at *
    omega

/-! ### Strings -/

/-- The digits of two small numbers are the same only where the numbers are. -/
theorem hexDigit_injective : ∀ a < 16, ∀ b < 16, hexDigit a = hexDigit b → a = b := by decide

/-- The character that a letter stands for. -/
def unescapeLetter : Char → Char
  | 'b' => '\x08'
  | 'f' => '\x0c'
  | 'n' => '\n'
  | 'r' => '\r'
  | 't' => '\t'
  | c => c

theorem unescapeLetter_escapeLetter {c letter : Char} (h : escapeLetter c = some letter) :
    unescapeLetter letter = c ∧ letter ≠ 'u' := by
  unfold escapeLetter at h
  split at h <;> cases h <;> decide

/-- What stands for a character: a letter or four digits behind a backslash, or the character itself. -/
theorem escapeChar_cases (c : Char) :
    (∃ letter, escapeChar c = ['\\', letter] ∧ letter ≠ 'u' ∧ c = unescapeLetter letter) ∨
      (c.toNat < 32 ∧ escapeChar c = ['\\', 'u', '0', '0', hexDigit (c.toNat / 16), hexDigit (c.toNat % 16)]) ∨
      escapeChar c = [c] ∧ c ≠ '\\' ∧ c ≠ '"' := by
  unfold escapeChar
  cases hletter : escapeLetter c with
  | some letter =>
    obtain ⟨hc, hu⟩ := unescapeLetter_escapeLetter hletter
    exact .inl ⟨letter, rfl, hu, hc.symm⟩
  | none =>
    simp only
    split_ifs with hcontrol
    · exact .inr (.inl ⟨hcontrol, rfl⟩)
    · refine .inr (.inr ⟨rfl, ?_, ?_⟩)
      · rintro rfl
        exact absurd hletter (by decide)
      · rintro rfl
        exact absurd hletter (by decide)

variable {rest rest' : List Char}

/-- A character is read back from what stands for it. -/
theorem eq_of_escapeChar {c d : Char} (h : escapeChar c ++ rest = escapeChar d ++ rest') : c = d := by
  rcases escapeChar_cases c with ⟨letter, hc, hu, hletter⟩ | ⟨hcontrol, hc⟩ | ⟨hc, hslash, -⟩ <;>
    rcases escapeChar_cases d with ⟨letter', hd, hu', hletter'⟩ | ⟨hcontrol', hd⟩ | ⟨hd, hslash', -⟩ <;>
      rw [hc, hd] at h <;> simp only [cons_append, nil_append, cons.injEq, true_and] at h
  · rw [hletter, hletter', h.1]
  · exact absurd h.1 hu
  · exact absurd h.1.symm hslash'
  · exact absurd h.1.symm hu'
  · have hhigh := hexDigit_injective _ (by omega) _ (by omega) h.1
    have hlow := hexDigit_injective _ (by omega) _ (by omega) h.2.1
    have hnat : c.toNat = d.toNat := by omega
    exact Char.toNat_inj.1 hnat
  · exact absurd h.1.symm hslash'
  · exact absurd h.1 hslash
  · exact absurd h.1 hslash
  · exact h.1

/-- What stands for a character starts with no quote. -/
theorem escapeChar_head (c : Char) : ∃ first rest, escapeChar c = first :: rest ∧ first ≠ '"' := by
  rcases escapeChar_cases c with ⟨letter, hc, -, -⟩ | ⟨-, hc⟩ | ⟨hc, -, hquote⟩
  · exact ⟨_, _, hc, by decide⟩
  · exact ⟨_, _, hc, by decide⟩
  · exact ⟨_, _, hc, hquote⟩

/-- **A string is read back from its print, whatever follows.** -/
theorem eq_of_printString {s t : String} (h : printString s ++ rest = printString t ++ rest') :
    s = t ∧ rest = rest' := by
  have hchars : ∀ {cs ds : List Char}, cs.flatMap escapeChar ++ '"' :: rest = ds.flatMap escapeChar ++ '"' :: rest' →
      cs = ds ∧ rest = rest' := by
    intro cs
    induction cs with
    | nil =>
      intro ds heq
      cases ds with
      | nil => exact ⟨rfl, (cons.inj heq).2⟩
      | cons d ds =>
        obtain ⟨first, others, hd, hquote⟩ := escapeChar_head d
        rw [flatMap_cons, hd] at heq
        exact absurd (cons.inj heq).1.symm hquote
    | cons c cs ih =>
      intro ds heq
      cases ds with
      | nil =>
        obtain ⟨first, others, hc, hquote⟩ := escapeChar_head c
        rw [flatMap_cons, hc] at heq
        exact absurd (cons.inj heq).1 hquote
      | cons d ds =>
        rw [flatMap_cons, flatMap_cons, append_assoc, append_assoc] at heq
        obtain rfl := eq_of_escapeChar heq
        obtain ⟨rfl, hrest⟩ := ih (append_cancel_left heq)
        exact ⟨rfl, hrest⟩
  unfold printString at h
  rw [cons_append, cons_append, append_assoc, append_assoc] at h
  obtain ⟨hlist, hrest⟩ := hchars (cons.inj h).2
  exact ⟨String.toList_injective hlist, hrest⟩

/-! ### Lists -/

/-- What may follow a value: nothing, or the end of its list, or a comma. -/
def Stop (rest : List Char) : Prop := ∀ c, rest.head? = some c → c = ',' ∨ c = ']' ∨ c = '}'

variable {α β : Type*}

theorem exists_of_forall₂ {R : α → β → Prop} {as : List α} {bs : List β} (h : List.Forall₂ R as bs)
    {a : α} (ha : a ∈ as) : ∃ b ∈ bs, R a b := by
  induction h with
  | nil => exact absurd ha not_mem_nil
  | cons hab _ ih =>
    rcases mem_cons.1 ha with rfl | ha
    · exact ⟨_, mem_cons_self, hab⟩
    · obtain ⟨b, hb, hrel⟩ := ih ha
      exact ⟨b, mem_cons_of_mem _ hb, hrel⟩

theorem map_eq_of_forall₂ {α β γ : Type*} {R : α → β → Prop} {f : α → γ} {g : β → γ} {as : List α} {bs : List β}
    (h : List.Forall₂ R as bs) (heq : ∀ a ∈ as, ∀ b ∈ bs, R a b → f a = g b) : as.map f = bs.map g := by
  induction h with
  | nil => rfl
  | cons hab _ ih =>
    rw [map_cons, map_cons, heq _ mem_cons_self _ mem_cons_self hab,
      ih fun a ha b hb => heq a (mem_cons_of_mem _ ha) b (mem_cons_of_mem _ hb)]

/-- Parts between commas, up to a bracket. -/
def listed (close : Char) (rest : List Char) (parts : List (List Char)) : List Char :=
  [','].intercalate parts ++ close :: rest

/-- What follows the first part. -/
def listedTail (close : Char) (rest : List Char) : List (List Char) → List Char
  | [] => close :: rest
  | part :: parts => ',' :: listed close rest (part :: parts)

theorem listed_cons (close : Char) (rest part : List Char) (parts : List (List Char)) :
    listed close rest (part :: parts) = part ++ listedTail close rest parts := by
  cases parts with
  | nil => rw [listed, intercalate_singleton, listedTail]
  | cons second parts => simp only [listed, listedTail, intercalate_cons_cons, append_assoc, cons_append, nil_append]

theorem listed_append (close : Char) (rest : List Char) (parts : List (List Char)) :
    listed close [] parts ++ rest = listed close rest parts := by
  rw [listed, listed, append_assoc, cons_append, nil_append]

variable {close : Char}

theorem stop_listedTail (hclose : close = ']' ∨ close = '}') (rest : List Char)
    (parts : List (List Char)) : Stop (listedTail close rest parts) := by
  intro c hc
  cases parts with
  | nil =>
    cases hc
    exact .inr hclose
  | cons part parts => exact .inl (Option.some.inj hc).symm

/-- **Two lists of parts are read back one by one**, where each part of the one is read back as a part of the other. -/
theorem forall₂_of_listed {code : α → List Char} {code' : β → List Char} {R : α → β → Prop}
    (hclose : close = ']' ∨ close = '}') {as : List α} {bs : List β}
    (hread : ∀ a ∈ as, ∀ b ∈ bs, ∀ r r', Stop r → Stop r' → code a ++ r = code' b ++ r' → R a b ∧ r = r')
    (has : ∀ a ∈ as, ∃ c t, code a = c :: t ∧ c ≠ close) (hbs : ∀ b ∈ bs, ∃ c t, code' b = c :: t ∧ c ≠ close)
    (h : listed close rest (as.map code) = listed close rest' (bs.map code')) :
    List.Forall₂ R as bs ∧ rest = rest' := by
  induction as generalizing bs with
  | nil =>
    cases bs with
    | nil => exact ⟨.nil, (cons.inj h).2⟩
    | cons b bs =>
      obtain ⟨c, t, hb, hne⟩ := hbs b mem_cons_self
      rw [map_cons, listed_cons, hb] at h
      exact absurd (cons.inj h).1.symm hne
  | cons a as ih =>
    cases bs with
    | nil =>
      obtain ⟨c, t, ha, hne⟩ := has a mem_cons_self
      rw [map_cons, listed_cons, ha] at h
      exact absurd (cons.inj h).1 hne
    | cons b bs =>
      rw [map_cons, map_cons, listed_cons, listed_cons] at h
      obtain ⟨hab, htail⟩ := hread a mem_cons_self b mem_cons_self _ _ (stop_listedTail hclose _ _)
        (stop_listedTail hclose _ _) h
      have hcomma : close ≠ ',' := by rcases hclose with rfl | rfl <;> decide
      have hrest : List.Forall₂ R as bs ∧ rest = rest' := by
        cases as with
        | nil =>
          cases bs with
          | nil => exact ⟨.nil, (cons.inj htail).2⟩
          | cons b' bs => exact absurd (cons.inj htail).1 hcomma
        | cons a' as =>
          cases bs with
          | nil => exact absurd (cons.inj htail).1.symm hcomma
          | cons b' bs =>
            refine ih ?_ ?_ ?_ (cons.inj htail).2
            · exact fun x hx y hy => hread x (mem_cons_of_mem a hx) y (mem_cons_of_mem b hy)
            · exact fun x hx => has x (mem_cons_of_mem a hx)
            · exact fun y hy => hbs y (mem_cons_of_mem b hy)
      exact ⟨.cons hab hrest.1, hrest.2⟩

end WildAgentOs.Json
