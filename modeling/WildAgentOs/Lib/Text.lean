import WildAgentOs.Lib.LittleEndian

/-!
# Texts as lists of characters

The functions of `str` that parsers are written with, on `List Char`: `trim` and its halves,
`lines`, `to_lowercase`, `strip_prefix`, `trim_start_matches` and `replace`, and `String::from_utf8_lossy`.
-/

namespace Text

open LittleEndian List

/-- `char::is_whitespace`: the Unicode property `White_Space`. -/
def isWhitespace (c : Char) : Bool :=
  let n := c.toNat
  (9 ≤ n && n ≤ 13) || n == 0x20 || n == 0x85 || n == 0xA0 || n == 0x1680 ||
    (0x2000 ≤ n && n ≤ 0x200A) || n == 0x2028 || n == 0x2029 || n == 0x202F || n == 0x205F ||
    n == 0x3000

def trimStart (s : List Char) : List Char := s.dropWhile isWhitespace

def trimEnd (s : List Char) : List Char := (s.reverse.dropWhile isWhitespace).reverse

def trim (s : List Char) : List Char := trimEnd (trimStart s)

/-- `to_lowercase`, as far as it matters to a comparison with ASCII text: the Kelvin sign is the only other
character whose lower case is an ASCII letter by itself. -/
def toLowercase (s : List Char) : List Char := s.map fun c => if c.toNat = 0x212A then 'k' else c.toLower

/-- `strip_prefix`. -/
def stripStart (pre s : List Char) : Option (List Char) := if pre <+: s then some (s.drop pre.length) else none

theorem stripStart_eq_some {pre s rest : List Char} : stripStart pre s = some rest ↔ s = pre ++ rest := by
  unfold stripStart
  constructor
  · intro h
    split_ifs at h with hpre
    obtain ⟨tail, rfl⟩ := hpre
    rw [← Option.some.inj h, drop_left]
  · rintro rfl
    rw [if_pos (prefix_append pre rest), drop_left]

theorem stripStart_eq_none {pre s : List Char} : stripStart pre s = none ↔ ¬pre <+: s := by
  unfold stripStart
  split_ifs with hpre
  · exact ⟨fun h => (nomatch h), fun h => absurd hpre h⟩
  · exact ⟨fun _ => hpre, fun _ => rfl⟩

def trimStartMatches (pre : List Char) : ℕ → List Char → List Char
  | 0, s => s
  | fuel + 1, s =>
    match stripStart pre s with
    | some s => trimStartMatches pre fuel s
    | none => s

/-- `replace`, with the characters of an occurrence that are still to be skipped. -/
def replaceFrom (pat rep : List Char) : ℕ → List Char → List Char
  | _, [] => []
  | skip + 1, _ :: s => replaceFrom pat rep skip s
  | 0, c :: s =>
    if pat <+: c :: s then rep ++ replaceFrom pat rep (pat.length - 1) s else c :: replaceFrom pat rep 0 s

/-- `replace`, for a pattern that is not empty: its occurrences from the left. -/
def replace (pat rep s : List Char) : List Char := replaceFrom pat rep 0 s

/-- `rsplit_once`: what stands before and after the last occurrence. -/
def rsplitOnce (sep : List Char) : List Char → Option (List Char × List Char)
  | [] => none
  | c :: s =>
    match rsplitOnce sep s with
    | some (before, after) => some (c :: before, after)
    | none => if sep <+: c :: s then some ([], (c :: s).drop sep.length) else none

variable {α : Type*} {front front' back back' : List α} {sep : α}

/-- What stands before the first separator. -/
theorem eq_of_append_cons (h : front ++ sep :: back = front' ++ sep :: back') (hfront : sep ∉ front)
    (hfront' : sep ∉ front') : front = front' := by
  induction front generalizing front' with
  | nil =>
    cases front' with
    | nil => rfl
    | cons a rest => exact absurd ((cons.inj h).1 ▸ mem_cons_self) hfront'
  | cons a rest ih =>
    cases front' with
    | nil => exact absurd ((cons.inj h).1 ▸ mem_cons_self) hfront
    | cons b rest' =>
      obtain ⟨rfl, htail⟩ := cons.inj h
      rw [ih htail (fun hin => hfront (mem_cons_of_mem _ hin)) fun hin => hfront' (mem_cons_of_mem _ hin)]

/-- What stands after the last separator. -/
theorem eq_of_append_cons_last (h : front ++ sep :: back = front' ++ sep :: back') (hback : sep ∉ back)
    (hback' : sep ∉ back') : front = front' ∧ back = back' := by
  have hreverse := congrArg List.reverse h
  simp only [reverse_append, reverse_cons, append_assoc, singleton_append] at hreverse
  rw [← mem_reverse] at hback hback'
  have heq := eq_of_append_cons hreverse hback hback'
  rw [heq, append_cancel_left_eq, cons_inj_right] at hreverse
  exact ⟨reverse_injective hreverse, reverse_injective heq⟩

variable {s l r : List α} {c : α}

/-- What starts with a character occurs after a text without the character. -/
theorem infix_of_infix_append (h : c :: s <:+: l ++ r) (hc : c ∉ l) : c :: s <:+: r := by
  induction l with
  | nil => exact h
  | cons a l ih =>
    rw [cons_append, infix_cons_iff] at h
    rcases h with hstart | hin
    · exact absurd ((cons_prefix_cons.1 hstart).1 ▸ mem_cons_self) hc
    · exact ih hin fun hmem => hc (mem_cons_of_mem a hmem)

/-- What ends with a character occurs before a text without the character. -/
theorem infix_of_infix_append_last (h : s ++ [c] <:+: l ++ r) (hc : c ∉ r) : s ++ [c] <:+: l := by
  rw [← reverse_infix, reverse_append, reverse_append, reverse_singleton, singleton_append] at h
  rw [← mem_reverse] at hc
  have hinfix := infix_of_infix_append h hc
  rwa [← reverse_infix, reverse_append, reverse_singleton, singleton_append]

/-- Texts that are spelled symbol by symbol are told apart if the first symbol of a spelling is. -/
theorem flatMap_injective {α β : Type*} {code : α → List β} (hne : ∀ a, code a ≠ [])
    (hcode : ∀ a b rest rest', code a ++ rest = code b ++ rest' → a = b) {as bs : List α}
    (h : as.flatMap code = bs.flatMap code) : as = bs := by
  induction as generalizing bs with
  | nil =>
    cases bs with
    | nil => rfl
    | cons b bs => exact absurd (append_eq_nil_iff.1 h.symm).1 (hne b)
  | cons a as ih =>
    cases bs with
    | nil => exact absurd (append_eq_nil_iff.1 h).1 (hne a)
    | cons b bs =>
      obtain rfl := hcode a b _ _ h
      rw [ih (append_cancel_left h)]

/-- `lines`: the last line has no line feed, and keeps its carriage return; it is left out when it
is empty. -/
def lines (s : List Char) : List (List Char) :=
  let segments := s.splitOn '\n'
  let last := segments.getLast?.getD []
  segments.dropLast.map (fun l => if l.getLast? = some '\r' then l.dropLast else l) ++
    if last.isEmpty then [] else [last]

/-! ### UTF-8 -/

/-- The next byte, if it lies in the given range. -/
def takeBetween (lo hi : ℕ) : Bytes → Option (ℕ × Bytes)
  | [] => none
  | b :: bs => if lo ≤ b.toNat ∧ b.toNat ≤ hi then some (b.toNat, bs) else none

/-- U+FFFD. -/
def replacement : Char := Char.ofNat 0xFFFD

/-- The first character: a byte that starts none, with the bytes that could have continued it, is
replaced. -/
def decodeChar (b : UInt8) (bs : Bytes) : Char × Bytes :=
  let n := b.toNat
  if n < 0x80 then (Char.ofNat n, bs)
  else if 0xC2 ≤ n ∧ n ≤ 0xDF then
    match takeBetween 0x80 0xBF bs with
    | none => (replacement, bs)
    | some (c₁, bs) => (Char.ofNat ((n - 0xC0) * 64 + (c₁ - 0x80)), bs)
  else if 0xE0 ≤ n ∧ n ≤ 0xEF then
    match takeBetween (if n = 0xE0 then 0xA0 else 0x80) (if n = 0xED then 0x9F else 0xBF) bs with
    | none => (replacement, bs)
    | some (c₁, bs) =>
      match takeBetween 0x80 0xBF bs with
      | none => (replacement, bs)
      | some (c₂, bs) =>
        (Char.ofNat ((n - 0xE0) * 4096 + (c₁ - 0x80) * 64 + (c₂ - 0x80)), bs)
  else if 0xF0 ≤ n ∧ n ≤ 0xF4 then
    match takeBetween (if n = 0xF0 then 0x90 else 0x80) (if n = 0xF4 then 0x8F else 0xBF) bs with
    | none => (replacement, bs)
    | some (c₁, bs) =>
      match takeBetween 0x80 0xBF bs with
      | none => (replacement, bs)
      | some (c₂, bs) =>
        match takeBetween 0x80 0xBF bs with
        | none => (replacement, bs)
        | some (c₃, bs) =>
          (Char.ofNat ((n - 0xF0) * 262144 + (c₁ - 0x80) * 4096 + (c₂ - 0x80) * 64 + (c₃ - 0x80)), bs)
  else (replacement, bs)

def decodeChars : ℕ → Bytes → List Char
  | 0, _ => []
  | _, [] => []
  | fuel + 1, b :: bs => (decodeChar b bs).1 :: decodeChars fuel (decodeChar b bs).2

def fromUtf8Lossy (bs : Bytes) : List Char := decodeChars bs.length bs

-- "né", and a byte that is cut off.
example : fromUtf8Lossy [0x6E, 0xC3, 0xA9, 0xE4, 0xBD] = ['n', 'é', replacement] := by decide

end Text
