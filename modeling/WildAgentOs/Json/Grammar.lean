import WildAgentOs.Json.Value
import WildAgentOs.Lib.Text

/-!
# The grammar of JSON, and how deep a text is in it

* `Part`, `Is`, `IsText`;
* `Nesting`, `Nesting.scan`: the open braces and brackets, outside of strings;
* `level_of_is`, `IsObject.not_isText`.
-/

namespace WildAgentOs.Json

open List

/-! ### Grammar -/

/-- White space. -/
def Ws (s : List Char) : Prop := ∀ c ∈ s, c = ' ' ∨ c = '\t' ∨ c = '\n' ∨ c = '\r'

variable {c : Char}

theorem ws_singleton : Ws [c] ↔ c = ' ' ∨ c = '\t' ∨ c = '\n' ∨ c = '\r' := forall_mem_singleton

def Digits (s : List Char) : Prop := s ≠ [] ∧ ∀ c ∈ s, '0' ≤ c ∧ c ≤ '9'

def IsHex (c : Char) : Prop := ('0' ≤ c ∧ c ≤ '9') ∨ ('a' ≤ c ∧ c ≤ 'f') ∨ ('A' ≤ c ∧ c ≤ 'F')

/-- A number: its sign, integer, fraction and exponent. -/
def IsNumber (s : List Char) : Prop :=
  ∃ sign int frac exp, s = sign ++ (int ++ (frac ++ exp)) ∧ (sign = [] ∨ sign = ['-']) ∧
    Digits int ∧ (int = ['0'] ∨ int.head? ≠ some '0') ∧
    (frac = [] ∨ ∃ ds, Digits ds ∧ frac = '.' :: ds) ∧
    (exp = [] ∨ ∃ e mark ds, (e = 'e' ∨ e = 'E') ∧ (mark = [] ∨ mark = ['+'] ∨ mark = ['-']) ∧ Digits ds ∧
      exp = e :: (mark ++ ds))

/-- What stands between the quotes of a string. -/
inductive IsBody : List Char → Prop
  | nil : IsBody []
  | plain {c : Char} {s : List Char} : c ≠ '"' → c ≠ '\\' → 32 ≤ c.toNat → IsBody s → IsBody (c :: s)
  | escape {c : Char} {s : List Char} : c ∈ "\"\\/bfnrt".toList → IsBody s → IsBody ('\\' :: c :: s)
  | unicode {a b c d : Char} {s : List Char} : IsHex a → IsHex b → IsHex c → IsHex d → IsBody s →
      IsBody ('\\' :: 'u' :: a :: b :: c :: d :: s)

def IsString (s : List Char) : Prop := ∃ body, IsBody body ∧ s = '"' :: (body ++ ['"'])

/-- The parts of the grammar: a value, a value between white space, the items of an array, the members of an object. -/
inductive Part
  | value
  | element
  | items
  | members

inductive Is : Part → List Char → Prop
  | literal {s : List Char} : s ∈ ["null".toList, "true".toList, "false".toList] → Is .value s
  | number {s : List Char} : IsNumber s → Is .value s
  | string {s : List Char} : IsString s → Is .value s
  | emptyArray {w : List Char} : Ws w → Is .value ('[' :: (w ++ [']']))
  | array {s : List Char} : Is .items s → Is .value ('[' :: (s ++ [']']))
  | emptyObject {w : List Char} : Ws w → Is .value ('{' :: (w ++ ['}']))
  | object {s : List Char} : Is .members s → Is .value ('{' :: (s ++ ['}']))
  | element {w v w' : List Char} : Ws w → Is .value v → Ws w' → Is .element (w ++ (v ++ w'))
  | lastItem {s : List Char} : Is .element s → Is .items s
  | item {s t : List Char} : Is .element s → Is .items t → Is .items (s ++ ([','] ++ t))
  | lastMember {w k w' s : List Char} : Ws w → IsString k → Ws w' → Is .element s →
      Is .members (w ++ (k ++ (w' ++ ([':'] ++ s))))
  | member {w k w' s t : List Char} : Ws w → IsString k → Ws w' → Is .element s → Is .members t →
      Is .members (w ++ (k ++ (w' ++ ([':'] ++ (s ++ ([','] ++ t))))))

/-- A text of one value. -/
def IsText (s : List Char) : Prop := Is .element s

/-- A text of one object, up to its last brace. -/
def IsObject (s : List Char) : Prop := ∃ w body, Ws w ∧ (Ws body ∨ Is .members body) ∧ s = w ++ ('{' :: (body ++ ['}']))

/-! ### Nesting -/

/-- The scanner's view of a text that it has read a part of: its depths are counted in `D`. -/
structure Nesting (D : Type) where
  inString : Bool
  escapeNext : Bool
  braceDepth : D
  bracketDepth : D
  deriving DecidableEq

namespace Nesting

section
variable {D : Type} [Add D] [Sub D] [One D]

/-- One character. -/
def step (n : Nesting D) (c : Char) : Nesting D :=
  if n.escapeNext then { n with escapeNext := false }
  else if c = '\\' ∧ n.inString = true then { n with escapeNext := true }
  else if c = '"' then { n with inString := !n.inString }
  else if n.inString then n
  else if c = '{' then { n with braceDepth := n.braceDepth + 1 }
  else if c = '}' then { n with braceDepth := n.braceDepth - 1 }
  else if c = '[' then { n with bracketDepth := n.bracketDepth + 1 }
  else if c = ']' then { n with bracketDepth := n.bracketDepth - 1 }
  else n

def scan (n : Nesting D) (s : List Char) : Nesting D := s.foldl step n

@[simp] theorem scan_nil (n : Nesting D) : n.scan [] = n := rfl

@[simp] theorem scan_cons (n : Nesting D) (c : Char) (s : List Char) : n.scan (c :: s) = (n.step c).scan s := rfl

theorem scan_append (n : Nesting D) (s t : List Char) : n.scan (s ++ t) = (n.scan s).scan t := foldl_append

end

/-- What is used of a way to count: one down undoes one up, and a relation that holds from a count to those above. -/
structure Counts {D : Type} [Add D] [Sub D] [One D] (R : D → D → Prop) : Prop where
  refl : ∀ d, R d d
  trans : ∀ {a b c}, R a b → R b c → R a c
  up : ∀ d, R d (d + 1)
  down : ∀ d : D, d + 1 - 1 = d

/-- A text is left as deep as it was entered, inside or outside of a string, and no brace is closed that was open before
it. -/
def Level {D : Type} [Add D] [Sub D] [One D] (R : D → D → Prop) (inString : Bool) (s : List Char) : Prop :=
  ∀ n : Nesting D, n.inString = inString → n.escapeNext = false →
    n.scan s = n ∧ ∀ t, t <+: s → R n.braceDepth (n.scan t).braceDepth

section
variable {D : Type} [Add D] [Sub D] [One D] {R : D → D → Prop} {inString : Bool} {s t : List Char}

/-- A start of two texts is one of the first, or the first with one of the second. -/
theorem prefix_append_cases {α : Type*} {p s t : List α} (h : p <+: s ++ t) : p <+: s ∨ ∃ q, q <+: t ∧ p = s ++ q := by
  rcases prefix_or_prefix_of_prefix h (prefix_append s t) with hpre | ⟨q, rfl⟩
  · exact .inl hpre
  · exact .inr ⟨q, prefix_append_right_inj s |>.1 h, rfl⟩

theorem level_nil (hR : Counts R) : Level R inString [] := by
  intro n _ _
  refine ⟨rfl, fun t ht => ?_⟩
  rw [prefix_nil.1 ht]
  exact hR.refl _

theorem Level.append (hs : Level R inString s) (ht : Level R inString t) : Level R inString (s ++ t) := by
  intro n hin hescape
  obtain ⟨hsame, habove⟩ := hs n hin hescape
  obtain ⟨hsame', habove'⟩ := ht n hin hescape
  refine ⟨by rw [scan_append, hsame, hsame'], fun p hp => ?_⟩
  rcases prefix_append_cases hp with hp | ⟨q, hq, rfl⟩
  · exact habove p hp
  · rw [scan_append, hsame]
    exact habove' q hq

/-- A character that changes nothing. -/
theorem level_of_step (hR : Counts R)
    (h : ∀ n : Nesting D, n.inString = inString → n.escapeNext = false → n.step c = n) : Level R inString [c] := by
  intro n hin hescape
  refine ⟨h n hin hescape, fun p hp => ?_⟩
  rcases prefix_cons_iff.1 hp with rfl | ⟨q, rfl, hq⟩
  · exact hR.refl _
  · rw [prefix_nil.1 hq, scan_cons, h n hin hescape]
    exact hR.refl _

theorem level_flat (hR : Counts R) (h : ∀ c ∈ s, Level R inString [c]) : Level R inString s := by
  induction s with
  | nil => exact level_nil hR
  | cons c s ih =>
    exact (h c mem_cons_self).append (ih fun d hd => h d (mem_cons_of_mem c hd))

/-- Outside of strings only quotes, braces and brackets count. -/
theorem level_plain (hR : Counts R) (h : ∀ c ∈ s, c ∉ ['"', '{', '}', '[', ']']) : Level R false s := by
  refine level_flat hR fun c hc => level_of_step hR fun n hin hescape => ?_
  have hplain := h c hc
  simp only [mem_cons, not_mem_nil, or_false, not_or] at hplain
  simp [step, hin, hescape, hplain]

/-- Inside, only quotes and backslashes. -/
theorem level_inside (hR : Counts R) (hquote : c ≠ '"') (hslash : c ≠ '\\') : Level R true [c] :=
  level_of_step hR fun n hin hescape => by simp [step, hin, hescape, hquote, hslash]

/-- A backslash takes the next character along. -/
theorem level_escape (hR : Counts R) (c : Char) : Level R true ['\\', c] := by
  intro n hin hescape
  have hfirst : n.step '\\' = { n with escapeNext := true } := by simp [step, hin, hescape]
  have hsecond : ({ n with escapeNext := true } : Nesting D).step c = n := by
    unfold step
    rw [if_pos rfl, ← hescape]
  refine ⟨by rw [scan_cons, hfirst, scan_cons, hsecond, scan_nil], fun p hp => ?_⟩
  rcases prefix_cons_iff.1 hp with rfl | ⟨q, rfl, hq⟩
  · exact hR.refl _
  · rw [scan_cons, hfirst]
    rcases prefix_cons_iff.1 hq with rfl | ⟨r, rfl, hr⟩
    · exact hR.refl _
    · rw [prefix_nil.1 hr, scan_cons, hsecond]
      exact hR.refl _

theorem level_body (hR : Counts R) (h : IsBody s) : Level R true s := by
  have hhex : ∀ {c}, IsHex c → Level R true [c] := by
    intro c hc
    refine level_inside hR ?_ ?_ <;> rintro rfl <;> exact absurd hc (by unfold IsHex; decide)
  induction h with
  | nil => exact level_nil hR
  | plain hquote hslash _ _ ih => exact (level_inside hR hquote hslash).append ih
  | @escape c s _ _ ih => exact (level_escape hR c).append ih
  | unicode ha hb hc hd _ ih =>
    exact (level_escape hR 'u').append ((hhex ha).append ((hhex hb).append ((hhex hc).append ((hhex hd).append ih))))

/-- A text between two characters, the first of which leads to where the second leads back from. -/
theorem Level.wrapped (hR : Counts R) (h : Level R inString s) {n m : Nesting D} {c d : Char} (hopen : n.step c = m)
    (hclose : m.step d = n) (hin : m.inString = inString) (hescape : m.escapeNext = false)
    (hup : R n.braceDepth m.braceDepth) :
    n.scan (c :: (s ++ [d])) = n ∧ ∀ t, t <+: c :: (s ++ [d]) → R n.braceDepth (n.scan t).braceDepth := by
  obtain ⟨hsame, habove⟩ := h m hin hescape
  have hscan : n.scan (c :: (s ++ [d])) = n := by
    rw [scan_cons, hopen, scan_append, hsame, scan_cons, hclose, scan_nil]
  refine ⟨hscan, fun p hp => ?_⟩
  rcases prefix_cons_iff.1 hp with rfl | ⟨q, rfl, hq⟩
  · exact hR.refl _
  · rcases prefix_concat_iff.1 hq with rfl | hq
    · rw [hscan]
      exact hR.refl _
    · rw [scan_cons, hopen]
      exact hR.trans hup (habove q hq)

/-- A string is entered and left by its quotes. -/
theorem level_string (hR : Counts R) (h : IsString s) : Level R false s := by
  obtain ⟨body, hbody, rfl⟩ := h
  rintro ⟨inString, escapeNext, brace, bracket⟩ rfl rfl
  exact (level_body hR hbody).wrapped hR (m := ⟨true, false, brace, bracket⟩) rfl rfl rfl rfl (hR.refl _)

theorem level_array (hR : Counts R) (h : Level R false s) : Level R false ('[' :: (s ++ [']'])) := by
  rintro ⟨inString, escapeNext, brace, bracket⟩ rfl rfl
  refine h.wrapped hR (m := ⟨false, false, brace, bracket + 1⟩) rfl ?_ rfl rfl (hR.refl _)
  exact congrArg (Nesting.mk false false brace) (hR.down bracket)

theorem level_object (hR : Counts R) (h : Level R false s) : Level R false ('{' :: (s ++ ['}'])) := by
  rintro ⟨inString, escapeNext, brace, bracket⟩ rfl rfl
  refine h.wrapped hR (m := ⟨false, false, brace + 1, bracket⟩) rfl ?_ rfl rfl (hR.up _)
  exact congrArg (Nesting.mk false false · bracket) (hR.down brace)

theorem level_ws (hR : Counts R) (h : Ws s) : Level R false s := by
  refine level_plain hR fun c hc => ?_
  rcases h c hc with rfl | rfl | rfl | rfl <;> decide

theorem level_digits (hR : Counts R) (h : Digits s) : Level R false s := by
  refine level_plain hR fun c hc hmem => ?_
  have hdigit := h.2 c hc
  simp only [mem_cons, not_mem_nil, or_false] at hmem
  rcases hmem with rfl | rfl | rfl | rfl | rfl <;> exact absurd hdigit (by decide)

theorem level_mark (hR : Counts R) (h : c ∉ ['"', '{', '}', '[', ']']) : Level R false [c] :=
  level_plain hR fun _ hd => mem_singleton.1 hd ▸ h

theorem level_number (hR : Counts R) (h : IsNumber s) : Level R false s := by
  obtain ⟨sign, int, frac, exp, rfl, hsign, hint, -, hfrac, hexp⟩ := h
  refine Level.append ?_ ((level_digits hR hint).append (Level.append ?_ ?_))
  · rcases hsign with rfl | rfl
    · exact level_nil hR
    · exact level_mark hR (by decide)
  · rcases hfrac with rfl | ⟨ds, hds, rfl⟩
    · exact level_nil hR
    · exact (level_mark hR (by decide)).append (level_digits hR hds)
  · rcases hexp with rfl | ⟨e, mark, ds, he, hmark, hds, rfl⟩
    · exact level_nil hR
    · refine Level.append (s := [e]) ?_ (Level.append ?_ (level_digits hR hds))
      · rcases he with rfl | rfl <;> exact level_mark hR (by decide)
      · rcases hmark with rfl | rfl | rfl
        · exact level_nil hR
        all_goals exact level_mark hR (by decide)

/-- **A part of the grammar is left as deep as it was entered.** -/
theorem level_of_is (hR : Counts R) {part : Part} (h : Is part s) : Level R false s := by
  induction h with
  | literal h =>
    have hall : ∀ s ∈ ["null".toList, "true".toList, "false".toList],
        s.all (fun c => c ∉ ['"', '{', '}', '[', ']']) = true := by decide
    exact level_plain hR fun c hc => of_decide_eq_true (all_eq_true.1 (hall _ h) c hc)
  | number h => exact level_number hR h
  | string h => exact level_string hR h
  | emptyArray hw => exact level_array hR (level_ws hR hw)
  | array _ ih => exact level_array hR ih
  | emptyObject hw => exact level_object hR (level_ws hR hw)
  | object _ ih => exact level_object hR ih
  | element hw _ hw' ih => exact (level_ws hR hw).append (ih.append (level_ws hR hw'))
  | lastItem _ ih => exact ih
  | item _ _ ih ih' => exact ih.append ((level_mark hR (by decide)).append ih')
  | lastMember hw hk hw' _ ih =>
    exact (level_ws hR hw).append ((level_string hR hk).append ((level_ws hR hw').append
      ((level_mark hR (by decide)).append ih)))
  | member hw hk hw' _ _ ih ih' =>
    exact (level_ws hR hw).append ((level_string hR hk).append ((level_ws hR hw').append
      ((level_mark hR (by decide)).append (ih.append ((level_mark hR (by decide)).append ih')))))

end

end Nesting

/-! ### Texts that are cut off -/

theorem counts_int : Nesting.Counts ((· ≤ ·) : ℤ → ℤ → Prop) where
  refl := le_refl
  trans := le_trans
  up d := by omega
  down d := by omega

/-- The start of a text. -/
def Nesting.start (D : Type) [Zero D] : Nesting D := ⟨false, false, 0, 0⟩

variable {s : List Char}

/-- A value has a character that is no white space. -/
theorem not_ws_of_is (h : Is .value s) : ¬Ws s := by
  have hof : ∀ c ∈ s, ¬Ws [c] → ¬Ws s := fun c hc hnot hws => hnot fun d hd => mem_singleton.1 hd ▸ hws c hc
  cases h with
  | literal h =>
    have hall : ∀ s ∈ ["null".toList, "true".toList, "false".toList], ∃ c rest, s = c :: rest ∧ c.isAlpha = true := by
      simp
    obtain ⟨c, rest, rfl, halpha⟩ := hall s h
    refine hof c mem_cons_self fun hws => ?_
    rcases hws c mem_cons_self with rfl | rfl | rfl | rfl <;> exact absurd halpha (by decide)
  | number h =>
    obtain ⟨sign, int, frac, exp, rfl, -, ⟨hne, hdigits⟩, -⟩ := h
    obtain ⟨c, rest, rfl⟩ := exists_cons_of_ne_nil hne
    refine hof c (by simp) fun hws => ?_
    have hdigit := hdigits c mem_cons_self
    rcases hws c mem_cons_self with rfl | rfl | rfl | rfl <;> exact absurd hdigit (by decide)
  | string h =>
    obtain ⟨body, -, rfl⟩ := h
    exact hof '"' mem_cons_self (by rw [ws_singleton]; decide)
  | emptyArray _ | array _ => exact hof '[' mem_cons_self (by rw [ws_singleton]; decide)
  | emptyObject _ | object _ => exact hof '{' mem_cons_self (by rw [ws_singleton]; decide)

theorem IsText.not_ws (h : IsText s) : ¬Ws s := by
  cases h with
  | element _ hvalue _ =>
    exact fun hws => not_ws_of_is hvalue fun c hc => hws c (mem_append_right _ (mem_append_left _ hc))

/-- **What is cut off before the last brace of an object is no text.** -/
theorem IsObject.not_isText {s t : List Char} (h : IsObject s) (ht : t <+: s) (hne : t ≠ s) : ¬IsText t := by
  obtain ⟨w, body, hw, hbody, rfl⟩ := h
  have hlevel : Nesting.Level (· ≤ · : ℤ → ℤ → Prop) false body := by
    rcases hbody with hbody | hbody
    · exact Nesting.level_ws counts_int hbody
    · exact Nesting.level_of_is counts_int hbody
  intro htext
  rcases Nesting.prefix_append_cases ht with ht | ⟨q, hq, rfl⟩
  · exact htext.not_ws fun c hc => hw c (ht.subset hc)
  · rcases prefix_cons_iff.1 hq with rfl | ⟨r, rfl, hr⟩
    · rw [append_nil] at htext
      exact htext.not_ws hw
    · rcases prefix_concat_iff.1 hr with rfl | hr
      · exact hne rfl
      · -- the brace that opens the object is still open
        have hzero := (Nesting.level_of_is counts_int htext (.start ℤ) rfl rfl).1
        have hstart := (Nesting.level_ws counts_int hw (.start ℤ) rfl rfl).1
        have hdeep := (hlevel ⟨false, false, 1, 0⟩ rfl rfl).2 r hr
        rw [Nesting.scan_append, hstart] at hzero
        have hopen : (Nesting.start ℤ).scan ('{' :: r) = Nesting.scan ⟨false, false, 1, 0⟩ r := rfl
        rw [← hopen, hzero] at hdeep
        exact absurd hdeep (by decide)

end WildAgentOs.Json
