import WildAgentOs.Invocations.Bridge
import WildAgentOs.Lib.Redaction

/-!
# Scrubbing of persisted texts

What `scrub_secret_shaped_text` leaves of the needles, and with it an error message and a result summary.

* `Shaped`, `Spelled`, `scrubbed_iff`.
-/

namespace WildAgentOs.Invocations

open Text Redaction List Char

/-- The needles of `scrub_secret_shaped_text`. -/
def secretNeedles : List (List Char) := ["api_key", "api-key", "secret", "password", "token="].map String.toList

def redacted : List Char := "[redacted]".toList

/-- A text has a needle, in any letter case. -/
def Shaped (s : List Char) : Prop := ∃ n ∈ secretNeedles, n <:+: s.map Char.toLower

/-- Every needle of a text, in any letter case, meets a needle in lower or in upper case; it may be that one itself. -/
def Spelled (s : List Char) : Prop :=
  ∀ n ∈ secretNeedles, ∀ i, At n (s.map Char.toLower) i →
    ∃ m ∈ secretNeedles, ∃ j, (At m s j ∨ At (m.map Char.toUpper) s j) ∧ Meet i n.length j m.length

/-- Nothing secret-shaped is left of a text, where it is scrubbed, is the message of an error or is a summary. -/
def Scrubbed (input : String) : Prop :=
  ¬Shaped (scrubSecretShapedText input).toList ∧ (∀ code, ¬Shaped (InvocationErrorInfo.new code input).message.toList) ∧
    ¬Shaped (scrubResultSummary input).toList

/-! ### The needles -/

/-- A spelling of a needle. -/
def IsNeedle (w : List Char) : Prop := w.map Char.toLower ∈ secretNeedles

/-- What is looked for, in the order of the passes. -/
def patterns : List (List Char) := secretNeedles.flatMap fun n => [n, n.map Char.toUpper]

theorem isNeedle_of_mem : ∀ p ∈ patterns, IsNeedle p := by
  unfold IsNeedle
  decide

variable {w : List Char}

theorem IsNeedle.ne_nil (h : IsNeedle w) : w ≠ [] := by
  rintro rfl
  unfold IsNeedle at h
  exact absurd h (by decide)

/-- Two needles overlap only where a token follows a secret. -/
theorem overlap : ∀ n ∈ secretNeedles, ∀ m ∈ secretNeedles, ∀ k < n.length, n.drop k <+: m ∨ m <+: n.drop k →
    k = 0 ∧ n = m ∨ n = "secret".toList ∧ m = "token=".toList ∧ k = 5 := by
  decide

variable {s n m : List Char} {i j : ℕ}

theorem meet_of_le (hn : n ∈ secretNeedles) (hm : m ∈ secretNeedles) (hat : At n s i)
    (hat' : At m s j) (hle : i ≤ j) (hmeet : j < i + n.length) :
    j = i ∧ n = m ∨ n = "secret".toList ∧ m = "token=".toList ∧ j = i + 5 := by
  obtain ⟨k, rfl⟩ := Nat.exists_eq_add_of_le hle
  have hdrop : n.drop k <+: s.drop (i + k) := by
    rw [← drop_drop]
    exact List.IsPrefix.drop hat k
  rcases overlap n hn m hm k (by omega) ( prefix_or_prefix_of_prefix hdrop hat') with
    ⟨rfl, heq⟩ | ⟨hsecret, htoken, rfl⟩
  · exact .inl ⟨rfl, heq⟩
  · exact .inr ⟨hsecret, htoken, rfl⟩

theorem meet_cases (hn : n ∈ secretNeedles) (hm : m ∈ secretNeedles) (hat : At n s i)
    (hat' : At m s j) (hmeet : Meet i n.length j m.length) :
    i = j ∧ n = m ∨ (n = "secret".toList ∧ m = "token=".toList ∧ j = i + 5) ∨
      n = "token=".toList ∧ m = "secret".toList ∧ i = j + 5 := by
  rcases Nat.le_total i j with hle | hle
  · rcases meet_of_le hn hm hat hat' hle hmeet.2 with ⟨rfl, heq⟩ | hapart
    · exact .inl ⟨rfl, heq⟩
    · exact .inr (.inl hapart)
  · rcases meet_of_le hm hn hat' hat hle hmeet.1 with ⟨rfl, rfl⟩ | ⟨hsecret, htoken, heq⟩
    · exact .inl ⟨rfl, rfl⟩
    · exact .inr (.inr ⟨htoken, hsecret, heq⟩)

theorem cohesive_patterns : Cohesive IsNeedle patterns := by
  intro w p q s i j k hw hp hq hwi hpj hqk hwp hpq
  have hp' := isNeedle_of_mem p hp
  have hq' := isNeedle_of_mem q hq
  rw [Meet] at hwp hpq ⊢
  have hlength : ∀ l : List Char, (l.map toLower).length = l.length := fun l => length_map _
  rw [← hlength w] at hwp ⊢
  rw [← hlength p] at hwp hpq
  rw [← hlength q] at hpq ⊢
  rcases meet_cases hw hp' (hwi.map _) (hpj.map _) hwp with ⟨rfl, heq⟩ | ⟨hsecret, htoken, hij⟩ | ⟨htoken, hsecret, hij⟩
  · rwa [heq]
  all_goals
    rcases meet_cases hp' hq' (hpj.map _) (hqk.map _) hpq with ⟨rfl, heq⟩ | ⟨hsecret', htoken', hjk⟩ |
      ⟨htoken', hsecret', hjk⟩
  · rwa [← heq]
  · rw [htoken] at hsecret'
    exact absurd hsecret' (by decide)
  · have hik : i = k := by omega
    rw [hik, hsecret, hsecret']
    exact ⟨Nat.lt_add_of_pos_right (by decide), Nat.lt_add_of_pos_right (by decide)⟩
  · rwa [← heq]
  · have hik : i = k := by omega
    rw [hik, htoken, htoken']
    exact ⟨Nat.lt_add_of_pos_right (by decide), Nat.lt_add_of_pos_right (by decide)⟩
  · rw [hsecret] at htoken'
    exact absurd htoken' (by decide)

/-! ### The replacement -/

variable {w h : List Char} {i : ℕ}

/-- No needle meets a replacement. -/
theorem fence (hw : IsNeedle w) (hi : i < redacted.length) : ¬At w (redacted ++ h) i := by
  have hall : ∀ n ∈ secretNeedles, ∀ i < redacted.length, ¬(n <+: redacted.drop i ∨ redacted.drop i <+: n) := by decide
  have hlower : redacted.map toLower = redacted := by decide
  intro hat
  have hat' := hat.map toLower
  rw [At, map_append, hlower, drop_append_of_le_length hi.le] at hat'
  exact hall _ hw i hi ( prefix_or_prefix_of_prefix hat' (prefix_append _ _))

/-- What stands before a replacement holds the needles that start there. -/
theorem at_of_fence {w g h : List Char} (hw : IsNeedle w) (hi : i ≤ g.length)
    (hat : At w (g ++ (redacted ++ h)) i) : At w g i := by
  rw [At, drop_append_of_le_length hi] at hat
  rcases prefix_or_prefix_of_prefix hat (prefix_append (g.drop i) _) with hpre | ⟨rest, rfl⟩
  · exact hpre
  · rw [prefix_append_right_inj] at hat
    -- what reaches into the replacement has its bracket
    have hbracket : ∀ n ∈ secretNeedles, '[' ∉ n := by decide
    cases rest with
    | nil => rw [append_nil] ; exact prefix_refl _
    | cons c rest =>
      have hc : c = '[' := (cons_prefix_cons.1 hat).1
      refine absurd ?_ (hbracket _ hw)
      rw [hc, map_append]
      exact mem_append_right _ mem_cons_self

variable {s : List Char}

section
variable {p : List Char} {fuel : ℕ}

theorem replaceAll_append (hp : p ≠ []) (s : List Char) :
    replaceAll p redacted (fuel + 1) (p ++ s) = redacted ++ replaceAll p redacted fuel s := by
  obtain ⟨c, rest, rfl⟩ := exists_cons_of_ne_nil hp
  have hstrip : stripStart (c :: rest) (c :: (rest ++ s)) = some s := stripStart_eq_some.2 rfl
  simp only [cons_append, replaceAll, hstrip]

theorem replaceAll_cons {c : Char} (h : ¬p <+: c :: s) :
    replaceAll p redacted (fuel + 1) (c :: s) = c :: replaceAll p redacted fuel s := by
  simp only [replaceAll, stripStart_eq_none.2 h]

/-- What no occurrence starts in is left as it is. -/
theorem replaceAll_skip (hskip : ∀ i < w.length, ¬At p (w ++ h) i) :
    replaceAll p redacted (w.length + fuel) (w ++ h) = w ++ replaceAll p redacted fuel h := by
  induction w with
  | nil => rw [length_nil, Nat.zero_add, nil_append, nil_append]
  | cons c w ih =>
    have hlength : (c :: w).length + fuel = w.length + fuel + 1 := by
      rw [length_cons]
      omega
    have hzero : ¬p <+: c :: (w ++ h) := hskip 0 (Nat.succ_pos _)
    rw [hlength, cons_append, replaceAll_cons hzero, cons_append, ih]
    exact fun i hi => hskip (i + 1) (Nat.succ_lt_succ hi)

/-- A pass over a text up to a replacement, or to its end. -/
theorem exists_cut (hp : IsNeedle p) {rest : List Char} (hrest : rest = [] ∨ ∃ h, rest = redacted ++ h) :
    ∀ {fuel : ℕ} {s : List Char}, s.length + rest.length ≤ fuel → ∃ pieces fuel', Cut p s pieces ∧ rest.length ≤ fuel' ∧
      replaceAll p redacted fuel (s ++ rest) = redacted.intercalate pieces ++ replaceAll p redacted fuel' rest := by
  intro fuel
  induction fuel with
  | zero =>
    intro s hle
    obtain rfl : s = [] := length_eq_zero_iff.1 (by omega)
    refine ⟨[[]], 0, .last ?_, by omega, by simp⟩
    rw [infix_nil]
    exact hp.ne_nil
  | succ fuel ih =>
    intro s hle
    cases s with
    | nil =>
      refine ⟨[[]], fuel + 1, .last ?_, by simpa using hle, by simp⟩
      rw [infix_nil]
      exact hp.ne_nil
    | cons c s =>
      by_cases hhere : p <+: c :: s
      · obtain ⟨s', hs'⟩ := hhere
        have hpos := length_pos_of_ne_nil hp.ne_nil
        have hlength : s'.length + rest.length ≤ fuel := by
          have hsum := congrArg List.length hs'
          rw [length_append] at hsum
          omega
        obtain ⟨pieces, fuel', hcut, hfuel, hrun⟩ := ih hlength
        obtain ⟨g, others, rfl⟩ := exists_cons_of_ne_nil hcut.ne_nil
        refine ⟨[] :: g :: others, fuel', ?_, hfuel, ?_⟩
        · rw [← hs']
          refine .cons (g := []) ?_ hcut
          rw [infix_nil]
          exact hp.ne_nil
        · rw [← hs', append_assoc, replaceAll_append hp.ne_nil, hrun, intercalate_cons_cons, nil_append, append_assoc]
      · have hnot : ¬p <+: c :: (s ++ rest) := by
          intro hpre
          rcases hrest with rfl | ⟨h, rfl⟩
          · rw [append_nil] at hpre
            exact hhere hpre
          · exact hhere (at_of_fence (g := c :: s) (i := 0) hp (Nat.zero_le _) hpre)
        obtain ⟨pieces, fuel', hcut, hfuel, hrun⟩ := ih (s := s) (by
          rw [length_cons] at hle
          omega)
        obtain ⟨g, others, rfl⟩ := exists_cons_of_ne_nil hcut.ne_nil
        refine ⟨(c :: g) :: others, fuel', hcut.cons_char hhere, hfuel, ?_⟩
        rw [cons_append, replaceAll_cons hnot, hrun, ← cons_append]
        congr 1
        cases others with
        | nil => simp only [intercalate_singleton]
        | cons g' others => simp only [intercalate_cons_cons, cons_append]

/-- **A pass cuts its pattern out of all pieces.** -/
theorem exists_cutAll (hp : IsNeedle p) : ∀ {pieces : List (List Char)} {fuel : ℕ}, pieces ≠ [] →
    (redacted.intercalate pieces).length ≤ fuel → ∃ pieces', CutAll p pieces pieces' ∧ pieces' ≠ [] ∧
      replaceAll p redacted fuel (redacted.intercalate pieces) = redacted.intercalate pieces' := by
  intro pieces
  induction pieces with
  | nil => exact fun h => absurd rfl h
  | cons g pieces ih =>
    intro fuel _ hle
    cases pieces with
    | nil =>
      rw [intercalate_singleton] at hle ⊢
      obtain ⟨part, fuel', hcut, -, hrun⟩ := exists_cut hp (.inl rfl) (s := g) (by simpa using hle)
      refine ⟨part, ⟨[part], .cons hcut .nil, by simp⟩, hcut.ne_nil, ?_⟩
      rw [append_nil] at hrun
      rw [hrun]
      cases fuel' <;> simp [replaceAll]
    | cons g' pieces =>
      rw [intercalate_cons_cons, append_assoc] at hle ⊢
      rw [length_append] at hle
      obtain ⟨part, fuel', hcut, hfuel, hrun⟩ := exists_cut hp (.inr ⟨_, rfl⟩) hle
      rw [length_append] at hfuel
      obtain ⟨k, rfl⟩ := Nat.exists_eq_add_of_le ((Nat.le_add_right _ _).trans hfuel)
      obtain ⟨pieces', ⟨parts, hparts, rfl⟩, hne, hrest⟩ := @ih k (cons_ne_nil _ _) (by omega)
      refine ⟨part ++ parts.flatten, ⟨part :: parts, .cons hcut hparts, rfl⟩, ?_, ?_⟩
      · exact append_ne_nil_of_right_ne_nil part hne
      · rw [hrun, replaceAll_skip fun i hi => fence hp hi, hrest, intercalate_append hcut.ne_nil hne]

end

/-! ### All needles -/

theorem isNeedle_of_needle : ∀ n ∈ secretNeedles, IsNeedle n ∧ IsNeedle (n.map toUpper) := by
  unfold IsNeedle
  decide

variable {pieces : List (List Char)}

theorem infix_intercalate {g : List Char} (hg : g ∈ pieces) : g <:+: redacted.intercalate pieces := by
  induction pieces with
  | nil => exact absurd hg not_mem_nil
  | cons first pieces ih =>
    cases pieces with
    | nil =>
      rw [mem_singleton.1 hg, intercalate_singleton]
    | cons second pieces =>
      rw [intercalate_cons_cons, append_assoc]
      rcases mem_cons.1 hg with rfl | hg
      · exact (prefix_append _ _).isInfix
      · refine (ih hg).trans ?_
        exact ((suffix_append redacted _).trans (suffix_append first _)).isInfix

/-- A needle of the text is one of a piece. -/
theorem infix_piece (hw : IsNeedle w) (h : w <:+: redacted.intercalate pieces) : ∃ g ∈ pieces, w <:+: g := by
  induction pieces with
  | nil =>
    rw [intercalate_nil, infix_nil] at h
    exact absurd h hw.ne_nil
  | cons first pieces ih =>
    cases pieces with
    | nil =>
      rw [intercalate_singleton] at h
      exact ⟨first, mem_singleton_self first, h⟩
    | cons second pieces =>
      rw [intercalate_cons_cons, append_assoc] at h
      obtain ⟨i, hat⟩ := exists_at h
      by_cases hi : i ≤ first.length
      · exact ⟨first, mem_cons_self, (at_of_fence hw hi hat).isInfix⟩
      · obtain ⟨k, rfl⟩ := Nat.exists_eq_add_of_le (Nat.le_of_not_le hi)
        rw [at_append_right] at hat
        by_cases hk : k < redacted.length
        · exact absurd hat (fence hw hk)
        · obtain ⟨m, rfl⟩ := Nat.exists_eq_add_of_le (Nat.le_of_not_lt hk)
          rw [at_append_right] at hat
          obtain ⟨g, hg, hin⟩ := ih hat.isInfix
          exact ⟨g, mem_cons_of_mem first hg, hin⟩

/-- **The passes of one needle.** -/
theorem cuts_scrubNeedle {n : List Char} (hn : n ∈ secretNeedles) (hne : pieces ≠ []) :
    ∃ pieces', Cuts [n, n.map toUpper] pieces pieces' ∧ pieces' ≠ [] ∧
      scrubNeedle (redacted.intercalate pieces) (String.ofList n) = redacted.intercalate pieces' := by
  obtain ⟨hlower, hupper⟩ := isNeedle_of_needle n hn
  unfold scrubNeedle
  rw [String.toList_ofList]
  split_ifs with hin
  · obtain ⟨between, hcut, hbetween, hrun⟩ := exists_cutAll hlower hne le_rfl
    obtain ⟨pieces', hcut', hne', hrun'⟩ := exists_cutAll hupper hbetween le_rfl
    refine ⟨pieces', ⟨between, hcut, pieces', hcut', rfl⟩, hne', ?_⟩
    rw [← hrun', ← hrun]
    rfl
  · -- no spelling of the needle is there
    have hnot : ∀ w, w.map toLower = n → ∀ g ∈ pieces, ¬w <:+: g := by
      rintro w rfl g hg hwg
      exact hin ((hwg.trans (infix_intercalate hg)).map _)
    have hsame : n.map toLower = n ∧ (n.map toUpper).map toLower = n := by
      have hall : ∀ n ∈ secretNeedles, n.map toLower = n ∧ (n.map toUpper).map toLower = n := by decide
      exact hall n hn
    exact ⟨pieces, ⟨pieces, cutAll_self (hnot n hsame.1), pieces, cutAll_self (hnot _ hsame.2), rfl⟩, hne, rfl⟩

/-- **The passes of all needles.** -/
theorem cuts_scrub {ns : List (List Char)} :
    ∀ {pieces : List (List Char)}, (∀ n ∈ ns, n ∈ secretNeedles) → pieces ≠ [] → ∃ pieces',
    Cuts (ns.flatMap fun n => [n, n.map toUpper]) pieces pieces' ∧
      (ns.map String.ofList).foldl scrubNeedle (redacted.intercalate pieces) = redacted.intercalate pieces' := by
  induction ns with
  | nil => exact fun _ _ => ⟨_, rfl, rfl⟩
  | cons n ns ih =>
    intro pieces hns hne
    obtain ⟨between, hcut, hbetween, hrun⟩ := cuts_scrubNeedle (hns n mem_cons_self) hne
    obtain ⟨pieces', hcuts, hrest⟩ := ih (fun m hm => hns m (mem_cons_of_mem n hm)) hbetween
    refine ⟨pieces', hcut.append hcuts, ?_⟩
    rw [map_cons, foldl_cons, hrun, hrest]

theorem shaped_iff : Shaped s ↔ ∃ w, IsNeedle w ∧ w <:+: s := by
  constructor
  · rintro ⟨n, hn, hin⟩
    obtain ⟨w, hw, rfl⟩ := infix_map_iff.1 hin
    exact ⟨w, hn, hw⟩
  · rintro ⟨w, hw, hin⟩
    exact ⟨_, hw, hin.map _⟩

theorem spelled_iff : Spelled s ↔ ¬Bare IsNeedle patterns s := by
  constructor
  · rintro h ⟨w, i, hw, hat, hbare⟩
    obtain ⟨m, hm, j, hmat, hmeet⟩ := h _ hw i (hat.map _)
    rw [length_map] at hmeet
    rcases hmat with hmat | hmat
    · exact hbare m (mem_flatMap.2 ⟨m, hm, by simp⟩) j hmat hmeet
    · exact hbare (m.map toUpper) (mem_flatMap.2 ⟨m, hm, by simp⟩) j hmat (by rwa [length_map])
  · intro h n hn i hat
    rw [At, ← map_drop] at hat
    obtain ⟨w, hw, rfl⟩ := prefix_map_iff.1 hat
    by_contra hnone
    refine h ⟨w, i, hn, hw, fun p hp j hj hmeet => hnone ?_⟩
    obtain ⟨m, hm, hpm⟩ := mem_flatMap.1 hp
    rw [length_map]
    rcases mem_pair.1 hpm with rfl | rfl
    · exact ⟨p, hm, j, .inl hj, hmeet⟩
    · exact ⟨m, hm, j, .inr hj, by rwa [length_map] at hmeet⟩

/-- **A needle is left exactly if one meets no needle in lower or in upper case.** -/
theorem shaped_scrub_iff (input : String) : ¬Shaped (scrubSecretShapedText input).toList ↔ Spelled input.toList := by
  obtain ⟨pieces, hcuts, hrun⟩ := @cuts_scrub secretNeedles [input.toList] (fun _ h => h) (cons_ne_nil _ _)
  have hout : (scrubSecretShapedText input).toList = redacted.intercalate pieces := by
    rw [← hrun, intercalate_singleton]
    exact String.toList_ofList
  have hbare := bare_cuts cohesive_patterns (fun _ => IsNeedle.ne_nil) hcuts
  rw [spelled_iff, hout, shaped_iff, not_iff_not]
  constructor
  · rintro ⟨w, hw, hin⟩
    obtain ⟨g, hg, hwg⟩ := infix_piece hw hin
    obtain ⟨whole, hwhole, h⟩ := hbare.2 ⟨g, hg, w, hw, hwg⟩
    exact mem_singleton.1 hwhole ▸ h
  · intro h
    obtain ⟨g, hg, w, hw, hwg⟩ := hbare.1 ⟨_, mem_singleton_self _, h⟩
    exact ⟨w, hw, hwg.trans (infix_intercalate hg)⟩

theorem prefix_truncateBytes (s : List Char) : ∀ max, truncateBytes max s <+: s := by
  induction s with
  | nil => exact fun _ => nil_prefix
  | cons c s ih =>
    intro max
    unfold truncateBytes
    split_ifs
    · exact cons_prefix_cons.2 ⟨rfl, ih _⟩
    · exact nil_prefix

/-- **Nothing secret-shaped is left of a text exactly if every needle in it, in any letter case, meets one in lower or
in upper case, and in what a summary takes of it too.** -/
theorem scrubbed_iff (input : String) :
    Scrubbed input ↔ Spelled input.toList ∧ Spelled (input.toList.take MAX_RESULT_SUMMARY_CHARS) := by
  have hsummary : ¬Shaped (scrubResultSummary input).toList ↔ Spelled (input.toList.take MAX_RESULT_SUMMARY_CHARS) := by
    rw [scrubResultSummary, shaped_scrub_iff, String.toList_ofList]
  unfold Scrubbed
  rw [shaped_scrub_iff, hsummary]
  refine and_congr_right fun hspelled => and_iff_right_of_imp ?_
  rintro - code ⟨n, hn, hin⟩
  rw [InvocationErrorInfo.new, String.toList_ofList] at hin
  exact (shaped_scrub_iff input).2 hspelled ⟨n, hn, hin.trans ((prefix_truncateBytes _ _).isInfix.map _)⟩

/-- A needle in mixed case stays. -/
theorem not_scrubbed_mixedCase : ¬Scrubbed "leak Api_Key=abc" := by
  rintro ⟨h, -⟩
  refine h ⟨"api_key".toList, by decide, ?_⟩
  decide +kernel

end WildAgentOs.Invocations
