import WildAgentOs.Lib.Escaping
import WildAgentOs.Tools.Permissions

/-!
# What a permission rule matches

`tools/builtin/permissions.rs`: a rule `tool(subject)` is written with a backslash before each parenthesis and each
backslash of its subject.  Read back, it matches that subject and no other; but the subject of a call is the first
text that the call has under a list of names, so a call has another subject when it says more.

* `escapeRuleContent`, `MatchesExactly`, `PermissionRule.parse_rule`;
* `Extends`, `Hides`: what further members of a call can do to its subject;
* `denied_of_extends`.
-/

namespace WildAgentOs.Tools

open Json Text Escaping List Option

/-! ### Rules as they are written -/

/-- The characters that a rule puts a backslash before. -/
def isEscaped (c : Char) : Bool := decide (c = '\\' ∨ c = '(' ∨ c = ')')

/-- A subject as it is written in a rule. -/
def escapeRuleContent (s : List Char) : List Char := escapeWith '\\' isEscaped s

/-- `tool(content)`. -/
def ruleText (tool : String) (content : List Char) : String := String.ofList (tool.toList ++ '(' :: (content ++ [')']))

/-- A name of a tool as rules can have it. -/
structure IsToolName (tool : String) : Prop where
  plain : ∀ c ∈ tool.toList, isEscaped c = false
  trimmed : trim tool.toList = tool.toList

/-- A subject that a rule can be written for. -/
structure IsSubject (s : String) : Prop where
  ne_nil : s.toList ≠ []
  trimmed : trim s.toList = s.toList
  ne_star : s ≠ "*"
  not_start : ¬[':', '*'] <:+ s.toList

/-- **The rules for a subject match exactly**: the one of the subject itself, and the one of what starts with it. -/
structure MatchesExactly (fromStr : String → Except String Value) (tool s : String) : Prop where
  matcher : (PermissionRule.parse (ruleText tool (escapeRuleContent s.toList))).matcher = .exact s
  exact : ∀ toolName input,
    (PermissionRule.parse (ruleText tool (escapeRuleContent s.toList))).applies fromStr toolName input = true ↔
      toolName = tool ∧ extractPermissionSubject fromStr input = some s
  startsWith : ∀ toolName input,
    (PermissionRule.parse (ruleText tool (escapeRuleContent s.toList ++ [':', '*']))).applies fromStr toolName input =
      true ↔ toolName = tool ∧ ∃ subject, extractPermissionSubject fromStr input = some subject ∧
        s.toList <+: subject.toList

/-! ### Reading a rule back -/

/-- **The three replacements take the backslashes off.** -/
theorem unescapeRuleContent_escapeRuleContent (s : List Char) : unescapeRuleContent (escapeRuleContent s) = s := by
  unfold unescapeRuleContent escapeRuleContent
  rw [replace_escapeWith (by decide) (by decide) (by decide), replace_escapeWith (by decide) (by decide) (by decide),
    replace_escapeWith_mark]
  intro c
  by_cases hc : c = '\\'
  · subst hc
    decide
  · simp only [isEscaped, hc, false_or, Bool.and_eq_true, decide_eq_true_eq, iff_false]
    tauto

variable {s : List Char}

theorem trim_escapeRuleContent (h : trim s = s) : trim (escapeRuleContent s) = escapeRuleContent s := by
  obtain ⟨hhead, hlast⟩ := trim_eq_self_iff.1 h
  refine trim_eq_self_iff.2 ⟨fun c hc => ?_, fun c hc => ?_⟩
  · rcases head?_escapeWith hc with rfl | ⟨hc, -⟩
    · rfl
    · exact hhead c hc
  · rw [escapeRuleContent, getLast?_escapeWith] at hc
    exact hlast c hc

/-- The content of a rule that is written for a text. -/
theorem parseRuleMatcher_escapeRuleContent (htrim : trim s = s) (hne : s ≠ [])
    (hstar : s ≠ ['*']) : parseRuleMatcher (escapeRuleContent s) =
      if [':', '*'] <:+ s then .startsWith (String.ofList (s.take (s.length - 2))) else .exact (String.ofList s) := by
  unfold parseRuleMatcher
  rw [trim_escapeRuleContent htrim, unescapeRuleContent_escapeRuleContent]
  simp [hne, hstar]

theorem findFirstUnescaped_append {tool rest : List Char} (h : ∀ c ∈ tool, isEscaped c = false) (i : ℕ) :
    findFirstUnescaped '(' false i (tool ++ '(' :: rest) = some (i + tool.length) := by
  induction tool generalizing i with
  | nil => rfl
  | cons c tool ih =>
    have hc := h c mem_cons_self
    simp only [isEscaped, decide_eq_false_iff_not, not_or] at hc
    rw [cons_append, findFirstUnescaped, if_neg hc.1, if_neg (by simp [hc.2.1]),
      ih fun d hd => h d (mem_cons_of_mem c hd)]
    simp only [length_cons]
    congr 1
    omega

theorem append_cons_append (tool content : List Char) :
    tool ++ '(' :: (content ++ [')']) = (tool ++ '(' :: content) ++ [')'] := by simp

/-- The last parenthesis is found at the end of the rule: the backslashes before it are those of the subject. -/
theorem findLastUnescaped_ruleText (tool s : List Char) :
    findLastUnescaped (tool ++ '(' :: (escapeRuleContent s ++ [')'])) ')' =
      some (tool ++ '(' :: escapeRuleContent s).length := by
  rw [append_cons_append]
  unfold findLastUnescaped
  rw [length_append, length_singleton, range_succ, reverse_append, reverse_singleton,
    singleton_append, find?_cons_of_pos]
  rw [decide_eq_true_eq, take_left]
  refine ⟨?_, even_trailing_marks (by decide) (by decide) s tool⟩
  rw [getElem?_append_right (le_refl _)]
  simp

theorem trim_ruleText {tool content : List Char} (htool : trim tool = tool) (hne : tool ≠ []) :
    trim (tool ++ '(' :: (content ++ [')'])) = tool ++ '(' :: (content ++ [')']) := by
  refine trim_eq_self_iff.2 ⟨fun c hc => ?_, fun c hc => ?_⟩
  · rw [head?_append_of_ne_nil _ hne] at hc
    exact (trim_eq_self_iff.1 htool).1 c hc
  · rw [append_cons_append, getLast?_concat] at hc
    obtain rfl : ')' = c := by simpa using hc
    rfl

/-- **Where a rule is cut**: at the first parenthesis, and at the one that ends it. -/
theorem PermissionRule.parse_rule {tool : String} (htool : IsToolName tool) (hne : tool ≠ "") (s : List Char) :
    PermissionRule.parse (ruleText tool (escapeRuleContent s)) =
      ⟨ruleText tool (escapeRuleContent s), tool, parseRuleMatcher (escapeRuleContent s)⟩ := by
  have hne' : tool.toList ≠ [] := by simpa using hne
  unfold PermissionRule.parse ruleText
  dsimp only
  rw [String.toList_ofList, trim_ruleText htool.trimmed hne', findFirstUnescaped_append htool.plain,
    findLastUnescaped_ruleText]
  simp only [Nat.zero_add]
  rw [if_pos ⟨by simp, by simp⟩, take_left, htool.trimmed, if_neg hne', String.ofList_toList]
  have hcontent : ((tool.toList ++ '(' :: (escapeRuleContent s ++ [')'])).take
      (tool.toList ++ '(' :: escapeRuleContent s).length).drop (tool.toList.length + 1) = escapeRuleContent s := by
    rw [append_cons_append, take_left]
    simp
  rw [hcontent]

/-- **A rule matches exactly the written subject**, for every name of a tool that is not empty. -/
theorem rule_matchesExactly (fromStr : String → Except String Value) {tool s : String} (htool : IsToolName tool)
    (hne : tool ≠ "") (hs : IsSubject s) : MatchesExactly fromStr tool s := by
  have hstar : s.toList ≠ ['*'] := by
    intro h
    exact hs.ne_star (String.ext h)
  have hexact : PermissionRule.parse (ruleText tool (escapeRuleContent s.toList)) =
      ⟨ruleText tool (escapeRuleContent s.toList), tool, .exact s⟩ := by
    rw [PermissionRule.parse_rule htool hne, parseRuleMatcher_escapeRuleContent hs.trimmed hs.ne_nil hstar,
      if_neg hs.not_start, String.ofList_toList]
  have hstart : PermissionRule.parse (ruleText tool (escapeRuleContent s.toList ++ [':', '*'])) =
      ⟨ruleText tool (escapeRuleContent s.toList ++ [':', '*']), tool, .startsWith s⟩ := by
    -- The two characters behind the subject need no backslash, so they are part of what is written.
    have hcontent : escapeRuleContent s.toList ++ [':', '*'] = escapeRuleContent (s.toList ++ [':', '*']) := by
      unfold escapeRuleContent
      rw [escapeWith_append, escapeWith_eq_self (s := [':', '*']) (by simp [isEscaped])]
    have htrim : trim (s.toList ++ [':', '*']) = s.toList ++ [':', '*'] := by
      refine trim_eq_self_iff.2 ⟨fun c hc => ?_, fun c hc => ?_⟩
      · rw [head?_append_of_ne_nil _ hs.ne_nil] at hc
        exact (trim_eq_self_iff.1 hs.trimmed).1 c hc
      · have hlast : (s.toList ++ [':', '*']).getLast? = some '*' := by simp
        rw [hlast] at hc
        obtain rfl : '*' = c := by simpa using hc
        rfl
    have hlonger : s.toList ++ [':', '*'] ≠ ['*'] := by
      intro h
      simpa using congrArg List.length h
    rw [hcontent, PermissionRule.parse_rule htool hne,
      parseRuleMatcher_escapeRuleContent htrim (by simp) hlonger, if_pos (suffix_append _ _)]
    simp
  refine ⟨by rw [hexact], fun toolName input => ?_, fun toolName input => ?_⟩
  · rw [hexact]
    unfold PermissionRule.applies
    cases extractPermissionSubject fromStr input <;> simp [@eq_comm _ tool]
  · rw [hstart]
    unfold PermissionRule.applies
    cases extractPermissionSubject fromStr input <;> simp [@eq_comm _ tool]

/-- A subject with both parentheses, and with a backslash at its end. -/
theorem rule_matchesExactly_bash : MatchesExactly (fun _ => .error "expected value") "bash" "dir (x86)\\" :=
  rule_matchesExactly _ ⟨by simp [isEscaped], by decide⟩ (by decide) ⟨by decide, by decide, by decide, by decide⟩

/-- A rule without the name of a tool is a name itself. -/
theorem not_matchesExactly_nameless : ¬∀ tool s, IsToolName tool → IsSubject s →
    MatchesExactly (fun _ => .error "expected value") tool s := by
  intro h
  have hmatcher := (h "" "x" ⟨by simp, by decide⟩ ⟨by decide, by decide, by decide, by decide⟩).matcher
  revert hmatcher
  decide +kernel

/-! ### Calls that say more -/

/-- The text under a name. -/
def textUnder (members : List (String × Value)) (key : String) : Option String :=
  ((Value.object members).get key).bind Value.asStr

/-- The name that the subject is taken from. -/
def subjectKey (members : List (String × Value)) : Option String :=
  subjectKeys.find? fun key => (textUnder members key).isSome

/-- What an object says, the other says too. -/
def Extends (members members' : List (String × Value)) : Prop :=
  ∀ key value, (Value.object members).get key = some value → (Value.object members').get key = some value

/-- A further member is a text under a name that is looked for before the name. -/
def Hides (members members' : List (String × Value)) (key : String) : Prop :=
  ∃ earlier ∈ subjectKeys.takeWhile (· ≠ key),
    (Value.object members).get earlier = none ∧ textUnder members' earlier ≠ none

section

variable {fromStr : String → Except String Value} {members members' : List (String × Value)}

theorem textUnder_of_extends (h : Extends members members') {key value : String}
    (hsome : textUnder members key = some value) : textUnder members' key = some value := by
  unfold textUnder at hsome ⊢
  obtain ⟨v, hv, hstr⟩ := bind_eq_some_iff.1 hsome
  rw [h key v hv]
  exact hstr

/-- **Where the subject of a call comes from**: the first name that has a text. -/
theorem extractPermissionSubject_of_subjectKey {input key : String} (hinput : fromStr input = .ok (.object members))
    (hkey : subjectKey members = some key) : extractPermissionSubject fromStr input = textUnder members key := by
  obtain ⟨hsome, before, after, hkeys, hbefore⟩ := find?_eq_some_iff_append.1 hkey
  obtain ⟨value, hvalue⟩ := isSome_iff_exists.1 hsome
  have hnone : ∀ earlier ∈ before, textUnder members earlier = none := by
    intro earlier hmem
    simpa using hbefore earlier hmem
  have hfound : subjectKeys.findSome? (textUnder members) = some value := by
    rw [hkeys, findSome?_append, findSome?_eq_none_iff.2 hnone, none_or, findSome?_cons, hvalue]
  have hfound' : (subjectKeys.findSome? fun key => ((Value.object members).get key).bind Value.asStr) = some value :=
    hfound
  unfold extractPermissionSubject
  rw [hinput, hvalue]
  simp only [hfound']

/-- Further members that hide nothing leave the subject where it was. -/
theorem subjectKey_of_extends (h : Extends members members') {key : String} (hkey : subjectKey members = some key)
    (hhides : ¬Hides members members' key) : subjectKey members' = some key := by
  obtain ⟨hsome, before, after, hkeys, hbefore⟩ := find?_eq_some_iff_append.1 hkey
  obtain ⟨value, hvalue⟩ := isSome_iff_exists.1 hsome
  refine find?_eq_some_iff_append.2 ⟨?_, before, after, hkeys, ?_⟩
  · rw [textUnder_of_extends h hvalue]
    rfl
  · intro earlier hmem
    have hnone : textUnder members earlier = none := by simpa using hbefore earlier hmem
    have hne : key ∉ before := by
      have hnodup : subjectKeys.Nodup := by decide
      rw [hkeys, nodup_append] at hnodup
      exact fun hin => hnodup.2.2 key hin key mem_cons_self rfl
    have htake : earlier ∈ subjectKeys.takeWhile (· ≠ key) := by
      rw [hkeys, takeWhile_append_of_pos]
      · exact mem_append_left _ hmem
      · intro k hk
        have hkne : k ≠ key := by
          rintro rfl
          exact hne hk
        simpa using hkne
    cases hget : (Value.object members).get earlier with
    | none =>
      by_contra htext
      refine hhides ⟨earlier, htake, hget, ?_⟩
      simpa [isSome_iff_ne_none] using htext
    | some v =>
      -- The member was there, and is no text.
      have hstr : v.asStr = none := by simpa [textUnder, hget] using hnone
      simp [textUnder, h earlier v hget, hstr]

/-- **A deny rule is not dodged** by further members that hide nothing from it. -/
theorem denied_of_extends {policy : PermissionPolicy} {toolName input input' key : String} {rule : PermissionRule}
    (hinput : fromStr input = .ok (.object members)) (hinput' : fromStr input' = .ok (.object members'))
    (hextends : Extends members members') (hkey : subjectKey members = some key) (hhides : ¬Hides members members' key)
    (hrule : rule ∈ policy.denyRules) (happlies : rule.applies fromStr toolName input = true)
    (context : PermissionContext) (prompter : Option PermissionPrompter) :
    ∃ reason, policy.authorizeWithContext fromStr toolName input' context prompter = (.deny reason, []) := by
  have hsubject : extractPermissionSubject fromStr input' = extractPermissionSubject fromStr input := by
    rw [extractPermissionSubject_of_subjectKey hinput hkey,
      extractPermissionSubject_of_subjectKey hinput' (subjectKey_of_extends hextends hkey hhides)]
    have hsome : (textUnder members key).isSome := by
      have h := find?_some hkey
      exact h
    obtain ⟨value, hvalue⟩ := isSome_iff_exists.1 hsome
    rw [hvalue, textUnder_of_extends hextends hvalue]
  have happlies' : rule.applies fromStr toolName input' = true := by
    unfold PermissionRule.applies at happlies ⊢
    rwa [hsubject]
  have hfound : (findMatchingRule fromStr policy.denyRules toolName input').isSome := by
    unfold findMatchingRule
    rw [find?_isSome]
    exact ⟨rule, hrule, happlies'⟩
  obtain ⟨found, hfound⟩ := isSome_iff_exists.1 hfound
  unfold PermissionPolicy.authorizeWithContext
  rw [hfound]
  exact ⟨_, rfl⟩

end

/-! A policy that denies one file, and a call that reads it. -/

namespace ReadFile

def policy : PermissionPolicy :=
  (PermissionPolicy.new .dangerFullAccess).withPermissionRules [] ["read_file(/etc/passwd)"] []

def read : List (String × Value) := [("path", .string "/etc/passwd")]

/-- The same, with a member that is looked for later, and with one that is looked for before the path. -/
def readWithUrl : List (String × Value) := [("path", .string "/etc/passwd"), ("url", .string "x")]

def readWithCommand : List (String × Value) := [("command", .string "x"), ("path", .string "/etc/passwd")]

def readText : String := "\x7b\"path\":\"/etc/passwd\"\x7d"

def readWithUrlText : String := "\x7b\"path\":\"/etc/passwd\",\"url\":\"x\"\x7d"

def readWithCommandText : String := "\x7b\"command\":\"x\",\"path\":\"/etc/passwd\"\x7d"

def fromStr (input : String) : Except String Value :=
  if input = readText then .ok (.object read)
  else if input = readWithUrlText then .ok (.object readWithUrl)
  else if input = readWithCommandText then .ok (.object readWithCommand)
  else .error "expected value"

end ReadFile

theorem ReadFile.extends_of_get {members : List (String × Value)}
    (h : (Value.object members).get "path" = some (.string "/etc/passwd")) : Extends ReadFile.read members := by
  intro key value hread
  by_cases hkey : key = "path"
  · subst hkey
    rw [h]
    exact hread
  · have hlookup : List.lookup key ReadFile.read = some value := hread
    have hne : (key == "path") = false := by simpa using hkey
    rw [ReadFile.read, lookup_cons, hne] at hlookup
    cases hlookup

/-- A member that is looked for later leaves the call denied. -/
theorem denied_of_extends_url : ∃ reason, ReadFile.policy.authorizeWithContext ReadFile.fromStr "read_file"
    ReadFile.readWithUrlText ⟨some .allow, none⟩ none = (.deny reason, []) := by
  have htext : ∀ earlier ∈ subjectKeys.takeWhile (· ≠ "path"), textUnder ReadFile.readWithUrl earlier = none := by
    decide +kernel
  have hread : ReadFile.fromStr ReadFile.readText = .ok (.object ReadFile.read) := rfl
  have hurl : ReadFile.fromStr ReadFile.readWithUrlText = .ok (.object ReadFile.readWithUrl) := rfl
  have hkey : subjectKey ReadFile.read = some "path" := rfl
  have hhides : ¬Hides ReadFile.read ReadFile.readWithUrl "path" := by
    rintro ⟨earlier, hmem, -, hne⟩
    exact hne (htext earlier hmem)
  have hrule : PermissionRule.parse "read_file(/etc/passwd)" ∈ ReadFile.policy.denyRules := mem_cons_self
  exact denied_of_extends hread hurl (ReadFile.extends_of_get rfl) hkey hhides hrule (by decide +kernel) _ _

/-- A command beside the path is what the rules are measured against, and the file is read. -/
theorem not_denied_of_command : ReadFile.fromStr ReadFile.readText = .ok (.object ReadFile.read) ∧
      ReadFile.fromStr ReadFile.readWithCommandText = .ok (.object ReadFile.readWithCommand) ∧
      Extends ReadFile.read ReadFile.readWithCommand ∧
      (∃ rule ∈ ReadFile.policy.denyRules, rule.matcher = .exact "/etc/passwd" ∧
        rule.applies ReadFile.fromStr "read_file" ReadFile.readText = true) ∧
      (ReadFile.policy.authorize ReadFile.fromStr "read_file" ReadFile.readText none).1 =
        .deny "Permission to use read_file has been denied by rule 'read_file(/etc/passwd)'" ∧
      (ReadFile.policy.authorize ReadFile.fromStr "read_file" ReadFile.readWithCommandText none).1 = .allow := by
  refine ⟨rfl, rfl, ReadFile.extends_of_get rfl, ⟨.parse "read_file(/etc/passwd)", mem_cons_self, ?_, ?_⟩, ?_, ?_⟩
  all_goals decide +kernel

end WildAgentOs.Tools
