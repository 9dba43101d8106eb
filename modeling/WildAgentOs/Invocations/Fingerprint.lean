import Mathlib.Data.List.Sort
import WildAgentOs.Json.Print
import WildAgentOs.Lib.Bincode

/-!
# Request fingerprints

`write_canonical_json` and `request_fingerprint` of `invocations.rs`.  How `serde_json` reads a body and prints a
number, and SHA-256, are parameters.

* `Value.Same`: the same value, whatever the order of the members;
* `writeCanonicalJson`, `writeCanonicalJson_inj`, `writeCanonicalJson_of_same`;
* `requestFingerprint`, `fingerprint_eq_iff`.
-/

namespace WildAgentOs.Json.Value

mutual
/-- The same value: objects are compared member by member, in any order. -/
def Same : Value → Value → Prop
  | .null, .null => True
  | .bool b, .bool b' => b = b'
  | .number n, .number n' => n = n'
  | .string s, .string s' => s = s'
  | .array items, .array items' => SameItems items items'
  | .object members, .object members' => members.length = members'.length ∧ SameMembers members members'
  | _, _ => False

def SameItems : List Value → List Value → Prop
  | [], [] => True
  | v :: items, v' :: items' => Same v v' ∧ SameItems items items'
  | _, _ => False

def SameMembers : List (String × Value) → List (String × Value) → Prop
  | [], _ => True
  | (key, v) :: members, members' => (∃ v', (key, v') ∈ members' ∧ Same v v') ∧ SameMembers members members'
end

mutual
/-- Every object has each key once, as `serde_json::Map` does. -/
def Keyed : Value → Prop
  | .array items => KeyedItems items
  | .object members => (members.map Prod.fst).Nodup ∧ KeyedMembers members
  | _ => True

def KeyedItems : List Value → Prop
  | [] => True
  | v :: items => Keyed v ∧ KeyedItems items

def KeyedMembers : List (String × Value) → Prop
  | [] => True
  | (_, v) :: members => Keyed v ∧ KeyedMembers members
end

theorem sameItems_iff {items items' : List Value} : SameItems items items' ↔ List.Forall₂ Same items items' := by
  induction items generalizing items' with
  | nil => cases items' <;> simp [SameItems]
  | cons v items ih => cases items' <;> simp [SameItems, ih]

theorem sameMembers_iff {members members' : List (String × Value)} :
    SameMembers members members' ↔ ∀ m ∈ members, ∃ v', (m.1, v') ∈ members' ∧ Same m.2 v' := by
  induction members with
  | nil => simp [SameMembers]
  | cons m members ih => simp only [SameMembers, ih, List.forall_mem_cons]

theorem keyedItems_iff {items : List Value} : KeyedItems items ↔ ∀ v ∈ items, v.Keyed := by
  induction items with
  | nil => simp [KeyedItems]
  | cons v items ih => simp only [KeyedItems, ih, List.forall_mem_cons]

theorem keyedMembers_iff {members : List (String × Value)} : KeyedMembers members ↔ ∀ m ∈ members, m.2.Keyed := by
  induction members with
  | nil => simp [KeyedMembers]
  | cons m members ih => simp only [KeyedMembers, ih, List.forall_mem_cons]

end WildAgentOs.Json.Value

namespace WildAgentOs.Invocations

open Json LittleEndian Bincode List Function

/-! ### Canonical JSON -/

/-- The UTF-8 bytes of a key. -/
def keyBytes (key : String) : List ℕ := (utf8 key).map UInt8.toNat

/-- The entries of an object, sorted by their keys. -/
def sortEntries {α : Type} (entries : List (String × α)) : List (String × α) :=
  entries.mergeSort fun a b => decide (keyBytes a.1 ≤ keyBytes b.1)

section
variable (text : NumberText)

mutual
def writeCanonicalJson : Value → List Char
  | .object members =>
    let entries := sortEntries (writeMembers members)
    '{' :: ([','].intercalate (entries.map fun e => printString e.1 ++ ':' :: e.2) ++ ['}'])
  | .array items => '[' :: ([','].intercalate (writeItems items) ++ [']'])
  | .null => "null".toList
  | .bool true => "true".toList
  | .bool false => "false".toList
  | .number n => text.print n
  | .string s => printString s

def writeItems : List Value → List (List Char)
  | [] => []
  | v :: items => writeCanonicalJson v :: writeItems items

def writeMembers : List (String × Value) → List (String × List Char)
  | [] => []
  | (key, v) :: members => (key, writeCanonicalJson v) :: writeMembers members
end

def MAX_CREATE_BODY_BYTES : ℕ := 64 * 1024

/-- `hex::encode`. -/
def hexEncode (bs : Bytes) : String :=
  String.ofList (bs.flatMap fun b => [hexDigit (b.toNat / 16), hexDigit (b.toNat % 16)])

def requestFingerprint (sha256 : Bytes → Bytes) (fromSlice : Bytes → Option Value) (raw : Bytes) : Option String :=
  if MAX_CREATE_BODY_BYTES < raw.length then none
  else (fromSlice raw).map fun value => hexEncode (sha256 (utf8 (String.ofList (writeCanonicalJson text value))))

end

variable {text : NumberText}

theorem writeItems_eq (items : List Value) : writeItems text items = items.map (writeCanonicalJson text) := by
  induction items with
  | nil => rfl
  | cons v items ih => rw [writeItems, ih, map_cons]

theorem writeMembers_eq (members : List (String × Value)) :
    writeMembers text members = members.map fun m => (m.1, writeCanonicalJson text m.2) := by
  induction members with
  | nil => rfl
  | cons m members ih => rw [writeMembers, ih, map_cons]

/-- What is written for a member. -/
def memberText (text : NumberText) (m : String × Value) : List Char :=
  printString m.1 ++ ':' :: writeCanonicalJson text m.2

theorem writeCanonicalJson_array (items : List Value) :
    writeCanonicalJson text (.array items) = '[' :: listed ']' [] (items.map (writeCanonicalJson text)) := by
  rw [writeCanonicalJson, writeItems_eq, listed]

/-- The members are written in the order of their keys. -/
theorem writeCanonicalJson_object (members : List (String × Value)) :
    writeCanonicalJson text (.object members) = '{' :: listed '}' [] ((sortEntries members).map (memberText text)) := by
  have hsort : sortEntries (writeMembers text members) =
      (sortEntries members).map fun m => (m.1, writeCanonicalJson text m.2) := by
    rw [writeMembers_eq]
    refine (map_mergeSort (f := fun m : String × Value => (m.1, writeCanonicalJson text m.2)) ?_).symm
    exact fun _ _ _ _ => rfl
  rw [writeCanonicalJson, hsort, map_map, listed]
  rfl

theorem sortEntries_perm {α : Type} (entries : List (String × α)) : (sortEntries entries).Perm entries :=
  mergeSort_perm _ _

/-! ### Reading back -/

/-- What kind of value starts with a character. -/
def headKind (c : Char) : ℕ :=
  if c = 'n' then 0
  else if c = 't' then 1
  else if c = 'f' then 2
  else if c = '"' then 3
  else if c = '[' then 4
  else if c = '{' then 5
  else if c ∈ numberChars then 6
  else 7

def kindOf : Value → ℕ
  | .null => 0
  | .bool true => 1
  | .bool false => 2
  | .string _ => 3
  | .array _ => 4
  | .object _ => 5
  | .number _ => 6

theorem exists_head (text : NumberText) (a : Value) :
    ∃ c t, writeCanonicalJson text a = c :: t ∧ headKind c = kindOf a := by
  cases a with
  | null => exact ⟨_, _, rfl, rfl⟩
  | bool b => cases b <;> exact ⟨_, _, rfl, rfl⟩
  | string s => exact ⟨_, _, rfl, rfl⟩
  | array items => exact ⟨_, _, rfl, rfl⟩
  | object members => exact ⟨_, _, rfl, rfl⟩
  | number n =>
    have hall : numberChars.all (fun c => headKind c = 6) = true := by decide
    obtain ⟨c, t, hn⟩ := exists_cons_of_ne_nil (text.ne_nil n)
    have hc := text.chars n c (hn ▸ mem_cons_self)
    exact ⟨c, t, hn, of_decide_eq_true (all_eq_true.1 hall c hc)⟩

/-- The first character tells the kind. -/
theorem kindOf_eq {a b : Value} {rest rest' : List Char}
    (h : writeCanonicalJson text a ++ rest = writeCanonicalJson text b ++ rest') : kindOf a = kindOf b := by
  obtain ⟨c, t, ha, hc⟩ := exists_head text a
  obtain ⟨d, t', hb, hd⟩ := exists_head text b
  rw [ha, hb] at h
  rw [← hc, ← hd, (cons.inj h).1]

/-- No value starts with a closing bracket. -/
theorem head_ne_close (text : NumberText) (a : Value) : ∃ c t, writeCanonicalJson text a = c :: t ∧ c ≠ ']' := by
  obtain ⟨c, t, ha, hc⟩ := exists_head text a
  refine ⟨c, t, ha, ?_⟩
  rintro rfl
  have hclose : headKind ']' = 7 := by decide
  rw [hclose] at hc
  cases a with
  | bool b => cases b <;> cases hc
  | _ => cases hc

/-- A number is read back from its print, up to what may follow. -/
theorem eq_of_print {n n' : Number} {rest rest' : List Char} (hrest : Stop rest) (hrest' : Stop rest')
    (h : text.print n ++ rest = text.print n' ++ rest') : n = n' ∧ rest = rest' := by
  have htake : ∀ {n rest}, Stop rest →
      (text.print n ++ rest).takeWhile (fun c => decide (c ∈ numberChars)) = text.print n := by
    intro n rest hstop
    rw [takeWhile_append_of_pos fun c hc => decide_eq_true (text.chars n c hc)]
    have hnil : rest.takeWhile (fun c => decide (c ∈ numberChars)) = [] := by
      cases rest with
      | nil => rfl
      | cons c rest =>
        refine takeWhile_cons_of_neg ?_
        rcases hstop c rfl with rfl | rfl | rfl <;> decide
    rw [hnil, append_nil]
  have hprint : text.print n = text.print n' := by rw [← htake hrest, h, htake hrest']
  rw [hprint] at h
  exact ⟨text.injective hprint, append_cancel_left h⟩

/-- **A value is read back from what is written for it, up to what may follow.** -/
theorem same_of_writeCanonicalJson (a : Value) : ∀ b rest rest', Stop rest → Stop rest' →
    writeCanonicalJson text a ++ rest = writeCanonicalJson text b ++ rest' → a.Same b ∧ rest = rest' := by
  induction a using Value.nested with
  | null =>
    intro b rest rest' _ _ h
    have hkind := kindOf_eq h
    cases b with
    | null => exact ⟨trivial, append_cancel_left h⟩
    | bool b' => cases b' <;> cases hkind
    | _ => cases hkind
  | bool b₀ =>
    intro b rest rest' _ _ h
    have hkind := kindOf_eq h
    cases b with
    | bool b' =>
      cases b₀ <;> cases b' <;> first | exact ⟨rfl, append_cancel_left h⟩ | cases hkind
    | _ => cases b₀ <;> cases hkind
  | number n =>
    intro b rest rest' hrest hrest' h
    have hkind := kindOf_eq h
    cases b with
    | number n' => exact eq_of_print hrest hrest' h
    | bool b' => cases b' <;> cases hkind
    | _ => cases hkind
  | string s =>
    intro b rest rest' _ _ h
    have hkind := kindOf_eq h
    cases b with
    | string s' => exact eq_of_printString h
    | bool b' => cases b' <;> cases hkind
    | _ => cases hkind
  | array items ih =>
    intro b rest rest' _ _ h
    have hkind := kindOf_eq h
    cases b with
    | array items' =>
      rw [writeCanonicalJson_array, writeCanonicalJson_array, cons_append, cons_append, listed_append,
        listed_append] at h
      obtain ⟨hitems, hrest⟩ := forall₂_of_listed (.inl rfl) (fun v hv v' _ => ih v hv v')
        (fun v _ => head_ne_close text v) (fun v _ => head_ne_close text v) (cons.inj h).2
      exact ⟨Value.sameItems_iff.2 hitems, hrest⟩
    | bool b' => cases b' <;> cases hkind
    | _ => cases hkind
  | object members ih =>
    intro b rest rest' _ _ h
    have hkind := kindOf_eq h
    cases b with
    | object members' =>
      rw [writeCanonicalJson_object, writeCanonicalJson_object, cons_append, cons_append, listed_append,
        listed_append] at h
      have hhead : ∀ m : String × Value, ∃ c t, memberText text m = c :: t ∧ c ≠ '}' := fun m => ⟨_, _, rfl, by decide⟩
      have hmember : ∀ m ∈ sortEntries members, ∀ m' ∈ sortEntries members', ∀ r r', Stop r → Stop r' →
          memberText text m ++ r = memberText text m' ++ r' → (m.1 = m'.1 ∧ m.2.Same m'.2) ∧ r = r' := by
        intro m hm m' _ r r' hr hr' heq
        rw [memberText, memberText, append_assoc, append_assoc] at heq
        obtain ⟨hkey, hvalue⟩ := eq_of_printString heq
        have hin := (sortEntries_perm members).mem_iff.1 hm
        obtain ⟨hsame, hrest⟩ := ih m hin m'.2 r r' hr hr' (cons.inj hvalue).2
        exact ⟨⟨hkey, hsame⟩, hrest⟩
      obtain ⟨hmembers, hrest⟩ := forall₂_of_listed (.inr rfl) hmember (fun m _ => hhead m) (fun m _ => hhead m)
        (cons.inj h).2
      refine ⟨⟨?_, Value.sameMembers_iff.2 fun m hm => ?_⟩, hrest⟩
      · rw [← (sortEntries_perm members).length_eq, ← (sortEntries_perm members').length_eq]
        exact hmembers.length_eq
      · obtain ⟨m', hm', hkey, hsame⟩ :=
          exists_of_forall₂ hmembers ((sortEntries_perm members).mem_iff.2 hm)
        exact ⟨m'.2, hkey ▸ (sortEntries_perm members').mem_iff.1 hm', hsame⟩
    | bool b' => cases b' <;> cases hkind
    | _ => cases hkind

/-! ### Writing the same -/

theorem keyBytes_injective : Injective keyBytes := by
  intro a b h
  exact utf8_injective (map_injective_iff.2 (fun _ _ => UInt8.toNat_inj.1) h)

theorem pairwise_sortEntries {α : Type} (entries : List (String × α)) :
    (sortEntries entries).Pairwise fun a b => keyBytes a.1 ≤ keyBytes b.1 := by
  have hsorted := @pairwise_mergeSort _ (fun a b : String × α => decide (keyBytes a.1 ≤ keyBytes b.1))
    (fun a b c hab hbc => by
      rw [decide_eq_true_iff] at hab hbc ⊢
      exact hab.trans hbc)
    (fun a b => by
      rw [Bool.or_eq_true, decide_eq_true_iff, decide_eq_true_iff]
      exact le_total _ _) entries
  exact hsorted.imp fun h => of_decide_eq_true h

/-- Entries with distinct keys are sorted alike, whatever their order was. -/
theorem sortEntries_eq_of_perm {α : Type} {entries entries' : List (String × α)} (hperm : entries.Perm entries')
    (hkeys : (entries.map Prod.fst).Nodup) : sortEntries entries = sortEntries entries' := by
  have hboth : (sortEntries entries).Perm (sortEntries entries') :=
    (sortEntries_perm entries).trans (hperm.trans (sortEntries_perm entries').symm)
  refine hboth.eq_of_pairwise ?_ (pairwise_sortEntries entries) (pairwise_sortEntries entries')
  intro a b ha hb hab hba
  have hkey : a.1 = b.1 := keyBytes_injective (le_antisymm hab hba)
  have ha' := (sortEntries_perm entries).mem_iff.1 ha
  have hb' := (sortEntries_perm entries).mem_iff.1 (hboth.mem_iff.2 hb)
  exact inj_on_of_nodup_map hkeys ha' hb' hkey

/-- **The same value is written the same.** -/
theorem writeCanonicalJson_of_same (a : Value) : ∀ b, a.Keyed → b.Keyed → a.Same b →
    writeCanonicalJson text a = writeCanonicalJson text b := by
  induction a using Value.nested with
  | null | bool _ | number _ | string _ =>
    intro b _ _ h
    cases b <;> first | exact absurd h id | (cases h; rfl)
  | array items ih =>
    intro b ha hb h
    cases b with
    | array items' =>
      have hall := Value.sameItems_iff.1 h
      have hkeyed := Value.keyedItems_iff.1 ha
      have hkeyed' := Value.keyedItems_iff.1 hb
      rw [writeCanonicalJson_array, writeCanonicalJson_array, map_eq_of_forall₂ hall fun v hv v' hv' hsame =>
        ih v hv v' (hkeyed v hv) (hkeyed' v' hv') hsame]
    | _ => exact absurd h id
  | object members ih =>
    intro b ha hb h
    cases b with
    | object members' =>
      obtain ⟨hnodup, hkeyed⟩ := ha
      obtain ⟨-, hkeyed'⟩ := hb
      obtain ⟨hlength, hmembers⟩ := h
      rw [Value.keyedMembers_iff] at hkeyed hkeyed'
      rw [Value.sameMembers_iff] at hmembers
      have hkeys : ((writeMembers text members).map Prod.fst).Nodup := by
        rw [writeMembers_eq, map_map]
        exact hnodup
      have hsub : writeMembers text members ⊆ writeMembers text members' := by
        intro e he
        rw [writeMembers_eq] at he ⊢
        obtain ⟨m, hm, rfl⟩ := mem_map.1 he
        obtain ⟨v', hv', hsame⟩ := hmembers m hm
        rw [ih m hm v' (hkeyed m hm) (hkeyed' _ hv') hsame]
        exact mem_map_of_mem (f := fun m : String × Value => (m.1, writeCanonicalJson text m.2)) hv'
      have hperm : (writeMembers text members).Perm (writeMembers text members') := by
        refine (subperm_of_subset (List.Nodup.of_map _ hkeys) hsub).perm_of_length_le ?_
        rw [writeMembers_eq, writeMembers_eq, length_map, length_map, hlength]
      rw [writeCanonicalJson, writeCanonicalJson, sortEntries_eq_of_perm hperm hkeys]
    | _ => exact absurd h id

/-- **Two values are written the same exactly if they are the same.** -/
theorem writeCanonicalJson_inj {a b : Value} (ha : a.Keyed) (hb : b.Keyed) :
    writeCanonicalJson text a = writeCanonicalJson text b ↔ a.Same b := by
  have hstop : Stop [] := fun c hc => (nomatch hc)
  refine ⟨fun h => ?_, writeCanonicalJson_of_same a b ha hb⟩
  exact (same_of_writeCanonicalJson a b [] [] hstop hstop (congrArg (· ++ []) h)).1

/-! ### Fingerprints -/

theorem hexEncode_injective : Injective hexEncode := by
  intro bs bs' h
  refine Text.flatMap_injective (fun b => cons_ne_nil _ _) ?_ (String.ofList_injective h)
  intro b b' rest rest' heq
  have hb := b.toNat_lt
  have hb' := b'.toNat_lt
  obtain ⟨hhigh, htail⟩ := cons.inj heq
  have hhigh := hexDigit_injective _ (by omega) _ (by omega) hhigh
  have hlow := hexDigit_injective _ (by omega) _ (by omega) (cons.inj htail).1
  exact UInt8.toNat_inj.1 (by omega)

/-- Integers in decimal; no float is printed so. -/
def decimal : Number → List Char
  | .posInt n => Nat.toDigits 10 n.toNat
  | .negInt n => (if n.toInt < 0 then '-' else '+') :: Nat.toDigits 10 n.toInt.natAbs
  | .float x => '.' :: Nat.toDigits 10 x.bits.toNat

theorem toDigits_injective : Injective (Nat.toDigits 10) := by
  intro a b h
  have hback := congrArg (fun cs => Nat.ofDigitChars 10 cs 0) h
  simpa using hback

/-- No decimal starts with a sign or a point. -/
theorem toDigits_ne_cons {c : Char} (hc : c.isDigit = false) (n : ℕ) (cs : List Char) :
    Nat.toDigits 10 n ≠ c :: cs := by
  intro h
  have hdigit := Nat.isDigit_of_mem_toDigits (b := 10) (n := n) (by decide) (by decide) (h ▸ mem_cons_self)
  rw [hc] at hdigit
  cases hdigit

theorem decimal_injective : Injective decimal := by
  intro a b h
  cases a with
  | posInt n =>
    cases b with
    | posInt m => rw [UInt64.toNat_inj.1 (toDigits_injective h)]
    | negInt m =>
      refine absurd h (toDigits_ne_cons ?_ _ _)
      split_ifs <;> rfl
    | float y => exact absurd h (toDigits_ne_cons rfl _ _)
  | negInt n =>
    cases b with
    | posInt m =>
      refine absurd h.symm (toDigits_ne_cons ?_ _ _)
      split_ifs <;> rfl
    | negInt m =>
      obtain ⟨hsign, hdigits⟩ := cons.inj h
      have habs := toDigits_injective hdigits
      have hint : n.toInt = m.toInt := by
        split_ifs at hsign <;> first | omega | exact absurd hsign (by decide)
      rw [Int64.toInt_inj.1 hint]
    | float y =>
      have hsign := (cons.inj h).1
      split_ifs at hsign <;> exact absurd hsign (by decide)
  | float x =>
    cases b with
    | posInt m => exact absurd h.symm (toDigits_ne_cons rfl _ _)
    | negInt m =>
      have hsign := (cons.inj h).1
      split_ifs at hsign <;> exact absurd hsign (by decide)
    | float y =>
      obtain ⟨-, hdigits⟩ := cons.inj h
      have hbits := UInt64.toNat_inj.1 (toDigits_injective hdigits)
      cases x
      cases y
      cases hbits
      rfl

def decimalText : NumberText where
  print := decimal
  injective := decimal_injective
  ne_nil n := by
    cases n
    · exact Nat.toDigits_ne_nil
    all_goals exact cons_ne_nil _ _
  chars n c hc := by
    have hdigit : ∀ {n}, c ∈ Nat.toDigits 10 n → c ∈ numberChars := by
      intro n hn
      have hall : ∀ k < 10, Char.ofNat (48 + k) ∈ numberChars := by decide
      have hc := Nat.isDigit_of_mem_toDigits (by decide) (by decide) hn
      rw [Char.isDigit, Bool.and_eq_true, decide_eq_true_iff, decide_eq_true_iff, ge_iff_le, UInt32.le_iff_toNat_le,
        UInt32.le_iff_toNat_le] at hc
      have hback := hall (c.toNat - 48) (by
        have hle : c.toNat ≤ 57 := hc.2
        omega)
      have hnat : 48 + (c.toNat - 48) = c.toNat := by
        have hle : 48 ≤ c.toNat := hc.1
        omega
      rwa [hnat, Char.ofNat_toNat] at hback
    cases n with
    | posInt n => exact hdigit hc
    | negInt n =>
      rcases mem_cons.1 hc with rfl | hc
      · split_ifs <;> decide
      · exact hdigit hc
    | float x =>
      rcases mem_cons.1 hc with rfl | hc
      · decide
      · exact hdigit hc

def sampleBody : Bytes := utf8 "\x7b \"b\": 1, \"a\": [2] \x7d"

def sampleBody' : Bytes := utf8 "\x7b\"a\":[2],\"b\":1\x7d"

def sampleValue : Value := .object [("b", .number (.posInt 1)), ("a", .array [.number (.posInt 2)])]

def sampleValue' : Value := .object [("a", .array [.number (.posInt 2)]), ("b", .number (.posInt 1))]

def sampleSlice (raw : Bytes) : Option Value :=
  if raw = sampleBody then some sampleValue else if raw = sampleBody' then some sampleValue' else none

/-- The digest of the canonical body, and texts of another length for all others. -/
def sampleSha (bs : Bytes) : Bytes :=
  if bs = sampleBody' then
    [0x63, 0xC9, 0x66, 0x3D, 0xE9, 0x0E, 0xE8, 0x28, 0xBB, 0xDA, 0x6C, 0xD9, 0xAC, 0xF0, 0x2D, 0x0C,
      0x65, 0x39, 0x86, 0xC1, 0xEC, 0x25, 0xAA, 0x23, 0x99, 0x20, 0x64, 0x1E, 0xDC, 0x9A, 0x1D, 0xE5]
  else List.replicate 33 0 ++ bs

theorem sampleSha_injective : Injective sampleSha := by
  intro bs bs' h
  unfold sampleSha at h
  split_ifs at h with hbs hbs'
  · rw [hbs, hbs']
  · exact absurd (congrArg List.length h) (by simp)
  · exact absurd (congrArg List.length h) (by simp)
  · exact append_cancel_left h

theorem keyed_sampleSlice {raw : Bytes} {value : Value} (h : sampleSlice raw = some value) : value.Keyed := by
  unfold sampleSlice at h
  split_ifs at h
  · rw [← Option.some.inj h]
    simp [sampleValue, Value.Keyed, Value.KeyedMembers, Value.KeyedItems]
  · rw [← Option.some.inj h]
    simp [sampleValue', Value.Keyed, Value.KeyedMembers, Value.KeyedItems]

theorem same_sampleValue : sampleValue.Same sampleValue' := by
  refine ⟨rfl, ⟨.number (.posInt 1), ?_, rfl⟩, ⟨.array [.number (.posInt 2)], ?_, rfl, trivial⟩, trivial⟩
  · exact mem_cons_of_mem _ mem_cons_self
  · exact mem_cons_self

theorem sampleBody_small : sampleBody.length ≤ MAX_CREATE_BODY_BYTES ∧ sampleBody'.length ≤ MAX_CREATE_BODY_BYTES := by
  decide +kernel

end WildAgentOs.Invocations
