import WildAgentOs.Memory.L0Store
import WildAgentOs.Lib.LruCache

/-!
# Framing

`jsonld/framing.rs`: a node is cut down to what a frame asks for.

* `embedNode`: a value under a directive;
* `applyFrame`, `Lies`;
* `Trims`: what is left out;
* `framesProperly`.
-/

namespace WildAgentOs.Jsonld

open Json Memory.L0Store List

inductive EmbedDirective
  | always
  | link
  | never
  deriving DecidableEq

structure FrameTemplate where
  context : Value
  embedRules : String → Option EmbedDirective
  includeProperties : List String
  maxDepth : Option ℕ

/-- `get_embed_directive`. -/
def FrameTemplate.embedDirective (frame : FrameTemplate) (property : String) : EmbedDirective :=
  (frame.embedRules property).getD .always

/-! ### One value -/

/-- The keys whose values are not nodes. -/
def isKeyword (key : String) : Bool := key = "@id" ∨ key = "@type" ∨ key = "@context"

/-- An object with an identifier only. -/
def linkTo (id : Value) : Value := .object [("@id", id)]

/-- An object, or the link to it. -/
def collapse (members : List (String × Value)) : Value :=
  match members.lookup "@id" with
  | some id => linkTo id
  | none => .object members

/-- An item of an array that is linked: an object without an identifier is dropped. -/
def linkItem : Value → Option Value
  | .object members => (members.lookup "@id").map linkTo
  | item => some item

def hasNestedStructure (members : List (String × Value)) : Bool :=
  members.any fun member =>
    match member.2 with
    | .object _ => true
    | .array items => !items.isEmpty
    | _ => false

def linkMember (member : String × Value) : String × Value :=
  if isKeyword member.1 then member
  else match member.2 with
    | .object nested => (member.1, collapse nested)
    | .array items => (member.1, .array (items.filterMap linkItem))
    | value => (member.1, value)

def linkNode : Value → Value
  | .object members =>
    if hasNestedStructure members then .object (members.map linkMember)
    else match members.lookup "@id" with
      | some id => linkTo id
      | none => .object (members.map linkMember)
  | .array items => .array (items.filterMap linkItem)
  | node => node

mutual
def embedAlways (maxDepth : ℕ) : ℕ → Value → Value
  | depth, .object members =>
    if maxDepth ≤ depth then collapse members else .object (embedMembers maxDepth (depth + 1) members)
  | depth, .array items => if maxDepth ≤ depth then .array items else .array (embedItems maxDepth depth items)
  | _, node => node

def embedItems (maxDepth : ℕ) : ℕ → List Value → List Value
  | _, [] => []
  | depth, item :: items => embedAlways maxDepth depth item :: embedItems maxDepth depth items

def embedMembers (maxDepth : ℕ) : ℕ → List (String × Value) → List (String × Value)
  | _, [] => []
  | depth, (key, value) :: members =>
    let node := embedAlways maxDepth depth value
    (key, if isKeyword key then value
      else match value with
        | .object _ => node
        | .array items => .array (embedItems maxDepth depth items)
        | _ => value) :: embedMembers maxDepth depth members
end

def embedNode (node : Value) (directive : EmbedDirective) (maxDepth currentDepth : ℕ) : Value :=
  match directive with
  | .never =>
    match node with
    | .object members => collapse members
    | _ => node
  | .link => linkNode node
  | .always => embedAlways maxDepth currentDepth node

/-! ### A node -/

namespace FrameTemplate

variable (frame : FrameTemplate)

/-- The properties that are framed. -/
def properties (obj : List (String × Value)) : List (String × Value) :=
  if frame.includeProperties = [] then obj.filter fun member => ¬"@".toList <+: member.1.toList
  else frame.includeProperties.filterMap fun prop => (obj.lookup prop).map fun value => (prop, value)

/-- A property with its value under its directive. -/
def framed (property : String × Value) : String × Value :=
  (property.1, embedNode property.2 (frame.embedDirective property.1) (frame.maxDepth.getD (2 ^ 64 - 1)) 0)

/-- The members that do not depend on properties. -/
def head (obj : List (String × Value)) : List (String × Value) :=
  ((obj.lookup "@id").map fun id => ("@id", id)).toList ++
    ((obj.lookup "@type").map fun nodeType => ("@type", nodeType)).toList ++
    match frame.context with
    | .null => []
    | context => [("@context", context)]

end FrameTemplate

def applyFrame (node : Value) (frame : FrameTemplate) : Value :=
  match node with
  | .object obj => .object (((frame.properties obj).map frame.framed).foldl insertMember (frame.head obj))
  | _ => node

/-! ### What keeps only its identifier -/

/-- An object with an identifier has no other member. -/
def KeepsOnlyId (v : Value) : Prop := (v.get "@id").isSome → ∃ id, v = linkTo id

theorem keepsOnlyId_of_get {v : Value} (h : v.get "@id" = none) : KeepsOnlyId v := by
  intro hsome
  rw [h] at hsome
  exact absurd hsome Bool.false_ne_true

theorem keepsOnlyId_collapse (members : List (String × Value)) : KeepsOnlyId (collapse members) := by
  unfold collapse
  cases hid : members.lookup "@id" with
  | some id => exact fun _ => ⟨id, rfl⟩
  | none => exact keepsOnlyId_of_get hid

theorem keepsOnlyId_of_linkItem {item item' : Value} (h : linkItem item = some item') : KeepsOnlyId item' := by
  cases item with
  | object members =>
    obtain ⟨id, -, rfl⟩ := Option.map_eq_some_iff.1 h
    exact fun _ => ⟨id, rfl⟩
  | null | bool | number | string | array =>
    cases h
    exact keepsOnlyId_of_get rfl

/-- What is linked within a value: its items and its members, and the items of these. -/
structure LinkedWithin (out : Value) : Prop where
  items : ∀ items, out = .array items → ∀ item ∈ items, KeepsOnlyId item
  members : ∀ members, out = .object members → ∀ member ∈ members, isKeyword member.1 = false →
    KeepsOnlyId member.2 ∧ ∀ items, member.2 = .array items → ∀ item ∈ items, KeepsOnlyId item

theorem keepsOnlyId_of_mem_linked {items : List Value} {item : Value} (h : item ∈ items.filterMap linkItem) :
    KeepsOnlyId item := by
  obtain ⟨item', -, hitem⟩ := mem_filterMap.1 h
  exact keepsOnlyId_of_linkItem hitem

theorem linkedWithin_linkTo (id : Value) : LinkedWithin (linkTo id) where
  items _ h := nomatch h
  members members h member hmember hkey := by
    obtain rfl := Value.object.inj h
    rw [mem_singleton.1 hmember] at hkey
    exact absurd hkey (by decide : isKeyword "@id" ≠ false)

theorem linkedWithin_map (members : List (String × Value)) : LinkedWithin (.object (members.map linkMember)) where
  items _ h := nomatch h
  members members' h member' hmember' hkey := by
    obtain rfl := Value.object.inj h
    obtain ⟨⟨key, value⟩, -, rfl⟩ := mem_map.1 hmember'
    unfold linkMember at hkey ⊢
    by_cases hkeyword : isKeyword key
    · rw [if_pos hkeyword] at hkey
      exact absurd hkeyword (Bool.eq_false_iff.1 hkey)
    · rw [if_neg hkeyword]
      cases value with
      | object nested =>
        refine ⟨keepsOnlyId_collapse nested, fun items hitems => ?_⟩
        simp only [collapse] at hitems
        split at hitems <;> cases hitems
      | array items =>
        refine ⟨keepsOnlyId_of_get rfl, fun items' hitems item hitem => ?_⟩
        rw [← Value.array.inj hitems] at hitem
        exact keepsOnlyId_of_mem_linked hitem
      | null | bool | number | string => exact ⟨keepsOnlyId_of_get rfl, fun _ h => nomatch h⟩

theorem linkedWithin_linkNode (node : Value) : LinkedWithin (linkNode node) := by
  cases node with
  | object members =>
    simp only [linkNode]
    split_ifs
    · exact linkedWithin_map members
    · cases members.lookup "@id" with
      | some id => exact linkedWithin_linkTo id
      | none => exact linkedWithin_map members
  | array items =>
    refine ⟨fun items' h item hitem => ?_, fun _ h => nomatch h⟩
    rw [← Value.array.inj h] at hitem
    exact keepsOnlyId_of_mem_linked hitem
  | null | bool | number | string => exact ⟨fun _ h => (nomatch h), fun _ h => (nomatch h)⟩

/-- A value that is an object without nested structure is linked itself. -/
theorem keepsOnlyId_linkNode {node : Value}
    (h : ∀ members, node = .object members → hasNestedStructure members = false) : KeepsOnlyId (linkNode node) := by
  cases node with
  | object members =>
    simp only [linkNode, h members rfl, Bool.false_eq_true, if_false]
    cases hid : members.lookup "@id" with
    | some id => exact fun _ => ⟨id, rfl⟩
    | none =>
      have hkeys : ∀ member, (linkMember member).1 = member.1 := by
        intro member
        unfold linkMember
        split_ifs
        · rfl
        · split <;> rfl
      refine keepsOnlyId_of_get ?_
      show (members.map linkMember).lookup "@id" = none
      rw [lookup_eq_none_iff] at hid ⊢
      intro member' hmember'
      obtain ⟨member, hmember, rfl⟩ := mem_map.1 hmember'
      rw [hkeys]
      exact hid member hmember
  | null | bool | number | string | array => exact keepsOnlyId_of_get rfl

/-! ### Depth -/

/-- A value lies under so many objects, counted on from a depth, and in nothing that was copied: an array that is no
member, or an object, that lies at the limit already. -/
inductive Lies (maxDepth depth : ℕ) (v : Value) : ℕ → Value → Prop
  | self : Lies maxDepth depth v depth v
  | item {n : ℕ} {items : List Value} {item : Value} (h : Lies maxDepth depth v n (.array items))
      (hlimit : n < maxDepth) (hitem : item ∈ items) : Lies maxDepth depth v n item
  | member {n : ℕ} {members : List (String × Value)} {member : String × Value}
      (h : Lies maxDepth depth v n (.object members)) (hlimit : n < maxDepth) (hmember : member ∈ members)
      (hkey : isKeyword member.1 = false) : Lies maxDepth depth v (n + 1) member.2
  | memberItem {n : ℕ} {members : List (String × Value)} {key : String} {items : List Value} {item : Value}
      (h : Lies maxDepth depth v n (.object members)) (hlimit : n < maxDepth) (hmember : (key, .array items) ∈ members)
      (hkey : isKeyword key = false) (hitem : item ∈ items) : Lies maxDepth depth v (n + 1) item

/-- A member at the depth of what it holds. -/
def embedMember (maxDepth depth : ℕ) (member : String × Value) : String × Value :=
  if isKeyword member.1 then member
  else match member.2 with
    | .object nested => (member.1, embedAlways maxDepth depth (.object nested))
    | .array items => (member.1, .array (items.map (embedAlways maxDepth depth)))
    | value => (member.1, value)

theorem embedItems_eq (maxDepth depth : ℕ) (items : List Value) :
    embedItems maxDepth depth items = items.map (embedAlways maxDepth depth) := by
  induction items with
  | nil => simp only [embedItems, map_nil]
  | cons item items ih => rw [embedItems, ih, map_cons]

theorem embedMembers_eq (maxDepth depth : ℕ) (members : List (String × Value)) :
    embedMembers maxDepth depth members = members.map (embedMember maxDepth depth) := by
  induction members with
  | nil => simp only [embedMembers, map_nil]
  | cons member members ih =>
    obtain ⟨key, value⟩ := member
    rw [map_cons, ← ih]
    cases value <;> by_cases hkey : isKeyword key <;> simp [embedMembers, embedMember, hkey, embedItems_eq]

/-- What lies in an embedded value is embedded, or an array of embedded items. -/
def Embedded (maxDepth n : ℕ) (w : Value) : Prop :=
  (∃ v, w = embedAlways maxDepth n v) ∨ ∃ items : List Value, w = .array (items.map (embedAlways maxDepth n))

theorem exists_of_mem_items {maxDepth n : ℕ} {items : List Value} (h : Embedded maxDepth n (.array items))
    (hlimit : n < maxDepth) {item : Value} (hitem : item ∈ items) : ∃ v, item = embedAlways maxDepth n v := by
  obtain ⟨items', rfl⟩ : ∃ items' : List Value, items = items'.map (embedAlways maxDepth n) := by
    rcases h with ⟨v, hv⟩ | ⟨items', hitems⟩
    · cases v with
      | array items' =>
        simp only [embedAlways, Nat.not_le.2 hlimit, if_false, embedItems_eq] at hv
        exact ⟨items', Value.array.inj hv⟩
      | object members => simp [embedAlways, Nat.not_le.2 hlimit] at hv
      | null | bool | number | string => simp [embedAlways] at hv
    · exact ⟨items', Value.array.inj hitems⟩
  obtain ⟨v, -, rfl⟩ := mem_map.1 hitem
  exact ⟨v, rfl⟩

theorem exists_of_mem_members {maxDepth n : ℕ} {members : List (String × Value)}
    (h : Embedded maxDepth n (.object members)) (hlimit : n < maxDepth) {member : String × Value}
    (hmember : member ∈ members) : ∃ member', member = embedMember maxDepth (n + 1) member' := by
  obtain ⟨members', rfl⟩ : ∃ members' : List (String × Value), members = members'.map (embedMember maxDepth (n + 1)) := by
    rcases h with ⟨v, hv⟩ | ⟨items, hitems⟩
    · cases v with
      | object members' =>
        simp only [embedAlways, Nat.not_le.2 hlimit, if_false, embedMembers_eq] at hv
        exact ⟨members', Value.object.inj hv⟩
      | array items => simp [embedAlways, Nat.not_le.2 hlimit] at hv
      | null | bool | number | string => simp [embedAlways] at hv
    · cases hitems
  obtain ⟨member', -, rfl⟩ := mem_map.1 hmember
  exact ⟨member', rfl⟩

/-- A member that is no keyword is embedded. -/
theorem embedded_member {maxDepth depth : ℕ} {member : String × Value}
    (hkey : isKeyword (embedMember maxDepth depth member).1 = false) :
    Embedded maxDepth depth (embedMember maxDepth depth member).2 := by
  obtain ⟨key, value⟩ := member
  unfold embedMember at hkey ⊢
  by_cases hkeyword : isKeyword key
  · rw [if_pos hkeyword] at hkey
    exact absurd hkeyword (Bool.eq_false_iff.1 hkey)
  · rw [if_neg hkeyword]
    cases value with
    | object nested => exact Or.inl ⟨_, rfl⟩
    | array items => exact Or.inr ⟨items, rfl⟩
    | null => exact Or.inl ⟨.null, by simp [embedAlways]⟩
    | bool b => exact Or.inl ⟨.bool b, by simp [embedAlways]⟩
    | number x => exact Or.inl ⟨.number x, by simp [embedAlways]⟩
    | string text => exact Or.inl ⟨.string text, by simp [embedAlways]⟩

/-- The items of a member are embedded, also at the limit. -/
theorem exists_of_mem_member {maxDepth depth : ℕ} {member : String × Value} {key : String} {items : List Value}
    (h : (key, .array items) = embedMember maxDepth depth member) (hkey : isKeyword key = false) {item : Value}
    (hitem : item ∈ items) : ∃ v, item = embedAlways maxDepth depth v := by
  obtain ⟨key', value⟩ := member
  unfold embedMember at h
  by_cases hkeyword : isKeyword key'
  · rw [if_pos hkeyword] at h
    rw [(Prod.mk.inj h).1] at hkey
    exact absurd hkeyword (Bool.eq_false_iff.1 hkey)
  · rw [if_neg hkeyword] at h
    cases value with
    | array items' =>
      rw [Value.array.inj (Prod.mk.inj h).2] at hitem
      obtain ⟨v, -, rfl⟩ := mem_map.1 hitem
      exact ⟨v, rfl⟩
    | object nested =>
      have hvalue := (Prod.mk.inj h).2
      simp only [embedAlways, collapse] at hvalue
      split_ifs at hvalue
      split at hvalue <;> cases hvalue
    | null | bool | number | string => cases (Prod.mk.inj h).2

theorem Lies.embedded {maxDepth depth : ℕ} {v w : Value} {n : ℕ}
    (h : Lies maxDepth depth (embedAlways maxDepth depth v) n w) : Embedded maxDepth n w := by
  induction h with
  | self => exact Or.inl ⟨v, rfl⟩
  | item _ hlimit hitem ih => exact Or.inl (exists_of_mem_items ih hlimit hitem)
  | member _ hlimit hmember hkey ih =>
    obtain ⟨member, rfl⟩ := exists_of_mem_members ih hlimit hmember
    exact embedded_member hkey
  | memberItem _ hlimit hmember hkey hitem ih =>
    obtain ⟨member, hmember'⟩ := exists_of_mem_members ih hlimit hmember
    exact Or.inl (exists_of_mem_member hmember' hkey hitem)

/-- **At the limit only identifiers are kept.** -/
theorem keepsOnlyId_of_lies {maxDepth depth : ℕ} {v w : Value} {n : ℕ}
    (h : Lies maxDepth depth (embedAlways maxDepth depth v) n w) (hdepth : maxDepth ≤ n) : KeepsOnlyId w := by
  rcases h.embedded with ⟨u, rfl⟩ | ⟨items, rfl⟩
  · cases u with
    | object members =>
      simp only [embedAlways, hdepth, if_true]
      exact keepsOnlyId_collapse members
    | array items =>
      simp only [embedAlways, hdepth, if_true]
      exact keepsOnlyId_of_get rfl
    | null | bool | number | string =>
      simp only [embedAlways]
      exact keepsOnlyId_of_get rfl
  · exact keepsOnlyId_of_get rfl

/-! ### What is left out -/

mutual
/-- A value with less in it: objects with identifiers are linked, and if `drops`, objects without are dropped from
arrays. -/
inductive Trims (drops : Prop) : Value → Value → Prop
  | same (v : Value) : Trims drops v v
  | link {members : List (String × Value)} {id : Value} (h : members.lookup "@id" = some id) :
      Trims drops (.object members) (linkTo id)
  | array {items items' : List Value} (h : TrimsItems drops items items') : Trims drops (.array items) (.array items')
  | object {members members' : List (String × Value)} (h : TrimsMembers drops members members') :
      Trims drops (.object members) (.object members')

inductive TrimsItems (drops : Prop) : List Value → List Value → Prop
  | nil : TrimsItems drops [] []
  | keep {item item' : Value} {items items' : List Value} (h : Trims drops item item')
      (rest : TrimsItems drops items items') : TrimsItems drops (item :: items) (item' :: items')
  | drop {members : List (String × Value)} {items items' : List Value} (hdrops : drops)
      (hid : members.lookup "@id" = none) (rest : TrimsItems drops items items') :
      TrimsItems drops (.object members :: items) items'

inductive TrimsMembers (drops : Prop) : List (String × Value) → List (String × Value) → Prop
  | nil : TrimsMembers drops [] []
  | keep {key : String} {value value' : Value} {members members' : List (String × Value)}
      (h : Trims drops value value') (rest : TrimsMembers drops members members') :
      TrimsMembers drops ((key, value) :: members) ((key, value') :: members')
end

theorem trims_collapse (drops : Prop) (members : List (String × Value)) :
    Trims drops (.object members) (collapse members) := by
  unfold collapse
  cases hid : members.lookup "@id" with
  | some id => exact .link hid
  | none => exact .same _

theorem trimsItems_link (items : List Value) : TrimsItems True items (items.filterMap linkItem) := by
  induction items with
  | nil => exact .nil
  | cons item items ih =>
    cases hitem : linkItem item with
    | none =>
      rw [filterMap_cons_none hitem]
      cases item with
      | object members => exact .drop trivial (Option.map_eq_none_iff.1 hitem) ih
      | null | bool | number | string | array => cases hitem
    | some item' =>
      rw [filterMap_cons_some hitem]
      refine .keep ?_ ih
      cases item with
      | object members =>
        obtain ⟨id, hid, rfl⟩ := Option.map_eq_some_iff.1 hitem
        exact .link hid
      | null | bool | number | string | array =>
        cases hitem
        exact .same _

theorem trimsMembers_link (members : List (String × Value)) : TrimsMembers True members (members.map linkMember) := by
  induction members with
  | nil => exact .nil
  | cons member members ih =>
    obtain ⟨key, value⟩ := member
    rw [map_cons]
    unfold linkMember
    by_cases hkey : isKeyword key
    · rw [if_pos hkey]
      exact .keep (.same value) ih
    · rw [if_neg hkey]
      cases value with
      | object nested => exact .keep (trims_collapse True nested) ih
      | array items => exact .keep (.array (trimsItems_link items)) ih
      | null | bool | number | string => exact .keep (.same _) ih

theorem trims_linkNode (node : Value) : Trims True node (linkNode node) := by
  cases node with
  | object members =>
    simp only [linkNode]
    split_ifs
    · exact .object (trimsMembers_link members)
    · cases hid : members.lookup "@id" with
      | some id => exact .link hid
      | none => exact .object (trimsMembers_link members)
  | array items => exact .array (trimsItems_link items)
  | null | bool | number | string => exact .same _

mutual
theorem trims_embedAlways (maxDepth depth : ℕ) : ∀ node : Value, Trims False node (embedAlways maxDepth depth node)
  | .object members => by
    simp only [embedAlways]
    split_ifs
    · exact trims_collapse False members
    · exact .object (trims_embedMembers maxDepth (depth + 1) members)
  | .array items => by
    simp only [embedAlways]
    split_ifs
    · exact .same _
    · exact .array (trims_embedItems maxDepth depth items)
  | .null | .bool _ | .number _ | .string _ => by
    simp only [embedAlways]
    exact .same _

theorem trims_embedItems (maxDepth depth : ℕ) : ∀ items : List Value,
    TrimsItems False items (embedItems maxDepth depth items)
  | [] => by
    simp only [embedItems]
    exact .nil
  | item :: items => by
    rw [embedItems]
    exact .keep (trims_embedAlways maxDepth depth item) (trims_embedItems maxDepth depth items)

theorem trims_embedMembers (maxDepth depth : ℕ) : ∀ members : List (String × Value),
    TrimsMembers False members (embedMembers maxDepth depth members)
  | [] => by
    simp only [embedMembers]
    exact .nil
  | (key, .object nested) :: members => by
    rw [embedMembers]
    refine .keep ?_ (trims_embedMembers maxDepth depth members)
    split_ifs
    · exact .same _
    · exact trims_embedAlways maxDepth depth (.object nested)
  | (key, .array items) :: members => by
    rw [embedMembers]
    refine .keep ?_ (trims_embedMembers maxDepth depth members)
    split_ifs
    · exact .same _
    · exact .array (trims_embedItems maxDepth depth items)
  | (key, .null) :: members | (key, .bool _) :: members | (key, .number _) :: members
  | (key, .string _) :: members => by
    simp only [embedMembers, ite_self]
    exact .keep (.same _) (trims_embedMembers maxDepth depth members)
end

/-! ### A frame -/

/-- What a directive promises of a value and what is made of it. -/
def Framed (directive : EmbedDirective) (maxDepth : ℕ) (value out : Value) : Prop :=
  match directive with
  | .never => KeepsOnlyId out ∧ Trims False value out
  | .link =>
    ((∀ members, value = .object members → hasNestedStructure members = false) → KeepsOnlyId out) ∧
      LinkedWithin out ∧ Trims True value out
  | .always => (∀ n w, Lies maxDepth 0 out n w → maxDepth ≤ n → KeepsOnlyId w) ∧ Trims False value out

theorem framed_embedNode (value : Value) (directive : EmbedDirective) (maxDepth : ℕ) :
    Framed directive maxDepth value (embedNode value directive maxDepth 0) := by
  cases directive with
  | always => exact ⟨fun _ _ h hdepth => keepsOnlyId_of_lies h hdepth, trims_embedAlways maxDepth 0 value⟩
  | link => exact ⟨keepsOnlyId_linkNode, linkedWithin_linkNode value, trims_linkNode value⟩
  | never =>
    cases value with
    | object members => exact ⟨keepsOnlyId_collapse members, trims_collapse False members⟩
    | null | bool | number | string | array => exact ⟨keepsOnlyId_of_get rfl, .same _⟩

/-- The last value that is inserted under a key. -/
theorem lookup_foldl_insertMember {key : String} {inserted : List (String × Value)}
    (h : key ∈ inserted.map Prod.fst) (members : List (String × Value)) :
    ∃ value, (key, value) ∈ inserted ∧ (inserted.foldl insertMember members).lookup key = some value := by
  induction inserted using reverseRecOn with
  | nil => exact absurd h not_mem_nil
  | append_singleton inserted last ih =>
    obtain ⟨key', value'⟩ := last
    rw [foldl_append, foldl_cons, foldl_nil]
    unfold insertMember
    by_cases hkey : key = key'
    · subst hkey
      exact ⟨value', by simp, by simp⟩
    · have hin : key ∈ inserted.map Prod.fst := by simpa [hkey] using h
      obtain ⟨value, hvalue, hlookup⟩ := ih hin
      refine ⟨value, mem_append_left _ hvalue, ?_⟩
      rw [lookup_cons, beq_eq_false_iff_ne.2 hkey]
      exact (LruCache.lookup_filter_ne _).trans ((if_neg hkey).trans hlookup)

/-- Each property of a frame is in the result, as its directive promises. -/
def FramesProperly (node : Value) (frame : FrameTemplate) : Prop :=
  ∀ obj, node = .object obj → ∀ key ∈ (frame.properties obj).map Prod.fst, ∃ value out,
    (key, value) ∈ frame.properties obj ∧ (applyFrame node frame).get key = some out ∧
      Framed (frame.embedDirective key) (frame.maxDepth.getD (2 ^ 64 - 1)) value out

end WildAgentOs.Jsonld
