import Mathlib.Tactic

/-!
# Shared references

`tools/sharing.rs`: the shares between agents, their index by agent, and the lookups that revoke what has
expired.  The identifiers of new shares, the clock and the order in which the maps are walked are given with
each call; the audit log, which is only told, is left out.

* `SharingProtocol`, `Call`, `step`, `run`, `Indexed`, `Grant`, `grants`, `Tracks`, `exact_iff`.
-/

namespace WildAgentOs.Sharing

open List Function

inductive ShareType
  | fullAccess
  | projection
  | referenceOnly
  | summary
  deriving DecidableEq

inductive Permission
  | read
  | write
  | admin
  deriving DecidableEq

def Permission.allowsRead : Permission → Bool
  | read | write | admin => true

structure SharedReference where
  shareId : String
  sourceAgentIri : String
  targetAgentIri : String
  nodeIri : String
  shareType : ShareType
  permission : Permission
  expiresAt : Option UInt64
  projectionFrame : Option String
  deriving DecidableEq

/-- `now + ttl_seconds`: a sum that does not fit panics where overflows are checked, and wraps elsewhere. -/
def addSeconds (checks : Bool) (now ttl : UInt64) : Option UInt64 :=
  if checks = true ∧ 2 ^ 64 ≤ now.toNat + ttl.toNat then none else some (now + ttl)

namespace SharedReference

def withTtl (checks : Bool) (now ttl : UInt64) (ref : SharedReference) : Option SharedReference :=
  (addSeconds checks now ttl).map fun expiresAt => { ref with expiresAt := some expiresAt }

def isExpired (now : UInt64) (ref : SharedReference) : Bool :=
  ref.expiresAt.any fun expiresAt => decide (expiresAt < now)

end SharedReference

/-- The shares by their identifiers, and the identifiers by agent. -/
structure SharingProtocol where
  activeShares : List SharedReference
  shareIndex : String → List String

/-- The order in which a map of shares and a set of identifiers are walked. -/
structure MapOrder where
  shares : List SharedReference → List SharedReference
  ids : List String → List String
  shares_perm : ∀ l, (shares l).Perm l
  ids_perm : ∀ l, (ids l).Perm l

/-- What `create_share` is given; each node comes with the identifier that its share gets. -/
structure ShareArgs where
  sourceAgentIri : String
  targetAgentIri : String
  nodeIris : List (String × String)
  shareType : ShareType
  permission : Permission
  ttlSeconds : Option UInt64
  projectionFrame : Option String
  deriving DecidableEq

/-- `SharedReference::new` with the projection frame. -/
def ShareArgs.reference (args : ShareArgs) (node : String × String) : SharedReference where
  shareId := node.2
  sourceAgentIri := args.sourceAgentIri
  targetAgentIri := args.targetAgentIri
  nodeIri := node.1
  shareType := args.shareType
  permission := args.permission
  expiresAt := none
  projectionFrame := args.projectionFrame

namespace SharingProtocol

def new : SharingProtocol := ⟨[], fun _ => []⟩

/-- The share in the map and its identifier in the index. -/
def insertShare (ref : SharedReference) (p : SharingProtocol) : SharingProtocol where
  activeShares := p.activeShares.filter (fun old => old.shareId ≠ ref.shareId) ++ [ref]
  shareIndex := update p.shareIndex ref.targetAgentIri
    ((p.shareIndex ref.targetAgentIri).insert ref.shareId)

/-- The loop of `create_share`; what it has inserted before a panic stays. -/
def createFrom (checks : Bool) (now : UInt64) (args : ShareArgs) :
    List (String × String) → SharingProtocol → SharingProtocol × Option (List SharedReference)
  | [], p => (p, some [])
  | node :: nodes, p =>
    let made :=
      match args.ttlSeconds with
      | some ttl => (args.reference node).withTtl checks now ttl
      | none => some (args.reference node)
    match made with
    | none => (p, none)
    | some ref =>
      let (p', references) := createFrom checks now args nodes (p.insertShare ref)
      (p', references.map (ref :: ·))

def createShare (checks : Bool) (now : UInt64) (args : ShareArgs) (p : SharingProtocol) :
    SharingProtocol × Option (List SharedReference) :=
  createFrom checks now args args.nodeIris p

def revokeShare (shareId : String) (p : SharingProtocol) : SharingProtocol × Bool :=
  match p.activeShares.find? fun ref => ref.shareId = shareId with
  | none => (p, false)
  | some ref =>
    ({ activeShares := p.activeShares.filter fun ref => ref.shareId ≠ shareId
       shareIndex := update p.shareIndex ref.targetAgentIri
         ((p.shareIndex ref.targetAgentIri).erase shareId) }, true)

/-- The shares of a list of identifiers are revoked, and counted. -/
def revokeAll : List String → SharingProtocol → SharingProtocol × ℕ
  | [], p => (p, 0)
  | shareId :: rest, p =>
    let (p', revoked) := p.revokeShare shareId
    let (p'', count) := revokeAll rest p'
    (p'', if revoked then count + 1 else count)

def resolveIri (now : UInt64) (order : MapOrder) (iri agentIri : String) (p : SharingProtocol) :
    SharingProtocol × Option SharedReference :=
  match (order.shares p.activeShares).find? fun ref => ref.nodeIri = iri ∧ ref.targetAgentIri = agentIri with
  | none => (p, none)
  | some ref =>
    if ref.isExpired now then ((p.revokeShare ref.shareId).1, none)
    else if !ref.permission.allowsRead then (p, none)
    else (p, some ref)

def revokeAllForNode (order : MapOrder) (nodeIri : String) (p : SharingProtocol) : SharingProtocol × ℕ :=
  p.revokeAll (((order.shares p.activeShares).filter fun ref => ref.nodeIri = nodeIri).map (·.shareId))

def cleanupExpired (now : UInt64) (order : MapOrder) (p : SharingProtocol) : SharingProtocol × ℕ :=
  p.revokeAll (((order.shares p.activeShares).filter fun ref => ref.isExpired now).map (·.shareId))

def getSharesForAgent (now : UInt64) (order : MapOrder) (agentIri : String) (p : SharingProtocol) :
    SharingProtocol × List SharedReference :=
  let p' := (p.cleanupExpired now order).1
  (p', (order.ids (p'.shareIndex agentIri)).filterMap fun id => p'.activeShares.find? fun ref => ref.shareId = id)

end SharingProtocol

/-! ### Calls -/

inductive Request
  | createShare (args : ShareArgs)
  | resolveIri (iri agentIri : String)
  | getSharesForAgent (agentIri : String)
  | revokeShare (shareId : String)
  | revokeAllForNode (nodeIri : String)
  | cleanupExpired

structure Call where
  now : UInt64
  order : MapOrder
  request : Request

/-- The protocol after a call. -/
def step (checks : Bool) (p : SharingProtocol) (call : Call) : SharingProtocol :=
  match call.request with
  | .createShare args => (p.createShare checks call.now args).1
  | .resolveIri iri agentIri => (p.resolveIri call.now call.order iri agentIri).1
  | .getSharesForAgent agentIri => (p.getSharesForAgent call.now call.order agentIri).1
  | .revokeShare shareId => (p.revokeShare shareId).1
  | .revokeAllForNode nodeIri => (p.revokeAllForNode call.order nodeIri).1
  | .cleanupExpired => (p.cleanupExpired call.now call.order).1

def run (checks : Bool) (calls : List Call) : SharingProtocol := calls.foldl (step checks) .new

theorem run_append_singleton (checks : Bool) (calls : List Call) (call : Call) :
    run checks (calls ++ [call]) = step checks (run checks calls) call := by
  unfold run
  rw [foldl_append, foldl_cons, foldl_nil]

/-! ### The index lists exactly the active shares -/

/-- The index lists, under each agent, the identifiers of its active shares. -/
structure Indexed (p : SharingProtocol) : Prop where
  nodup : (p.activeShares.map (·.shareId)).Nodup
  ids_nodup : ∀ agentIri, (p.shareIndex agentIri).Nodup
  mem_iff : ∀ agentIri id, id ∈ p.shareIndex agentIri ↔
    ∃ ref ∈ p.activeShares, ref.shareId = id ∧ ref.targetAgentIri = agentIri

namespace SharingProtocol

variable {p : SharingProtocol}

theorem activeShares_revokeShare (id : String) :
    (p.revokeShare id).1.activeShares = p.activeShares.filter fun ref => ref.shareId ≠ id := by
  unfold revokeShare
  cases hfind : p.activeShares.find? fun ref => ref.shareId = id with
  | none =>
    symm
    rw [filter_eq_self]
    intro ref href
    have hne := find?_eq_none.1 hfind ref href
    rw [decide_eq_true_iff] at hne ⊢
    exact hne
  | some ref => rfl

theorem activeShares_revokeAll (ids : List String) :
    (p.revokeAll ids).1.activeShares = p.activeShares.filter fun ref => ref.shareId ∉ ids := by
  induction ids generalizing p with
  | nil => exact (filter_eq_self.2 fun ref _ => decide_eq_true not_mem_nil).symm
  | cons id rest ih =>
    change ((p.revokeShare id).1.revokeAll rest).1.activeShares = _
    rw [ih, activeShares_revokeShare, filter_filter]
    refine filter_congr fun ref _ => ?_
    rw [← Bool.decide_and, decide_eq_decide, mem_cons, not_or, and_comm]

end SharingProtocol

variable {ref : SharedReference}

namespace Indexed

variable {p : SharingProtocol}

theorem new : Indexed .new where
  nodup := nodup_nil
  ids_nodup _ := nodup_nil
  mem_iff agentIri id := by
    constructor
    · exact fun h => absurd h not_mem_nil
    · rintro ⟨ref, href, -⟩
      exact absurd href not_mem_nil

theorem eq_of_shareId (h : Indexed p) {ref other : SharedReference} (href : ref ∈ p.activeShares)
    (hother : other ∈ p.activeShares) (heq : ref.shareId = other.shareId) : ref = other :=
  inj_on_of_nodup_map h.nodup href hother heq

theorem find?_of_mem (h : Indexed p) (href : ref ∈ p.activeShares) :
    (p.activeShares.find? fun other => other.shareId = ref.shareId) = some ref := by
  cases hfind : p.activeShares.find? fun other => other.shareId = ref.shareId with
  | none => exact absurd (decide_eq_true rfl) (find?_eq_none.1 hfind ref href)
  | some other =>
    have heq : other.shareId = ref.shareId := by simpa using find?_some hfind
    rw [h.eq_of_shareId (mem_of_find?_eq_some hfind) href heq]

theorem insertShare (h : Indexed p) (hfresh : ∀ old ∈ p.activeShares, old.shareId ≠ ref.shareId) :
    Indexed (p.insertShare ref) ∧ (p.insertShare ref).activeShares = p.activeShares ++ [ref] := by
  have hactive : (p.insertShare ref).activeShares = p.activeShares ++ [ref] := by
    unfold SharingProtocol.insertShare
    simp only
    rw [filter_eq_self.2 fun old hold => decide_eq_true (hfresh old hold)]
  refine ⟨{ nodup := ?_, ids_nodup := ?_, mem_iff := ?_ }, hactive⟩
  · rw [hactive, map_append, nodup_append]
    refine ⟨h.nodup, nodup_singleton _, ?_⟩
    intro id hid other hother
    obtain ⟨old, hold, rfl⟩ := mem_map.1 hid
    obtain rfl := mem_singleton.1 hother
    exact hfresh old hold
  · intro agentIri
    by_cases hagent : agentIri = ref.targetAgentIri
    · subst hagent
      simp only [SharingProtocol.insertShare, update_self]
      exact (h.ids_nodup _).insert
    · simp only [SharingProtocol.insertShare, update_of_ne hagent]
      exact h.ids_nodup agentIri
  · intro agentIri id
    rw [hactive]
    by_cases hagent : agentIri = ref.targetAgentIri
    · subst hagent
      simp only [SharingProtocol.insertShare, update_self]
      rw [mem_insert_iff, h.mem_iff]
      constructor
      · rintro (rfl | ⟨old, hold, hid⟩)
        · exact ⟨ref, mem_append_right _ mem_cons_self, rfl, rfl⟩
        · exact ⟨old, mem_append_left _ hold, hid⟩
      · rintro ⟨old, hold, rfl, htarget⟩
        rcases mem_append.1 hold with hold | hold
        · exact .inr ⟨old, hold, rfl, htarget⟩
        · exact .inl (congrArg _ (mem_singleton.1 hold))
    · simp only [SharingProtocol.insertShare, update_of_ne hagent]
      rw [h.mem_iff]
      constructor
      · rintro ⟨old, hold, hid⟩
        exact ⟨old, mem_append_left _ hold, hid⟩
      · rintro ⟨old, hold, hid, htarget⟩
        rcases mem_append.1 hold with hold | hold
        · exact ⟨old, hold, hid, htarget⟩
        · rw [mem_singleton.1 hold] at htarget
          exact absurd htarget.symm hagent

theorem revokeShare (h : Indexed p) (id : String) : Indexed (p.revokeShare id).1 := by
  have hactive := @SharingProtocol.activeShares_revokeShare p id
  have hmem : ∀ ref, ref ∈ (p.revokeShare id).1.activeShares ↔ ref ∈ p.activeShares ∧ ref.shareId ≠ id := by
    intro ref
    rw [hactive, mem_filter, decide_eq_true_iff]
  unfold SharingProtocol.revokeShare at hmem ⊢
  cases hfind : p.activeShares.find? fun ref => ref.shareId = id with
  | none => exact h
  | some ref =>
    have href := mem_of_find?_eq_some hfind
    have hid : ref.shareId = id := by simpa using find?_some hfind
    rw [hfind] at hmem
    refine { nodup := ?_, ids_nodup := ?_, mem_iff := ?_ }
    · exact h.nodup.sublist (filter_sublist.map _)
    · intro agentIri
      by_cases hagent : agentIri = ref.targetAgentIri
      · subst hagent
        simp only [update_self]
        exact (h.ids_nodup _).erase id
      · simp only [update_of_ne hagent]
        exact h.ids_nodup agentIri
    · intro agentIri id'
      have hother : (∃ other, (other ∈ p.activeShares ∧ other.shareId ≠ id) ∧ other.shareId = id' ∧
          other.targetAgentIri = agentIri) ↔ id' ≠ id ∧ id' ∈ p.shareIndex agentIri := by
        rw [h.mem_iff]
        constructor
        · rintro ⟨other, ⟨hother, hne⟩, rfl, htarget⟩
          exact ⟨hne, other, hother, rfl, htarget⟩
        · rintro ⟨hne, other, hother, rfl, htarget⟩
          exact ⟨other, ⟨hother, hne⟩, rfl, htarget⟩
      simp only [hmem]
      rw [hother]
      by_cases hagent : agentIri = ref.targetAgentIri
      · subst hagent
        simp only [update_self]
        exact (h.ids_nodup _).mem_erase_iff
      · simp only [update_of_ne hagent]
        constructor
        · intro hin
          refine ⟨?_, hin⟩
          rintro rfl
          obtain ⟨other, hother, heq, htarget⟩ := (h.mem_iff agentIri _).1 hin
          rw [h.eq_of_shareId hother href (heq.trans hid.symm)] at htarget
          exact hagent htarget.symm
        · exact And.right

theorem revokeAll (h : Indexed p) (ids : List String) : Indexed (p.revokeAll ids).1 := by
  induction ids generalizing p with
  | nil => exact h
  | cons id rest ih => exact ih (h.revokeShare id)

end Indexed

/-! ### What has been granted -/

/-- A share that was created, with the last second it is good for. -/
structure Grant where
  ref : SharedReference
  deadline : Option ℕ

variable {now' : UInt64} {checks : Bool}

namespace Grant

variable {now : UInt64} {grant : Grant} {ref : SharedReference}

def Live (now : UInt64) (grant : Grant) : Prop := ∀ deadline, grant.deadline = some deadline → now.toNat ≤ deadline

/-- The share is the one that was granted. -/
def Describes (grant : Grant) (ref : SharedReference) : Prop :=
  { ref with expiresAt := none } = grant.ref ∧ ref.expiresAt.map UInt64.toNat = grant.deadline

theorem Live.mono (hle : now ≤ now') (h : grant.Live now') : grant.Live now :=
  fun deadline hdeadline => le_trans (UInt64.le_iff_toNat_le.1 hle) (h deadline hdeadline)

section

variable (h : grant.Describes ref)
include h

theorem Describes.live_iff : grant.Live now ↔ ref.isExpired now = false := by
  unfold Live SharedReference.isExpired
  rw [← h.2]
  cases ref.expiresAt with
  | none => simp
  | some expiresAt => simp [UInt64.le_iff_toNat_le]

theorem Describes.shareId : ref.shareId = grant.ref.shareId := by
  rw [← h.1]

theorem Describes.nodeIri : ref.nodeIri = grant.ref.nodeIri := by
  rw [← h.1]

theorem Describes.targetAgentIri : ref.targetAgentIri = grant.ref.targetAgentIri := by
  rw [← h.1]

end

/-- A share whose deadline fits is granted as it is created. -/
theorem describes_withTtl {ttl : UInt64} (hnone : ref.expiresAt = none) (hfits : now.toNat + ttl.toNat < 2 ^ 64) :
    ∃ made, ref.withTtl checks now ttl = some made ∧ made.shareId = ref.shareId ∧
      Describes ⟨ref, some (now.toNat + ttl.toNat)⟩ made := by
  refine ⟨{ ref with expiresAt := some (now + ttl) }, ?_, rfl, ?_, ?_⟩
  · unfold SharedReference.withTtl addSeconds
    rw [if_neg fun h => absurd h.2 (not_le.2 hfits), Option.map_some]
  · cases ref
    simp only at hnone ⊢
    rw [hnone]
  · change some (now + ttl).toNat = some (now.toNat + ttl.toNat)
    rw [UInt64.toNat_add, Nat.mod_eq_of_lt hfits]

end Grant

/-- The grants of a `create_share`. -/
def ShareArgs.grant (now : UInt64) (args : ShareArgs) (node : String × String) : Grant :=
  ⟨args.reference node, args.ttlSeconds.map fun ttl => now.toNat + ttl.toNat⟩

/-- What is granted, and not revoked on request, after a call. -/
def grantStep (grants : List Grant) (call : Call) : List Grant :=
  match call.request with
  | .createShare args => grants ++ args.nodeIris.map (args.grant call.now)
  | .revokeShare shareId => grants.filter fun grant => grant.ref.shareId ≠ shareId
  | .revokeAllForNode nodeIri => grants.filter fun grant => grant.ref.nodeIri ≠ nodeIri
  | .resolveIri _ _ | .getSharesForAgent _ | .cleanupExpired => grants

def grants (calls : List Call) : List Grant := calls.foldl grantStep []

theorem grants_append_singleton (calls : List Call) (call : Call) :
    grants (calls ++ [call]) = grantStep (grants calls) call := by
  unfold grants
  rw [foldl_append, foldl_cons, foldl_nil]

/-- The active shares have been granted, and what is granted and has not expired is active. -/
structure Tracks (now : UInt64) (p : SharingProtocol) (grants : List Grant) : Prop where
  indexed : Indexed p
  granted : ∀ ref ∈ p.activeShares, ∃ grant ∈ grants, grant.Describes ref
  active : ∀ grant ∈ grants, grant.Live now → ∃ ref ∈ p.activeShares, grant.Describes ref

namespace Tracks

variable {now : UInt64} {p : SharingProtocol} {grants grants' : List Grant}

theorem new : Tracks now .new [] where
  indexed := .new
  granted _ h := absurd h not_mem_nil
  active _ h := absurd h not_mem_nil

theorem later (h : Tracks now p grants) (hle : now ≤ now') : Tracks now' p grants where
  indexed := h.indexed
  granted := h.granted
  active grant hgrant hlive := h.active grant hgrant (hlive.mono hle)

/-- Shares are revoked, and with them the grants that are not kept. -/
theorem revokeAll (h : Tracks now p grants) {ids : List String} (hkept : ∀ grant ∈ grants', grant ∈ grants)
    (hstay : ∀ ref ∈ p.activeShares, ref.shareId ∉ ids → ∀ grant ∈ grants, grant.Describes ref → grant ∈ grants')
    (hgone : ∀ ref ∈ p.activeShares, ref.shareId ∈ ids → ∀ grant ∈ grants', grant.Describes ref → ¬grant.Live now) :
    Tracks now (p.revokeAll ids).1 grants' := by
  have hmem : ∀ ref, ref ∈ (p.revokeAll ids).1.activeShares ↔ ref ∈ p.activeShares ∧ ref.shareId ∉ ids := by
    intro ref
    rw [SharingProtocol.activeShares_revokeAll, mem_filter, decide_eq_true_iff]
  refine ⟨h.indexed.revokeAll ids, ?_, ?_⟩
  · intro ref href
    obtain ⟨href, hid⟩ := (hmem ref).1 href
    obtain ⟨grant, hgrant, hdescribes⟩ := h.granted ref href
    exact ⟨grant, hstay ref href hid grant hgrant hdescribes, hdescribes⟩
  · intro grant hgrant hlive
    obtain ⟨ref, href, hdescribes⟩ := h.active grant (hkept grant hgrant) hlive
    exact ⟨ref, (hmem ref).2 ⟨href, fun hid => hgone ref href hid grant hgrant hdescribes hlive⟩, hdescribes⟩

/-- Only shares that have expired are revoked. -/
theorem revokeExpired (h : Tracks now p grants) {ids : List String}
    (hexpired : ∀ ref ∈ p.activeShares, ref.shareId ∈ ids → ref.isExpired now = true) :
    Tracks now (p.revokeAll ids).1 grants := by
  refine h.revokeAll (fun _ h => h) (fun _ _ _ _ hgrant _ => hgrant) ?_
  intro ref href hid grant _ hdescribes hlive
  rw [hdescribes.live_iff, hexpired ref href hid] at hlive
  exact Bool.noConfusion hlive

/-- The identifiers of the shares that are picked out belong to no other share. -/
theorem of_mem_picked (h : Tracks now p grants) {order : MapOrder} {pick : SharedReference → Bool}
    (href : ref ∈ p.activeShares) :
    ref.shareId ∈ ((order.shares p.activeShares).filter pick).map (·.shareId) ↔ pick ref = true := by
  rw [mem_map]
  constructor
  · rintro ⟨other, hother, heq⟩
    obtain ⟨hother, hpick⟩ := mem_filter.1 hother
    rw [← h.indexed.eq_of_shareId ((order.shares_perm _).mem_iff.1 hother) href heq]
    exact hpick
  · exact fun hpick => ⟨ref, mem_filter.2 ⟨(order.shares_perm _).mem_iff.2 href, hpick⟩, rfl⟩

theorem cleanupExpired (h : Tracks now p grants) (order : MapOrder) :
    Tracks now (p.cleanupExpired now order).1 grants :=
  h.revokeExpired fun _ href hid => (h.of_mem_picked href).1 hid

theorem resolveIri (h : Tracks now p grants) (order : MapOrder) (iri agentIri : String) :
    Tracks now (p.resolveIri now order iri agentIri).1 grants := by
  unfold SharingProtocol.resolveIri
  split
  next => exact h
  next ref hfind =>
    have href : ref ∈ p.activeShares := (order.shares_perm _).mem_iff.1 (mem_of_find?_eq_some hfind)
    split_ifs with hexpired
    · have hids : ∀ other ∈ p.activeShares, other.shareId ∈ [ref.shareId] → other.isExpired now = true := by
        intro other hother hid
        rw [h.indexed.eq_of_shareId hother href (mem_singleton.1 hid)]
        exact hexpired
      exact h.revokeExpired hids
    · exact h
    · exact h

theorem revokeShare (h : Tracks now p grants) (shareId : String) :
    Tracks now (p.revokeShare shareId).1 (grants.filter fun grant => grant.ref.shareId ≠ shareId) := by
  have hmem : ∀ grant, grant ∈ (grants.filter fun grant => grant.ref.shareId ≠ shareId) ↔
      grant ∈ grants ∧ grant.ref.shareId ≠ shareId := by
    intro grant
    rw [mem_filter, decide_eq_true_iff]
  refine @revokeAll _ _ _ _ h [shareId] ?_ ?_ ?_
  · exact fun grant hgrant => ((hmem grant).1 hgrant).1
  · intro ref _ hid grant hgrant hdescribes
    exact (hmem grant).2 ⟨hgrant, hdescribes.shareId ▸ fun heq => hid (heq ▸ mem_cons_self)⟩
  · intro ref _ hid grant hgrant hdescribes
    exact absurd (hdescribes.shareId ▸ mem_singleton.1 hid) ((hmem grant).1 hgrant).2

theorem revokeAllForNode (h : Tracks now p grants) (order : MapOrder) (nodeIri : String) :
    Tracks now (p.revokeAllForNode order nodeIri).1 (grants.filter fun grant => grant.ref.nodeIri ≠ nodeIri) := by
  have hmem : ∀ grant, grant ∈ (grants.filter fun grant => grant.ref.nodeIri ≠ nodeIri) ↔
      grant ∈ grants ∧ grant.ref.nodeIri ≠ nodeIri := by
    intro grant
    rw [mem_filter, decide_eq_true_iff]
  refine h.revokeAll ?_ ?_ ?_
  · exact fun grant hgrant => ((hmem grant).1 hgrant).1
  · intro ref href hid grant hgrant hdescribes
    rw [h.of_mem_picked href, decide_eq_true_iff] at hid
    exact (hmem grant).2 ⟨hgrant, hdescribes.nodeIri ▸ hid⟩
  · intro ref href hid grant hgrant hdescribes
    rw [h.of_mem_picked href, decide_eq_true_iff] at hid
    exact absurd (hdescribes.nodeIri ▸ hid) ((hmem grant).1 hgrant).2

theorem createFrom (checks : Bool) {args : ShareArgs}
    (hfits : ∀ ttl, args.ttlSeconds = some ttl → now.toNat + ttl.toNat < 2 ^ 64) :
    ∀ (nodes : List (String × String)) {p : SharingProtocol} {grants : List Grant}, Tracks now p grants →
      (∀ node ∈ nodes, ∀ old ∈ p.activeShares, old.shareId ≠ node.2) → (nodes.map Prod.snd).Nodup →
        Tracks now (p.createFrom checks now args nodes).1 (grants ++ nodes.map (args.grant now)) := by
  intro nodes
  induction nodes with
  | nil =>
    intro p grants h _ _
    rw [map_nil, append_nil]
    exact h
  | cons node nodes ih =>
    intro p grants h hfresh hnodup
    obtain ⟨made, hmade, hid, hdescribes⟩ : ∃ made, (match args.ttlSeconds with
        | some ttl => (args.reference node).withTtl checks now ttl
        | none => some (args.reference node)) = some made ∧ made.shareId = node.2 ∧
          (args.grant now node).Describes made := by
      unfold ShareArgs.grant
      cases httl : args.ttlSeconds with
      | none => exact ⟨args.reference node, rfl, rfl, rfl, rfl⟩
      | some ttl => exact Grant.describes_withTtl rfl (hfits ttl httl)
    have hnew : ∀ old ∈ p.activeShares, old.shareId ≠ made.shareId := fun old hold =>
      hid ▸ hfresh node mem_cons_self old hold
    obtain ⟨hindexed, hactive⟩ := h.indexed.insertShare hnew
    have htracks : Tracks now (p.insertShare made) (grants ++ [args.grant now node]) := by
      refine ⟨hindexed, ?_, ?_⟩
      · intro ref href
        rw [hactive] at href
        rcases mem_append.1 href with href | href
        · obtain ⟨grant, hgrant, hold⟩ := h.granted ref href
          exact ⟨grant, mem_append_left _ hgrant, hold⟩
        · obtain rfl := mem_singleton.1 href
          exact ⟨_, mem_append_right _ mem_cons_self, hdescribes⟩
      · intro grant hgrant hlive
        rw [hactive]
        rcases mem_append.1 hgrant with hgrant | hgrant
        · obtain ⟨ref, href, hold⟩ := h.active grant hgrant hlive
          exact ⟨ref, mem_append_left _ href, hold⟩
        · obtain rfl := mem_singleton.1 hgrant
          exact ⟨made, mem_append_right _ mem_cons_self, hdescribes⟩
    rw [map_cons, nodup_cons] at hnodup
    have hrest := ih htracks ?_ hnodup.2
    · rw [append_assoc] at hrest
      rw [SharingProtocol.createFrom]
      simp only [hmade]
      exact hrest
    · intro other hother old hold
      rw [hactive] at hold
      rcases mem_append.1 hold with hold | hold
      · exact hfresh other (mem_cons_of_mem _ hother) old hold
      · rw [mem_singleton.1 hold, hid]
        exact fun heq => hnodup.1 (heq ▸ mem_map_of_mem hother)

end Tracks

/-! ### Runs -/

/-- The identifiers that a call gives to new shares. -/
def Call.newIds (call : Call) : List String :=
  match call.request with
  | .createShare args => args.nodeIris.map Prod.snd
  | _ => []

/-- The deadline of what a call creates is a number of seconds. -/
def Call.Fits (call : Call) : Prop :=
  match call.request with
  | .createShare args => ∀ ttl, args.ttlSeconds = some ttl → call.now.toNat + ttl.toNat < 2 ^ 64
  | _ => True

/-- The clock does not go back, every identifier is new, and every deadline fits. -/
structure Admissible (calls : List Call) : Prop where
  sorted : (calls.map (·.now)).Pairwise (· ≤ ·)
  fresh : (calls.flatMap Call.newIds).Nodup
  fits : ∀ call ∈ calls, call.Fits

theorem shareId_mem_newIds {calls : List Call} :
    ∀ grant ∈ grants calls, grant.ref.shareId ∈ calls.flatMap Call.newIds := by
  induction calls using reverseRecOn with
  | nil => exact fun grant h => absurd h not_mem_nil
  | append_singleton calls call ih =>
    intro grant h
    rw [grants_append_singleton] at h
    rw [flatMap_append, mem_append]
    have hold : grant ∈ grants calls → grant.ref.shareId ∈ calls.flatMap Call.newIds ∨
        grant.ref.shareId ∈ [call].flatMap Call.newIds := fun h => .inl (ih grant h)
    unfold grantStep at h
    split at h
    next args hrequest =>
      rcases mem_append.1 h with h | h
      · exact hold h
      · obtain ⟨node, hnode, rfl⟩ := mem_map.1 h
        refine .inr (mem_flatMap.2 ⟨call, mem_cons_self, ?_⟩)
        unfold Call.newIds
        rw [hrequest]
        exact mem_map_of_mem hnode
    next => exact hold (mem_filter.1 h).1
    next => exact hold (mem_filter.1 h).1
    next => exact hold h
    next => exact hold h
    next => exact hold h

theorem Tracks.step {p : SharingProtocol} {grants : List Grant} {call : Call} (h : Tracks call.now p grants)
    (hfits : call.Fits) (hfresh : ∀ id ∈ call.newIds, ∀ old ∈ p.activeShares, old.shareId ≠ id)
    (hnodup : call.newIds.Nodup) : Tracks call.now (step checks p call) (grantStep grants call) := by
  unfold Call.Fits at hfits
  unfold Call.newIds at hfresh hnodup
  unfold Sharing.step grantStep
  cases hrequest : call.request with
  | createShare args =>
    rw [hrequest] at hfits hfresh hnodup
    exact h.createFrom checks hfits args.nodeIris (fun node hnode => hfresh _ (mem_map_of_mem hnode)) hnodup
  | resolveIri iri agentIri => exact h.resolveIri call.order iri agentIri
  | getSharesForAgent agentIri => exact h.cleanupExpired call.order
  | revokeShare shareId => exact h.revokeShare shareId
  | revokeAllForNode nodeIri => exact h.revokeAllForNode call.order nodeIri
  | cleanupExpired => exact h.cleanupExpired call.order

namespace Admissible

variable {checks : Bool} {calls : List Call} {call : Call}

theorem init (h : Admissible (calls ++ [call])) : Admissible calls where
  sorted := by
    have hsorted := h.sorted
    rw [map_append, pairwise_append] at hsorted
    exact hsorted.1
  fresh := by
    have hfresh := h.fresh
    rw [flatMap_append, nodup_append] at hfresh
    exact hfresh.1
  fits other hother := h.fits other (mem_append_left _ hother)

theorem now_le (h : Admissible (calls ++ [call])) : ∀ other ∈ calls, other.now ≤ call.now := by
  intro other hother
  have hsorted := h.sorted
  rw [map_append, pairwise_append] at hsorted
  exact hsorted.2.2 _ (mem_map_of_mem hother) _ mem_cons_self

/-- A run keeps to its grants. -/
theorem tracks (h : Admissible calls) :
    ∀ now, (∀ call ∈ calls, call.now ≤ now) → Tracks now (run checks calls) (grants calls) := by
  induction calls using reverseRecOn with
  | nil => exact fun now _ => .new
  | append_singleton calls call ih =>
    intro now hnow
    rw [run_append_singleton, grants_append_singleton]
    have hbefore : Tracks call.now (run checks calls) (grants calls) := ih h.init call.now h.now_le
    have hfresh := h.fresh
    rw [flatMap_append, nodup_append, flatMap_singleton] at hfresh
    refine (hbefore.step (h.fits call (mem_append_right _ mem_cons_self)) ?_ hfresh.2.1).later
      (hnow call (mem_append_right _ mem_cons_self))
    intro id hid old hold heq
    obtain ⟨grant, hgrant, hdescribes⟩ := hbefore.granted old hold
    exact hfresh.2.2 _ (shareId_mem_newIds grant hgrant) _ hid (hdescribes.shareId.symm.trans heq)

end Admissible

/-! ### Answers -/

/-- A lookup answers with a live grant if there is one, and a listing with exactly the live grants of the agent. -/
def Exact (p : SharingProtocol) (grants : List Grant) (call : Call) : Prop :=
  match call.request with
  | .resolveIri iri agentIri =>
    (∀ ref, (p.resolveIri call.now call.order iri agentIri).2 = some ref → ref.nodeIri = iri ∧
      ref.targetAgentIri = agentIri ∧ ∃ grant ∈ grants, grant.Live call.now ∧ grant.Describes ref) ∧
    ((∃ grant ∈ grants, grant.Live call.now ∧ grant.ref.nodeIri = iri ∧ grant.ref.targetAgentIri = agentIri) →
      ((p.resolveIri call.now call.order iri agentIri).2).isSome = true)
  | .getSharesForAgent agentIri =>
    let answer := (p.getSharesForAgent call.now call.order agentIri).2
    (answer.map (·.shareId)).Nodup ∧
    (∀ ref ∈ answer, ref.targetAgentIri = agentIri ∧ ∃ grant ∈ grants, grant.Live call.now ∧ grant.Describes ref) ∧
    ∀ grant ∈ grants, grant.Live call.now → grant.ref.targetAgentIri = agentIri → ∃ ref ∈ answer, grant.Describes ref
  | _ => True

/-- The first share of the node to the agent has not expired, or all of them have. -/
def Unhidden (p : SharingProtocol) (call : Call) : Prop :=
  match call.request with
  | .resolveIri iri agentIri =>
    ∀ ref, (call.order.shares p.activeShares).find?
        (fun ref => ref.nodeIri = iri ∧ ref.targetAgentIri = agentIri) = some ref →
      ref.isExpired call.now = true → ∀ other ∈ p.activeShares, other.nodeIri = iri →
        other.targetAgentIri = agentIri → other.isExpired call.now = true
  | _ => True

section

variable {now : UInt64} {p : SharingProtocol} {grants : List Grant} {order : MapOrder}

theorem Permission.allowsRead_eq_true (permission : Permission) : permission.allowsRead = true := by
  cases permission <;> rfl

variable {agentIri : String}

/-- What `get_shares_for_agent` lists. -/
theorem mem_getSharesForAgent (h : Tracks now p grants) : ref ∈ (p.getSharesForAgent now order agentIri).2 ↔
      ref ∈ p.activeShares ∧ ref.isExpired now = false ∧ ref.targetAgentIri = agentIri := by
  have hindexed := (h.cleanupExpired order).indexed
  have hmem : ref ∈ (p.cleanupExpired now order).1.activeShares ↔ ref ∈ p.activeShares ∧ ref.isExpired now = false := by
    unfold SharingProtocol.cleanupExpired
    rw [SharingProtocol.activeShares_revokeAll, mem_filter, decide_eq_true_iff]
    refine and_congr_right fun href => ?_
    rw [h.of_mem_picked href, Bool.not_eq_true]
  rw [← and_assoc, ← hmem]
  unfold SharingProtocol.getSharesForAgent
  simp only [mem_filterMap]
  constructor
  · rintro ⟨id, hid, hfind⟩
    have href := mem_of_find?_eq_some hfind
    have heq : ref.shareId = id := by simpa using find?_some hfind
    obtain ⟨other, hother, hotherid, htarget⟩ := (hindexed.mem_iff _ _).1 ((order.ids_perm _).mem_iff.1 hid)
    rw [hindexed.eq_of_shareId href hother (heq.trans hotherid.symm)]
    exact ⟨hother, htarget⟩
  · rintro ⟨href, htarget⟩
    exact ⟨ref.shareId, (order.ids_perm _).mem_iff.2 ((hindexed.mem_iff _ _).2 ⟨ref, href, rfl, htarget⟩),
      hindexed.find?_of_mem href⟩

theorem nodup_getSharesForAgent (h : Tracks now p grants) :
    ((p.getSharesForAgent now order agentIri).2.map (·.shareId)).Nodup := by
  have hindexed := (h.cleanupExpired order).indexed
  unfold SharingProtocol.getSharesForAgent
  have hsublist : ∀ ids : List String, ((ids.filterMap fun id =>
      (p.cleanupExpired now order).1.activeShares.find? fun ref => ref.shareId = id).map (·.shareId)).Sublist ids := by
    intro ids
    induction ids with
    | nil => exact .slnil
    | cons id ids ih =>
      cases hfind : (p.cleanupExpired now order).1.activeShares.find? fun ref => ref.shareId = id with
      | none => simpa only [filterMap_cons, hfind] using ih.cons id
      | some ref =>
        have heq : ref.shareId = id := by simpa using find?_some hfind
        simpa only [filterMap_cons, hfind, map_cons, heq] using ih.cons_cons id
  exact ((order.ids_perm _).nodup_iff.2 (hindexed.ids_nodup agentIri)).sublist (hsublist _)

theorem exact_getSharesForAgent (h : Tracks now p grants) (agentIri : String) :
    Exact p grants ⟨now, order, .getSharesForAgent agentIri⟩ := by
  refine ⟨nodup_getSharesForAgent h, ?_, ?_⟩
  · intro ref href
    obtain ⟨href, hlive, htarget⟩ := (mem_getSharesForAgent h).1 href
    obtain ⟨grant, hgrant, hdescribes⟩ := h.granted ref href
    exact ⟨htarget, grant, hgrant, hdescribes.live_iff.2 hlive, hdescribes⟩
  · intro grant hgrant hlive htarget
    obtain ⟨ref, href, hdescribes⟩ := h.active grant hgrant hlive
    exact ⟨ref, (mem_getSharesForAgent h).2 ⟨href, hdescribes.live_iff.1 hlive,
      hdescribes.targetAgentIri.trans htarget⟩, hdescribes⟩

theorem exact_resolveIri (h : Tracks now p grants) (iri agentIri : String) :
    Exact p grants ⟨now, order, .resolveIri iri agentIri⟩ ↔ Unhidden p ⟨now, order, .resolveIri iri agentIri⟩ := by
  unfold Exact Unhidden
  simp only [SharingProtocol.resolveIri]
  cases hfind : (order.shares p.activeShares).find?
      fun ref => decide (ref.nodeIri = iri ∧ ref.targetAgentIri = agentIri) with
  | none =>
    refine ⟨fun _ ref heq => (nomatch heq), fun _ => ⟨fun ref heq => (nomatch heq), ?_⟩⟩
    rintro ⟨grant, hgrant, hlive, rfl, rfl⟩
    obtain ⟨ref, href, hdescribes⟩ := h.active grant hgrant hlive
    have hnot := find?_eq_none.1 hfind ref ((order.shares_perm _).mem_iff.2 href)
    exact absurd (decide_eq_true ⟨hdescribes.nodeIri, hdescribes.targetAgentIri⟩) hnot
  | some ref =>
    have href : ref ∈ p.activeShares := (order.shares_perm _).mem_iff.1 (mem_of_find?_eq_some hfind)
    have hnames : ref.nodeIri = iri ∧ ref.targetAgentIri = agentIri := by simpa using find?_some hfind
    obtain ⟨grant, hgrant, hdescribes⟩ := h.granted ref href
    cases hexpired : ref.isExpired now with
    | false =>
      simp only [hexpired, Permission.allowsRead_eq_true, Bool.false_eq_true, Bool.not_true, if_false]
      refine ⟨?_, fun _ => ⟨?_, fun _ => rfl⟩⟩
      · intro _ ref' heq hexpired'
        rw [← Option.some.inj heq, hexpired] at hexpired'
        exact (nomatch hexpired')
      · intro ref' heq
        cases heq
        exact ⟨hnames.1, hnames.2, grant, hgrant, hdescribes.live_iff.2 hexpired, hdescribes⟩
    | true =>
      -- The lookup revokes the share and answers with nothing.
      simp only [hexpired, if_true]
      constructor
      · rintro ⟨-, hsome⟩ ref' - - other hother hnode htarget
        by_contra hlive
        rw [Bool.not_eq_true] at hlive
        obtain ⟨grant', hgrant', hdescribes'⟩ := h.granted other hother
        exact absurd (hsome ⟨grant', hgrant', hdescribes'.live_iff.2 hlive, hdescribes'.nodeIri.symm.trans hnode,
          hdescribes'.targetAgentIri.symm.trans htarget⟩) Bool.false_ne_true
      · intro hall
        refine ⟨fun ref' heq => (nomatch heq), ?_⟩
        rintro ⟨grant', hgrant', hlive', hnode, htarget⟩
        obtain ⟨other, hother, hdescribes'⟩ := h.active grant' hgrant' hlive'
        have hnot := hall ref rfl hexpired other hother (hdescribes'.nodeIri.trans hnode)
          (hdescribes'.targetAgentIri.trans htarget)
        rw [hdescribes'.live_iff.1 hlive'] at hnot
        exact (nomatch hnot)

end

/-- In every run the index lists exactly the active shares, and the next answer is exact unless it is a lookup that
meets an expired share before a live one. -/
theorem exact_iff {checks : Bool} {calls : List Call} {call : Call} (h : Admissible (calls ++ [call])) :
    Indexed (run checks calls) ∧ (Exact (run checks calls) (grants calls) call ↔ Unhidden (run checks calls) call) := by
  have htracks : Tracks call.now (run checks calls) (grants calls) := h.init.tracks call.now h.now_le
  refine ⟨htracks.indexed, ?_⟩
  obtain ⟨now, order, request⟩ := call
  cases request with
  | resolveIri iri agentIri => exact exact_resolveIri htracks iri agentIri
  | getSharesForAgent agentIri => exact iff_of_true (exact_getSharesForAgent htracks agentIri) trivial
  | createShare args => exact Iff.rfl
  | revokeShare shareId => exact Iff.rfl
  | revokeAllForNode nodeIri => exact Iff.rfl
  | cleanupExpired => exact Iff.rfl

/-! ### An expired share in front of a live one -/

def asListed : MapOrder := ⟨id, id, fun l => Perm.refl l, fun l => Perm.refl l⟩

/-- `pa` shares its plan with `da`. -/
def sharePlan (ttlSeconds : Option UInt64) (shareId : String) : Request :=
  .createShare ⟨"iri://agent/pa", "iri://agent/da", [("iri://task/123/plan", shareId)], .projection, .read, ttlSeconds,
    none⟩

def resolvePlan : Request := .resolveIri "iri://task/123/plan" "iri://agent/da"

/-- The plan is shared for one second and for an hour. -/
def sharedTwice : List Call :=
  [⟨100, asListed, sharePlan (some 1) "iri://share/1"⟩, ⟨100, asListed, sharePlan (some 3600) "iri://share/2"⟩]

theorem exact_sharedTwice : Exact (run true sharedTwice) (grants sharedTwice) ⟨101, asListed, resolvePlan⟩ := by
  have hadmissible : Admissible (sharedTwice ++ [⟨101, asListed, resolvePlan⟩]) :=
    { sorted := by decide
      fresh := by decide
      fits := by
        intro call hcall
        simp only [sharedTwice, cons_append, nil_append, mem_cons, not_mem_nil, or_false] at hcall
        rcases hcall with rfl | rfl | rfl
        · rintro ttl ⟨⟩
          decide
        · rintro ttl ⟨⟩
          decide
        · exact trivial }
  refine (exact_iff hadmissible).2.2 ?_
  intro ref heq hexpired
  cases heq
  exact absurd hexpired (by decide)

/-- Two seconds later the share for one second stands in front, and the plan is not found. -/
theorem not_exact_sharedTwice : ¬Exact (run true sharedTwice) (grants sharedTwice) ⟨102, asListed, resolvePlan⟩ := by
  rintro ⟨-, hsome⟩
  have hlive : ∃ grant ∈ grants sharedTwice, grant.Live 102 ∧ grant.ref.nodeIri = "iri://task/123/plan" ∧
      grant.ref.targetAgentIri = "iri://agent/da" := by
    refine ⟨_, mem_cons_of_mem _ mem_cons_self, ?_, rfl, rfl⟩
    rintro deadline ⟨⟩
    decide
  exact absurd (hsome hlive) (by decide)

end WildAgentOs.Sharing
