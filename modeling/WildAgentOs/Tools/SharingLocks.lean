import WildAgentOs.Lib.LockOrder

/-!
# The locks of the sharing protocol

`tools/sharing.rs`, for the order in which each method takes and gives back the lock of the active shares and that of
the share index.  All methods but one take the active shares first; `get_shares_for_agent` takes the index and, while
it has it, the active shares.

* `Call`, `Call.locks`, `Call.Nests`, `deadlockFree_iff`.
-/

namespace WildAgentOs.Sharing.Locks

open LockOrder List

/-- `active_shares` and `share_index`. -/
inductive ShareLock
  | activeShares
  | shareIndex
  deriving DecidableEq

/-- A call, with the share ids that it revokes: for each, whether the share is still active then. -/
inductive Call
  | createShare
  | resolveIri (expired : Option Bool)
  | getSharesForAgent (expired : List Bool)
  | revokeShare (found : Bool)
  | revokeAllForNode (toRemove : List Bool)
  | cleanupExpired (expired : List Bool)
  | activeShareCount
  deriving DecidableEq

/-- The lock is taken, and given back after what is done meanwhile. -/
def holding (l : ShareLock) (mode : Mode) (body : List (Op ShareLock)) : List (Op ShareLock) :=
  .acquire l mode :: (body ++ [.release l])

def createLocks : List (Op ShareLock) := holding .activeShares .exclusive (holding .shareIndex .exclusive [])

/-- `revoke_share`. -/
def revokeLocks (found : Bool) : List (Op ShareLock) :=
  holding .activeShares .exclusive (if found then holding .shareIndex .exclusive [] else [])

/-- The active shares are read, and some of them revoked after that. -/
def scanLocks (toRevoke : List Bool) : List (Op ShareLock) :=
  holding .activeShares .shared [] ++ toRevoke.flatMap revokeLocks

/-- The lock steps of a call. -/
def Call.locks : Call → List (Op ShareLock)
  | .createShare => createLocks
  | .resolveIri expired => scanLocks expired.toList
  | .getSharesForAgent expired =>
    scanLocks expired ++ holding .shareIndex .shared (holding .activeShares .shared [])
  | .revokeShare found => revokeLocks found
  | .revokeAllForNode toRemove => scanLocks toRemove
  | .cleanupExpired expired => scanLocks expired
  | .activeShareCount => holding .activeShares .shared []

/-- The shares that a call revokes. -/
def Call.revokes : Call → List Bool
  | .resolveIri expired => expired.toList
  | .getSharesForAgent expired | .cleanupExpired expired => expired
  | .revokeAllForNode toRemove => toRemove
  | .revokeShare found => [found]
  | .createShare | .activeShareCount => []

/-- The call takes the index while it has the active shares. -/
def Call.Nests (call : Call) : Prop := call = .createShare ∨ true ∈ call.revokes

/-- The call takes the active shares while it has the index. -/
def Call.Lists (call : Call) : Prop := ∃ expired, call = .getSharesForAgent expired

/-- Two calls that take the two locks crosswise. -/
def Crossed (calls : List Call) : Prop :=
  ∃ (i j : ℕ) (listing nesting : Call), i ≠ j ∧ calls[i]? = some listing ∧ calls[j]? = some nesting ∧
    listing.Lists ∧ nesting.Nests

variable {rank : ShareLock → ℕ} {call : Call} {calls : List Call}

/-! ### The orders -/

variable {rest : List (Op ShareLock)} {toRevoke : List Bool}

section

variable (hnests : true ∈ toRevoke → rank .activeShares < rank .shareIndex)
include hnests

theorem inOrder_revokes
    (hrest : InOrder rank [] rest) : InOrder rank [] (toRevoke.flatMap revokeLocks ++ rest) := by
  induction toRevoke with
  | nil => exact hrest
  | cons found toRevoke ih =>
    have htail := ih fun hmem => hnests (mem_cons_of_mem found hmem)
    cases found
    · simpa [revokeLocks, holding, InOrder] using htail
    · simpa [revokeLocks, holding, InOrder] using ⟨hnests mem_cons_self, htail⟩

theorem inOrder_scanLocks
    (hrest : InOrder rank [] rest) : InOrder rank [] (scanLocks toRevoke ++ rest) := by
  simpa [scanLocks, holding, InOrder] using inOrder_revokes hnests hrest

end

/-- **The order of a call**, whichever lock comes first in it. -/
theorem inOrder_locks (hnests : call.Nests → rank .activeShares < rank .shareIndex)
    (hlists : call.Lists → rank .shareIndex < rank .activeShares) : InOrder rank [] call.locks := by
  have hscan : ∀ toRevoke, call.revokes = toRevoke → InOrder rank [] (scanLocks toRevoke) := by
    rintro toRevoke rfl
    rw [← append_nil (scanLocks _)]
    exact inOrder_scanLocks (fun hmem => hnests (.inr hmem)) rfl
  cases call with
  | createShare => simpa [Call.locks, createLocks, holding, InOrder] using hnests (.inl rfl)
  | resolveIri expired => exact hscan _ rfl
  | getSharesForAgent expired =>
    refine inOrder_scanLocks (fun hmem => hnests (.inr hmem)) ?_
    simpa [holding, InOrder] using hlists ⟨expired, rfl⟩
  | revokeShare found =>
    have hrevoke : InOrder rank [] ([found].flatMap revokeLocks ++ []) :=
      inOrder_revokes (fun hmem => hnests (.inr hmem)) rfl
    simpa [Call.locks] using hrevoke
  | revokeAllForNode toRemove => exact hscan _ rfl
  | cleanupExpired expired => exact hscan _ rfl
  | activeShareCount => simp [Call.locks, holding, InOrder]

def activeFirst : ShareLock → ℕ
  | .activeShares => 0
  | .shareIndex => 1

def indexFirst : ShareLock → ℕ
  | .activeShares => 1
  | .shareIndex => 0

theorem alone_scanLocks (toRevoke : List Bool) : Alone [] (scanLocks toRevoke) := by
  rw [← append_nil (scanLocks toRevoke)]
  have horder : InOrder activeFirst [] (scanLocks toRevoke ++ []) := inOrder_scanLocks (fun _ => by decide) rfl
  exact horder.alone

theorem alone_locks (call : Call) : Alone [] call.locks := by
  by_cases hlists : call.Lists
  · obtain ⟨expired, rfl⟩ := hlists
    have hlisting : InOrder indexFirst [] (holding .shareIndex .shared (holding .activeShares .shared [])) := by decide
    exact alone_append (alone_scanLocks expired) hlisting.alone
  · have horder : InOrder activeFirst [] call.locks := inOrder_locks (fun _ => by decide) fun h => absurd h hlists
    exact horder.alone

/-! ### Deadlocks -/

/-- Every call takes the active shares first of all. -/
theorem exists_first (call : Call) : ∃ mode rest, call.locks = .acquire .activeShares mode :: rest := by
  cases call <;> exact ⟨_, _, rfl⟩

/-- Where a call first takes the index while it has the active shares. -/
theorem exists_nested (h : call.Nests) : ∃ part rest, Alone [] part ∧
    call.locks = part ++ .acquire .activeShares .exclusive :: .acquire .shareIndex .exclusive :: rest := by
  have hscan : ∀ {toRevoke : List Bool}, true ∈ toRevoke → ∃ part rest, Alone [] part ∧ scanLocks toRevoke =
      part ++ .acquire .activeShares .exclusive :: .acquire .shareIndex .exclusive :: rest := by
    intro toRevoke hmem
    obtain ⟨before, after, rfl⟩ := append_of_mem hmem
    refine ⟨scanLocks before, .release .shareIndex :: .release .activeShares :: after.flatMap revokeLocks,
      alone_scanLocks before, ?_⟩
    simp [scanLocks, revokeLocks, holding]
  rcases h with rfl | hmem
  · exact ⟨[], _, rfl, rfl⟩
  · cases call with
    | createShare | activeShareCount => cases hmem
    | resolveIri expired => exact hscan hmem
    | revokeShare found =>
      obtain rfl : true = found := mem_singleton.1 hmem
      exact ⟨[], _, rfl, rfl⟩
    | revokeAllForNode toRemove => exact hscan hmem
    | cleanupExpired expired => exact hscan hmem
    | getSharesForAgent expired =>
      obtain ⟨part, rest, hpart, hlocks⟩ := @hscan expired hmem
      refine ⟨part, rest ++ holding .shareIndex .shared (holding .activeShares .shared []), hpart, ?_⟩
      rw [Call.locks, hlocks, append_assoc]
      rfl

theorem exists_deadlocked (h : Crossed calls) :
    ∃ threads, Reached (calls.map Call.locks) threads ∧ Deadlocked threads := by
  obtain ⟨i, j, _, nesting, hij, hi, hj, ⟨expired, rfl⟩, hnests⟩ := h
  obtain ⟨part, rest, hpart, hlocks⟩ := exists_nested hnests
  have hlisting : (calls.map Call.locks)[i]? = some (scanLocks expired ++ .acquire .shareIndex .shared ::
      .acquire .activeShares .shared :: [.release .activeShares, .release .shareIndex]) := by
    rw [getElem?_map, hi]
    rfl
  have hnesting : (calls.map Call.locks)[j]? =
      some (part ++ .acquire .activeShares .exclusive :: .acquire .shareIndex .exclusive :: rest) := by
    rw [getElem?_map, hj, Option.map_some, hlocks]
  have hne : ShareLock.shareIndex ≠ .activeShares := by decide
  refine exists_deadlocked_of_crossed hne hij hlisting (alone_scanLocks expired) hnesting hpart ⟨rfl, .inr rfl⟩
    ⟨rfl, .inl rfl⟩ fun program hprogram => ?_
  obtain ⟨other, -, rfl⟩ := mem_map.1 hprogram
  obtain ⟨mode, rest', hfirst⟩ := exists_first other
  exact .inr ⟨_, mode, rest', hfirst, .inr ⟨rfl, .inl rfl⟩⟩

/-- Without such a pair there is one order for all calls, or one call that lists and nests while the others hold one
lock at a time. -/
theorem not_deadlocked_of_not_crossed (h : ¬Crossed calls) {threads : List (Thread ShareLock)}
    (hreached : Reached (calls.map Call.locks) threads) : ¬Deadlocked threads := by
  by_cases hlists : ∃ call ∈ calls, call.Lists
  · by_cases hnests : ∃ call ∈ calls, call.Nests
    · obtain ⟨listing, hmem, hlisting⟩ := hlists
      obtain ⟨nesting, hmem', hnesting⟩ := hnests
      obtain ⟨i, hi⟩ := mem_iff_getElem?.1 hmem
      obtain ⟨j, hj⟩ := mem_iff_getElem?.1 hmem'
      have hij : i = j := by
        by_contra hne
        exact h ⟨i, j, listing, nesting, hne, hi, hj, hlisting, hnesting⟩
      subst hij
      refine not_deadlocked_of_single (i := i) (fun program hprogram => ?_) (fun k program hk hprogram => ?_) hreached
      · rw [getElem?_map, Option.map_eq_some_iff] at hprogram
        obtain ⟨call, -, rfl⟩ := hprogram
        exact alone_locks call
      · rw [getElem?_map, Option.map_eq_some_iff] at hprogram
        obtain ⟨call, hcall, rfl⟩ := hprogram
        refine inOrder_locks (fun hcall' => ?_) fun hcall' => ?_
        · exact absurd ⟨i, k, listing, call, hk.symm, hi, hcall, hlisting, hcall'⟩ h
        · exact absurd ⟨k, i, call, nesting, hk, hcall, hj, hcall', hnesting⟩ h
    · have hprograms : ∀ program ∈ calls.map Call.locks, InOrder indexFirst [] program := by
        intro program hprogram
        obtain ⟨call, hmem, rfl⟩ := mem_map.1 hprogram
        exact inOrder_locks (fun hcall => absurd ⟨call, hmem, hcall⟩ hnests) fun _ => by decide
      exact not_deadlocked_of_inOrder hprograms hreached
  · have hprograms : ∀ program ∈ calls.map Call.locks, InOrder activeFirst [] program := by
      intro program hprogram
      obtain ⟨call, hmem, rfl⟩ := mem_map.1 hprogram
      exact inOrder_locks (fun _ => by decide) fun hcall => absurd ⟨call, hmem, hcall⟩ hlists
    exact not_deadlocked_of_inOrder hprograms hreached

/-- **Sharing calls never block each other for ever exactly when no two of them take the locks crosswise.** -/
theorem deadlockFree_iff (calls : List Call) :
    (∀ threads, Reached (calls.map Call.locks) threads → ¬Deadlocked threads) ↔ ¬Crossed calls := by
  constructor
  · intro h hcrossed
    obtain ⟨threads, hreached, hdead⟩ := exists_deadlocked hcrossed
    exact h threads hreached hdead
  · exact fun h threads hreached => not_deadlocked_of_not_crossed h hreached

/-- A share is made while an agent asks for its shares. -/
theorem exists_deadlocked_createShare : ∃ threads,
    Reached ([.createShare, .getSharesForAgent []].map Call.locks) threads ∧ Deadlocked threads :=
  exists_deadlocked ⟨1, 0, _, _, by decide, rfl, rfl, ⟨[], rfl⟩, .inl rfl⟩

end WildAgentOs.Sharing.Locks
