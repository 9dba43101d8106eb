import WildAgentOs.Lib.Text

/-!
# Isolation claims

`isolation/mod.rs`: the verified tenant, project and actor.  Claims cannot be built but from
identifiers that pass `assert_identifier`.  Where the scope came from is left out: nothing modelled
reads it.

* `IsolationClaims.graphIri`, `objectKeyPrefix`, `vectorNamespace`: the names that are minted;
* `SameScope`, `sameScope_of_append`.
-/

namespace WildAgentOs

inductive IsolationError
  | emptyIdentifier (kind : String)
  | unsafeIdentifier (kind value : String)
  deriving DecidableEq

def isSafeIdentifierByte (c : Char) : Bool := c.isAlphanum || c = '-' || c = '_'

def assertIdentifier (kind value : String) : Except IsolationError Unit :=
  if value = "" then .error (.emptyIdentifier kind)
  else if value = "." ∨ value = ".." ∨ value.toList.all isSafeIdentifierByte = false then
    .error (.unsafeIdentifier kind value)
  else .ok ()

/-- Identifiers of the runs on fixed inputs. -/
theorem tenant_safe_acme : assertIdentifier "tenant_id" "acme" = .ok () := rfl
theorem project_safe_p1 : assertIdentifier "project_id" "p1" = .ok () := rfl
theorem actor_safe_ann : assertIdentifier "actor_id" "ann" = .ok () := rfl
theorem actor_safe_ada : assertIdentifier "actor_id" "ada" = .ok () := rfl

structure IsolationClaims where
  tenantId : String
  projectId : String
  actorId : String
  tenant_safe : assertIdentifier "tenant_id" tenantId = .ok ()
  project_safe : assertIdentifier "project_id" projectId = .ok ()
  actor_safe : assertIdentifier "actor_id" actorId = .ok ()

namespace IsolationClaims

def fromVerified (tenantId projectId actorId : String) : Except IsolationError IsolationClaims :=
  match ht : assertIdentifier "tenant_id" tenantId with
  | .error e => .error e
  | .ok () =>
    match hp : assertIdentifier "project_id" projectId with
    | .error e => .error e
    | .ok () =>
      match ha : assertIdentifier "actor_id" actorId with
      | .error e => .error e
      | .ok () => .ok ⟨tenantId, projectId, actorId, ht, hp, ha⟩

/-- The identifiers of claims are verified again. -/
theorem fromVerified_self (c : IsolationClaims) : fromVerified c.tenantId c.projectId c.actorId = .ok c := by
  unfold fromVerified
  split
  next e he => exact absurd (he.symm.trans c.tenant_safe) (by simp)
  next =>
    split
    next e he => exact absurd (he.symm.trans c.project_safe) (by simp)
    next =>
      split
      next e he => exact absurd (he.symm.trans c.actor_safe) (by simp)
      next => rfl

/-! ### Minted names -/

section

variable (c : IsolationClaims)

/-- `graph_iri`; the identifiers of claims pass the checks again. -/
def graphIri : String := "graph://" ++ c.tenantId ++ "/" ++ c.projectId

def objectKeyPrefix : String := c.tenantId ++ "/" ++ c.projectId ++ "/"

def vectorNamespace : String := "vector://" ++ c.tenantId ++ "/" ++ c.projectId

end

/-- The same tenant and project. -/
def SameScope (a b : IsolationClaims) : Prop := a.tenantId = b.tenantId ∧ a.projectId = b.projectId

theorem SameScope.symm {a b : IsolationClaims} (h : SameScope a b) : SameScope b a := ⟨h.1.symm, h.2.symm⟩

theorem SameScope.trans {a b c : IsolationClaims} (h : SameScope a b) (h' : SameScope b c) : SameScope a c :=
  ⟨h.1.trans h'.1, h.2.trans h'.2⟩

theorem isSafeIdentifierByte_of_assert {kind value : String} (h : assertIdentifier kind value = .ok ()) :
    ∀ c ∈ value.toList, isSafeIdentifierByte c = true := by
  unfold assertIdentifier at h
  split_ifs at h with hempty hsafe
  exact List.all_eq_true.1 (by simpa using (not_or.1 (not_or.1 hsafe).2).2)

theorem notMem_of_assert {kind value : String} (h : assertIdentifier kind value = .ok ()) {c : Char}
    (hc : isSafeIdentifierByte c = false) : c ∉ value.toList := by
  intro hmem
  rw [isSafeIdentifierByte_of_assert h c hmem] at hc
  cases hc

/-- **Two identifiers with a slash between them and a separator behind them are read off the front of a text.** -/
theorem sameScope_of_append {a b : IsolationClaims} {sep : Char} (hsep : isSafeIdentifierByte sep = false)
    {rest rest' : List Char}
    (h : a.tenantId.toList ++ '/' :: (a.projectId.toList ++ sep :: rest) =
      b.tenantId.toList ++ '/' :: (b.projectId.toList ++ sep :: rest')) : SameScope a b := by
  have hslash : isSafeIdentifierByte '/' = false := by decide
  have htenant := Text.eq_of_append_cons h (notMem_of_assert a.tenant_safe hslash)
    (notMem_of_assert b.tenant_safe hslash)
  rw [htenant] at h
  have hrest := (List.cons.inj (List.append_cancel_left h)).2
  have hproject := Text.eq_of_append_cons hrest (notMem_of_assert a.project_safe hsep)
    (notMem_of_assert b.project_safe hsep)
  exact ⟨String.toList_inj.1 htenant, String.toList_inj.1 hproject⟩

end IsolationClaims

end WildAgentOs
