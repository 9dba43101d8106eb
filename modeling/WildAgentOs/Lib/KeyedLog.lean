import Mathlib.Tactic

/-!
# Logs of keyed writes

A state is a function of keys, a log a list of writes of one key each, and replaying the log
over a state performs its writes in order: the last write of a key wins.

* `replay_apply`;
* `replay_replay`: replaying a log over the state it made changes nothing;
* `replay_kept_iff`: replaying only a part of the log over that state changes nothing exactly if
  the last write of every key in the part has the value the key has.
-/

namespace KeyedLog

variable {K β : Type*} [DecidableEq K]

/-- The state after the writes of a log. -/
def replay (base : K → β) (log : List (K × β)) : K → β := log.foldl (fun state w => Function.update state w.1 w.2) base

/-- The value of the last write of a key. -/
def last : List (K × β) → K → Option β
  | [], _ => none
  | w :: log, k => (last log k).or (if w.1 = k then some w.2 else none)

variable {base : K → β} {log kept : List (K × β)} {k : K}

@[simp] theorem replay_nil (base : K → β) : replay base [] = base := rfl

@[simp] theorem replay_cons (base : K → β) (w : K × β) (log : List (K × β)) :
    replay base (w :: log) = replay (Function.update base w.1 w.2) log := rfl

@[simp] theorem last_nil (k : K) : last ([] : List (K × β)) k = none := rfl

theorem last_append (log log' : List (K × β)) (k : K) : last (log ++ log') k = (last log' k).or (last log k) := by
  induction log with
  | nil => simp
  | cons w log ih => rw [List.cons_append, last, ih, last, Option.or_assoc]

/-- **The last write of a key wins.** -/
theorem replay_apply (base : K → β) (log : List (K × β)) (k : K) : replay base log k = (last log k).getD (base k) := by
  induction log generalizing base with
  | nil => rfl
  | cons w log ih =>
    rw [replay_cons, ih, last]
    cases last log k with
    | some b => rfl
    | none =>
      by_cases hk : w.1 = k
      · subst hk
        simp
      · simp [hk, Function.update_of_ne (Ne.symm hk)]

theorem replay_eq_self_iff : replay base log = base ↔ ∀ k b, last log k = some b → b = base k := by
  constructor
  · intro h k b hlast
    have hk : replay base log k = base k := congrFun h k
    rw [replay_apply, hlast] at hk
    exact hk
  · intro h
    funext k
    rw [replay_apply]
    cases hlast : last log k with
    | none => rfl
    | some b => exact h k b hlast

theorem replay_kept_iff :
    replay (replay base log) kept = replay base log ↔ ∀ k b, last kept k = some b → b = replay base log k :=
  replay_eq_self_iff

/-- The writes of the part are the last ones of their keys in the whole log. -/
theorem replay_of_kept (h : ∀ k b, last kept k = some b → last log k = some b) :
    replay (replay base log) kept = replay base log := by
  refine replay_kept_iff.2 ?_
  intro k b hlast
  rw [replay_apply, h k b hlast]
  rfl

end KeyedLog
