import Mathlib.Tactic

/-!
# An allowance that is granted in parts

Units are granted up to a cap, each worth a number of seconds.  A grant moves a
deadline: it stacks on a deadline that is still ahead, and counts from now
otherwise.  The allowance is active while its deadline is ahead.

However grants and seconds are interleaved, the seconds it has been active and
those it still will be are never more than what the granted units are worth
(`Sound.second`, `Sound.grant`).
-/

/-- A clock, what has been granted, the deadline and the seconds used up. -/
structure Allowance where
  clock : Nat
  granted : Nat
  deadline : Option Nat
  /-- the seconds during which the allowance was active so far -/
  active : Nat

namespace Allowance

variable {cap worth add : Nat} {a : Allowance}

/-- Is the deadline ahead? -/
def running (a : Allowance) : Bool := a.deadline.any fun t => a.clock < t

/-- The clock moves on by a second. -/
def second (a : Allowance) : Allowance :=
  { a with
    clock := a.clock + 1
    active := if a.running then a.active + 1 else a.active }

/-- Units are granted, each worth so many seconds. -/
def grant (worth add : Nat) (a : Allowance) : Allowance :=
  { a with
    granted := a.granted + add
    deadline := some (max (a.deadline.getD 0) a.clock + add * worth) }

/-- The seconds that are left. -/
def ahead (a : Allowance) : Nat := a.deadline.getD 0 - a.clock

/-- No more is granted than the cap, and no more used than granted. -/
structure Sound (cap worth : Nat) (a : Allowance) : Prop where
  granted_le : a.granted ≤ cap
  active_le : a.active + a.ahead ≤ worth * a.granted

/-- Nothing has been granted yet. -/
theorem sound_of_fresh (hgranted : a.granted = 0) (hdeadline : a.deadline = none)
    (hactive : a.active = 0) : a.Sound cap worth := by
  refine ⟨by omega, ?_⟩
  rw [ahead, hdeadline, hactive, Option.getD_none]
  omega

/-- A second that is active is one of those that were left. -/
theorem Sound.second (h : a.Sound cap worth) : a.second.Sound cap worth := by
  refine ⟨h.granted_le, ?_⟩
  have hle := h.active_le
  unfold ahead at hle
  show (if a.running then a.active + 1 else a.active) + (a.deadline.getD 0 - (a.clock + 1)) ≤
    worth * a.granted
  cases hdeadline : a.deadline with
  | none =>
      rw [hdeadline, Option.getD_none] at hle
      simp only [running, hdeadline, Option.any_none, Bool.false_eq_true, if_false,
        Option.getD_none]
      omega
  | some t =>
      rw [hdeadline, Option.getD_some] at hle
      simp only [running, hdeadline, Option.any_some, decide_eq_true_eq, Option.getD_some]
      split_ifs <;> omega

/-- A grant leaves what it is worth. -/
theorem ahead_grant (worth add : Nat) (a : Allowance) :
    (a.grant worth add).ahead = a.ahead + add * worth := by
  show max (a.deadline.getD 0) a.clock + add * worth - a.clock =
    a.deadline.getD 0 - a.clock + add * worth
  omega

/-- A grant within the cap. -/
theorem Sound.grant (h : a.Sound cap worth) (hcap : a.granted + add ≤ cap) :
    (a.grant worth add).Sound cap worth := by
  refine ⟨hcap, ?_⟩
  rw [ahead_grant]
  calc a.active + (a.ahead + add * worth)
      = a.active + a.ahead + add * worth := by omega
    _ ≤ worth * a.granted + add * worth := Nat.add_le_add_right h.active_le _
    _ = worth * (a.granted + add) := by ring

end Allowance
