import Ningshi.Clock
import Ningshi.Rules

/-!
# Time windows and the verdict: `in_window` and `eval`

`eval` is the verdict of one rule set, in the order of its priorities:
extension, always-on, screen lock, cooldown, used-up duration, time windows.
Times of day are parsed in `u32` arithmetic.
-/

namespace Ningshi

/-- `HH:MM` as a minute of the day; a part that is not a `u32` counts as 0. -/
def parseHhmm (s : String) : Nat :=
  match RustStr.splitOnce ':' s.toList with
  | none => 0
  | some (h, m) =>
      ((RustStr.parseUnsigned (2 ^ 32) h).getD 0 * 60 +
        (RustStr.parseUnsigned (2 ^ 32) m).getD 0) % 2 ^ 32

/-- An empty day set means every day. -/
def daysAllow (days : List UInt8) (weekday : Nat) : Bool :=
  days.isEmpty || days.any fun d => d.toNat == weekday

def dayAllowed (w : TimeWindow) (weekday : Nat) : Bool := daysAllow w.days weekday

def prevWeekday (weekday : Nat) : Nat := if weekday ≤ 1 then 7 else weekday - 1

/-- Is this window active at this minute of this weekday?  A window that
crosses midnight belongs to the day it starts on. -/
def inWindow (w : TimeWindow) (nowMin weekday : Nat) : Bool :=
  let start := parseHhmm w.start
  let stop := parseHhmm w.stop
  if start = stop then false
  else if start < stop then dayAllowed w weekday && (start ≤ nowMin && nowMin < stop)
  else if start ≤ nowMin then dayAllowed w weekday
  else if nowMin < stop then dayAllowed w (prevWeekday weekday)
  else false

/-- Is any window of the rule set active? -/
def inAnyWindow (rules : RuleSet) (nowMin weekday : Nat) : Bool :=
  rules.timeWindows.windows.any fun w => inWindow w nowMin weekday

/-- The verdict of one rule set: `true` blocks. -/
def eval (rules : RuleSet) (nowMin weekday : Nat)
    (extActive overDuration cooldown screenOff : Bool) : Bool :=
  if extActive then false
  else if rules.alwaysOn then true
  else if rules.lockBlock && screenOff then true
  else if cooldown then true
  else if overDuration then true
  else if !rules.timeWindows.windows.isEmpty then
    -- Only the literal "block" blocks inside; any other mode blocks outside.
    if rules.timeWindows.mode == "block" then inAnyWindow rules nowMin weekday
    else !inAnyWindow rules nowMin weekday
  else false

/-- An active extension exempts from everything else. -/
@[simp] theorem eval_of_extActive (rules : RuleSet) (nowMin weekday : Nat)
    (overDuration cooldown screenOff : Bool) :
    eval rules nowMin weekday true overDuration cooldown screenOff = false := rfl

/-- The default rule set, always on. -/
def RuleSet.alwaysBlocking : RuleSet := { RuleSet.default with alwaysOn := true }

/-- The rules that block one key at all times. -/
def Rules.blocking (key : String) : Rules :=
  { Rules.default with apps := FiniteMap.insertAll [(key, ⟨true, .alwaysBlocking⟩)] ∅ }

end Ningshi
