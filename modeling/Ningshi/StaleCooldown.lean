import Ningshi.Daemon
import Ningshi.Engine.Entries

/-!
# Cooldowns that outlive their rule

A cooldown is started for a uid or a group by a rule that has a cooldown
period, and is looked up again by uid or group id only.  A rule without such a
period reads the same maps, so a deadline that another rule has left behind,
or the same rule before it was edited, can decide its verdict.

`timerFree_iff` says exactly when the verdict of such a rule depends on neither
map: an extension is active, or the rule blocks without any cooldown.
-/

namespace Ningshi

open Std FiniteMap Transition

/-- Other cooldowns, everything else the same. -/
def Engine.withCooldowns (cooldowns : UidMap Nat) (groupCooldowns : KeyMap Nat)
    (eng : Engine) : Engine :=
  { eng with cooldownUntil := cooldowns, groupCooldownUntil := groupCooldowns }

/-- Other usage counters, everything else the same. -/
def Engine.withUsage (usageSeconds usageFg : UidMap Nat) (eng : Engine) : Engine :=
  { eng with usageSeconds := usageSeconds, usageFg := usageFg }

/-- The verdict of an entry for a uid depends on no cooldown, and without a
limit on no usage counter either. -/
structure TimerFree (now : NowParts) (screenOff : Bool) (uid : Uid) (eng : Engine)
    (entry : Entry) : Prop where
  cooldowns : ∀ cooldowns groupCooldowns,
    entry.blocks now screenOff uid (eng.withCooldowns cooldowns groupCooldowns) =
      entry.blocks now screenOff uid eng
  usage : entry.duration.limitMinutes = 0 → ∀ usageSeconds usageFg,
    entry.blocks now screenOff uid (eng.withUsage usageSeconds usageFg) =
      entry.blocks now screenOff uid eng

/-- What the rule set of an entry says when no cooldown is running. -/
def Entry.blocksUncooled (now : NowParts) (screenOff : Bool) (uid : Uid) (eng : Engine)
    (entry : Entry) : Bool :=
  eval entry.ruleSet now.nowMin now.weekday (entry.extended now.epoch uid eng)
    (entry.overLimit uid eng) false screenOff

section Flags

variable {now : NowParts} {screenOff : Bool} {uid : Uid} {eng : Engine} {entry : Entry}

theorem blocks_withCooldowns (cooldowns : UidMap Nat) (groupCooldowns : KeyMap Nat) :
    entry.blocks now screenOff uid (eng.withCooldowns cooldowns groupCooldowns) =
      (entry.enabled && eval entry.ruleSet now.nowMin now.weekday
        (entry.extended now.epoch uid eng) (entry.overLimit uid eng)
        (entry.cooling now.epoch uid (eng.withCooldowns cooldowns groupCooldowns)) screenOff) := by
  rw [Entry.blocks_eq]
  cases entry with
  | app key rule => rfl
  | group gid rule => rfl

/-- A running cooldown blocks whatever no extension exempts. -/
theorem eval_of_cooldown (rules : RuleSet) (nowMin weekday : Nat)
    (extActive overDuration screenOff : Bool) :
    eval rules nowMin weekday extActive overDuration true screenOff = !extActive := by
  cases extActive with
  | true => rfl
  | false => simp [eval]

/-- A cooldown makes no difference to what is exempted or blocks anyway. -/
theorem eval_cooldown_irrelevant {rules : RuleSet} {nowMin weekday : Nat}
    {extActive overDuration screenOff : Bool}
    (h : extActive = true ∨
      eval rules nowMin weekday extActive overDuration false screenOff = true)
    (cooldown : Bool) :
    eval rules nowMin weekday extActive overDuration cooldown screenOff =
      eval rules nowMin weekday extActive overDuration false screenOff := by
  cases cooldown with
  | false => rfl
  | true =>
      rw [eval_of_cooldown]
      cases extActive with
      | true => rfl
      | false => exact (h.resolve_left Bool.false_ne_true).symm

/-- Some maps have a cooldown running for the entry. -/
theorem exists_cooling (now : Nat) (uid : Uid) (eng : Engine) (entry : Entry) :
    ∃ cooldowns groupCooldowns,
      entry.cooling now uid (eng.withCooldowns cooldowns groupCooldowns) = true := by
  have hahead : ahead (some (now + 1)) now = true := by simp [ahead]
  cases entry with
  | app key rule =>
      refine ⟨insertAll [(uid, now + 1)] ∅, ∅, ?_⟩
      simpa [Entry.cooling, Entry.cooldown, Engine.withCooldowns, insertAll] using hahead
  | group gid rule =>
      refine ⟨insertAll [(uid, now + 1)] ∅, insertAll [(gid, now + 1)] ∅, ?_⟩
      simpa [Entry.cooling, Entry.cooldown, Engine.withCooldowns, insertAll] using hahead

/-- With empty maps none is running. -/
theorem cooling_empty (now : Nat) (uid : Uid) (eng : Engine) (entry : Entry) :
    entry.cooling now uid (eng.withCooldowns ∅ ∅) = false := by
  cases entry with
  | app key rule => simp [Entry.cooling, Entry.cooldown, Engine.withCooldowns, ahead]
  | group gid rule => simp [Entry.cooling, Entry.cooldown, Engine.withCooldowns, ahead]

/-- Without a limit the counters are not looked at. -/
theorem blocks_withUsage_of_noLimit (hlimit : entry.duration.limitMinutes = 0)
    (usageSeconds usageFg : UidMap Nat) :
    entry.blocks now screenOff uid (eng.withUsage usageSeconds usageFg) =
      entry.blocks now screenOff uid eng := by
  have hover (eng : Engine) : entry.overLimit uid eng = false := by
    simp [Entry.overLimit, DurationRule.usedUp, hlimit]
  rw [Entry.blocks_eq, Entry.blocks_eq, hover, hover]
  cases entry with
  | app key rule => rfl
  | group gid rule => rfl

/-- **Exactly when the verdict of an enabled entry is free of timers**, whether
or not the entry has a cooldown of its own. -/
theorem timerFree_iff (henabled : entry.enabled = true) :
    TimerFree now screenOff uid eng entry ↔
      entry.extended now.epoch uid eng = true ∨
        entry.blocksUncooled now screenOff uid eng = true := by
  constructor
  · intro hfree
    obtain ⟨cooldowns, groupCooldowns, hcooling⟩ := exists_cooling now.epoch uid eng entry
    -- The same verdict with a cooldown running and with none.
    have hsame := (hfree.cooldowns cooldowns groupCooldowns).trans (hfree.cooldowns ∅ ∅).symm
    rw [blocks_withCooldowns, blocks_withCooldowns, hcooling, cooling_empty, eval_of_cooldown,
      henabled, Bool.true_and, Bool.true_and] at hsame
    cases hext : entry.extended now.epoch uid eng with
    | true => exact .inl rfl
    | false =>
        rw [hext] at hsame
        refine .inr ?_
        rw [Entry.blocksUncooled, hext]
        exact hsame.symm
  · intro h
    have hsame := eval_cooldown_irrelevant h
    refine ⟨fun cooldowns groupCooldowns => ?_, fun hlimit => blocks_withUsage_of_noLimit hlimit⟩
    rw [blocks_withCooldowns, Entry.blocks_eq, hsame, hsame (entry.cooling _ _ _)]

end Flags

/-- An always-on app needs no cooldown to be blocked. -/
theorem timerFree_alwaysOn :
    TimerFree (nowParts none 100) false 10001 (Engine.blank .start)
      (.app "0:com.game" ⟨true, .alwaysBlocking⟩) :=
  (timerFree_iff rfl).mpr (.inr (by decide))

/-! ## A limit that is taken back -/

/-- One app with a duration rule. -/
def timedRules (d : DurationRule) : Rules :=
  { Rules.default with
    apps := insertAll [("0:com.game", ⟨true, { RuleSet.default with duration := d }⟩)] ∅ }

/-- Its files, the rules written at the given time. -/
def timedFiles (d : DurationRule) (mtime : Nat) : Fs :=
  ⟨some ⟨.json (timedRules d).toJson, mtime⟩, none, none, some ⟨"com.game 10001", 1⟩⟩

/-- The app is in the foreground. -/
def foregroundEnv (epoch : Nat) : Env :=
  { Env.quiet epoch with
    procs := { ProcView.quiet with
      topApp := [some [4000]]
      pidUid := fun pid => if pid = 4000 then some 10001 else none } }

/-- A minute in the foreground uses up a limit of one minute. -/
def limitUsedUp : Sys :=
  (Op.tick (foregroundEnv 160)).perform ((Op.tick (foregroundEnv 100)).perform
    (Engine.new (.quiet 100) (timedFiles ⟨1, 10, "foreground"⟩ 1)))

/-- Then the limit is removed from the rules. -/
def limitTakenBack : Sys := { limitUsedUp with fs := timedFiles ⟨0, 0, "foreground"⟩ 2 }

theorem limitTakenBack_reachable : daemon.Reachable (.up limitTakenBack) := by
  have hstarted : daemon.Reachable
      (.up (Engine.new (.quiet 100) (timedFiles ⟨1, 10, "foreground"⟩ 1))) :=
    reachable_new trivial
  have husedUp : daemon.Reachable (.up limitUsedUp) :=
    reachable_perform (reachable_perform hstarted trivial) trivial
  have hedited : daemon.step (.up limitUsedUp) (.files (timedFiles ⟨0, 0, "foreground"⟩ 2))
      (.up limitTakenBack) := rfl
  exact .step husedUp trivial hedited

/-- The verdicts of the next tick still look at the cooldown. -/
theorem not_timerFree :
    ¬ ∀ (env : Env) (s mid : Sys), daemon.Reachable (.up s) → refresh env s = .ok mid →
      ∀ entry ∈ mid.eng.rules.entries, entry.enabled = true → entry.duration.cools = false →
        ∀ key ∈ entry.keys, ∀ uid, mid.eng.target key = some uid →
          TimerFree ((mid.eng.prepare env).nowParts env.epoch)
            ((mid.eng.prepare env).screenFlag env) uid (mid.eng.prepare env) entry := by
  intro h
  have hrefresh : (refresh (.quiet 161) limitTakenBack).isOk = true := by decide +kernel
  have hfree := (h (.quiet 161) limitTakenBack _ limitTakenBack_reachable
    (Outcome.eq_ok_of_isOk hrefresh)
    (.app "0:com.game" ⟨true, { RuleSet.default with duration := ⟨0, 0, "foreground"⟩ }⟩)
    (mem_entries_app.mpr (by decide +kernel)) rfl rfl "0:com.game" (List.mem_singleton_self _)
    10001 (by decide +kernel)).cooldowns ∅ ∅
  revert hfree
  decide +kernel

end Ningshi
