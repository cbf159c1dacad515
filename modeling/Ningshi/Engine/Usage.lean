import Ningshi.Engine.State
import Ningshi.Window

/-!
# Usage accounting and cooldowns

Usage is counted for the uids that carry a duration limit, by the time since
the last tick, at most a minute.  A rule with a cooldown period blocks from the
moment its limit is used up until a deadline; when the deadline has passed the
usage starts again at zero.  The cycle of a uid and the pooled cycle of a
shared group are maintained one job after the other.
-/

namespace Ningshi

open Std FiniteMap

/-! ## Which rules ask for what -/

/-- Every enabled rule set: app rules and group rules. -/
def Rules.enabledSets (rules : Rules) : List RuleSet :=
  ((rules.apps.toList.map Prod.snd).filter AppRule.enabled).map AppRule.rules ++
    ((rules.groups.toList.map Prod.snd).filter GroupRule.enabled).map GroupRule.rules

def Rules.needsUsage (rules : Rules) : Bool :=
  rules.enabledSets.any fun set => 0 < set.duration.limitMinutes

def Rules.needsLiveScan (rules : Rules) : Bool :=
  rules.enabledSets.any fun set =>
    0 < set.duration.limitMinutes && set.duration.scope != "foreground"

def Rules.needsScreen (rules : Rules) : Bool := rules.enabledSets.any RuleSet.lockBlock

/-- The uids of a list of keys, unresolved ones left out. -/
def Engine.uidsOf (keys : List String) (eng : Engine) : List Uid :=
  keys.filterMap fun key => eng.uidOf[key]?

/-- The uids that have a duration limit configured. -/
def Engine.durationTargets (eng : Engine) : UidSet :=
  let apps := eng.rules.apps.toList.filter fun p =>
    p.2.enabled && 0 < p.2.rules.duration.limitMinutes
  let groups := (eng.rules.groups.toList.map Prod.snd).filter fun g =>
    g.enabled && 0 < g.rules.duration.limitMinutes
  .ofList (eng.uidsOf (apps.map Prod.fst) ++
    groups.flatMap fun g => eng.uidsOf g.members) compare

/-! ## Usage -/

def Engine.usageOf (uid : Uid) (eng : Engine) : Nat := eng.usageSeconds[uid]?.getD 0

def Engine.fgOf (uid : Uid) (eng : Engine) : Nat := eng.usageFg[uid]?.getD 0

/-- Usage under a counting scope; an unknown scope counts the foreground. -/
def Engine.scopedUsage (uid : Uid) (scope : String) (eng : Engine) : Nat :=
  if scope == "background" then eng.usageOf uid - eng.fgOf uid
  else if scope == "any" then eng.usageOf uid
  else eng.fgOf uid

/-- The usage of a group, summed over its members; `Engine.pooledSum` is the same sum
of `u64`s. -/
def Engine.pooledUsage (g : GroupRule) (scope : String) (eng : Engine) : Nat :=
  ((eng.uidsOf g.members).map fun uid => eng.scopedUsage uid scope).sum

/-- Is the limit of a duration rule used up? -/
def Engine.overDuration (d : DurationRule) (uid : Uid) (group : Option GroupRule)
    (eng : Engine) : Bool :=
  if d.limitMinutes = 0 then false
  else
    -- only a shared pool is compared as a whole
    let secs := match group.filter GroupRule.sharedPool with
      | some g => eng.pooledUsage g d.scope
      | none => eng.scopedUsage uid d.scope
    d.limitMinutes.toNat * 60 ≤ secs

/-- The counters of one uid after some elapsed time.  As `u64`s they do not wrap
(`countersFit_addUsage`). -/
def Engine.addUsage (elapsed : Nat) (live fg : UidSet) (eng : Engine) (uid : Uid) : Engine :=
  { eng with
    usageSeconds :=
      if uid ∈ live then eng.usageSeconds.insert uid (eng.usageOf uid + elapsed)
      else eng.usageSeconds
    usageFg :=
      if uid ∈ fg then eng.usageFg.insert uid (eng.fgOf uid + elapsed) else eng.usageFg }

/-- Count the time since the last tick. -/
def Engine.accrue (env : Env) (eng : Engine) : Engine :=
  -- a clock that was set back counts no time
  let elapsed := min (eng.lastTick.elim 0 fun t => env.epoch - t) maxTickSecs
  let eng := { eng with lastTick := some env.epoch }
  if 0 < elapsed && eng.rules.needsUsage then
    let targets := eng.durationTargets
    let topPids := topAppPids env.procs.topApp
    let seen := uidsSnapshot env.procs topPids eng.rules.needsLiveScan targets
    targets.toList.foldl (Engine.addUsage elapsed seen.1 seen.2) eng
  else eng

/-! ## Cooldowns -/

/-- Does this duration rule have a cooldown? -/
def DurationRule.cools (d : DurationRule) : Bool := 0 < d.limitMinutes && 0 < d.freezeMinutes

/-- The per-uid jobs: enabled app rules, then the members of enabled groups
that do not share a pool. -/
def Engine.cooldownJobs (eng : Engine) : List (Uid × DurationRule) :=
  let apps := eng.rules.apps.toList.flatMap fun p =>
    if p.2.enabled && p.2.rules.duration.cools then
      (eng.uidsOf [p.1]).map fun uid => (uid, p.2.rules.duration)
    else []
  let groups := eng.rules.groups.toList.flatMap fun p =>
    if p.2.enabled && p.2.rules.duration.cools && !p.2.sharedPool then
      (eng.uidsOf p.2.members).map fun uid => (uid, p.2.rules.duration)
    else []
  apps ++ groups

/-- The pooled jobs. -/
def Engine.groupJobs (eng : Engine) : List (String × GroupRule) :=
  eng.rules.groups.toList.filter fun p =>
    p.2.enabled && p.2.rules.duration.cools && p.2.sharedPool

/-- A cooldown that is over is removed, and usage starts again. -/
def Engine.endUidCooldown (uid : Uid) (eng : Engine) : Engine :=
  { eng with
    cooldownUntil := eng.cooldownUntil.erase uid
    usageSeconds := eng.usageSeconds.insert uid 0
    usageFg := eng.usageFg.insert uid 0 }

/-- A cooldown starts when the limit is used up. -/
def Engine.startUidCooldown (now : Nat) (uid : Uid) (d : DurationRule) (eng : Engine) : Engine :=
  if d.limitMinutes.toNat * 60 ≤ eng.scopedUsage uid d.scope then
    { eng with cooldownUntil := eng.cooldownUntil.insert uid (now + d.freezeMinutes.toNat * 60) }
  else eng

def Engine.maintainUidCooldown (now : Nat) (eng : Engine) (job : Uid × DurationRule) : Engine :=
  match eng.cooldownUntil[job.1]? with
  | none => eng.startUidCooldown now job.1 job.2
  | some deadline =>
      if now < deadline then eng
      -- the cycle starts again within the same tick
      else (eng.endUidCooldown job.1).startUidCooldown now job.1 job.2

def Engine.endGroupCooldown (gid : String) (g : GroupRule) (eng : Engine) : Engine :=
  { eng with
    groupCooldownUntil := eng.groupCooldownUntil.erase gid
    usageSeconds := (eng.uidsOf g.members).foldl (fun m uid => m.insert uid 0) eng.usageSeconds
    usageFg := (eng.uidsOf g.members).foldl (fun m uid => m.insert uid 0) eng.usageFg }

def Engine.startGroupCooldown (now : Nat) (gid : String) (g : GroupRule) (eng : Engine) :
    Engine :=
  if g.rules.duration.limitMinutes.toNat * 60 ≤ eng.pooledUsage g g.rules.duration.scope then
    { eng with groupCooldownUntil :=
        eng.groupCooldownUntil.insert gid (now + g.rules.duration.freezeMinutes.toNat * 60) }
  else eng

def Engine.maintainGroupCooldown (now : Nat) (eng : Engine) (job : String × GroupRule) : Engine :=
  match eng.groupCooldownUntil[job.1]? with
  | none => eng.startGroupCooldown now job.1 job.2
  | some deadline =>
      if now < deadline then eng
      else (eng.endGroupCooldown job.1 job.2).startGroupCooldown now job.1 job.2

/-- All jobs of a tick, those of single uids first. -/
def Engine.maintainCooldowns (now : Nat) (eng : Engine) : Engine :=
  eng.groupJobs.foldl (Engine.maintainGroupCooldown now)
    (eng.cooldownJobs.foldl (Engine.maintainUidCooldown now) eng)

/-! ## What is left alone -/

/-- `eng'` differs from `eng` in usage counters and cooldowns only. -/
def SameButUsage (eng eng' : Engine) : Prop :=
  ∃ usageSeconds usageFg cooldowns groupCooldowns, eng' =
    { eng with
      usageSeconds := usageSeconds
      usageFg := usageFg
      cooldownUntil := cooldowns
      groupCooldownUntil := groupCooldowns }

theorem SameButUsage.refl (eng : Engine) : SameButUsage eng eng := ⟨_, _, _, _, rfl⟩

theorem SameButUsage.trans {a b c : Engine} (hab : SameButUsage a b) (hbc : SameButUsage b c) :
    SameButUsage a c := by
  obtain ⟨_, _, _, _, rfl⟩ := hab
  obtain ⟨usageSeconds, usageFg, cooldowns, groupCooldowns, rfl⟩ := hbc
  exact ⟨usageSeconds, usageFg, cooldowns, groupCooldowns, rfl⟩

/-- A loop of such steps. -/
theorem SameButUsage.foldl {α : Type} {f : Engine → α → Engine}
    (hf : ∀ eng a, SameButUsage eng (f eng a)) (l : List α) (eng : Engine) :
    SameButUsage eng (l.foldl f eng) := by
  induction l generalizing eng with
  | nil => exact .refl eng
  | cons a l ih => exact (hf eng a).trans (ih (f eng a))

theorem sameButUsage_accrue (env : Env) (eng : Engine) :
    SameButUsage { eng with lastTick := some env.epoch } (eng.accrue env) := by
  simp only [Engine.accrue]
  split_ifs
  · exact SameButUsage.foldl (fun eng uid => ⟨_, _, _, _, rfl⟩) _ _
  · exact .refl _

private theorem sameButUsage_startUidCooldown (now : Nat) (uid : Uid) (d : DurationRule)
    (eng : Engine) : SameButUsage eng (eng.startUidCooldown now uid d) := by
  unfold Engine.startUidCooldown
  split_ifs
  · exact ⟨_, _, _, _, rfl⟩
  · exact .refl _

private theorem sameButUsage_startGroupCooldown (now : Nat) (gid : String) (g : GroupRule)
    (eng : Engine) : SameButUsage eng (eng.startGroupCooldown now gid g) := by
  unfold Engine.startGroupCooldown
  split_ifs
  · exact ⟨_, _, _, _, rfl⟩
  · exact .refl _

theorem sameButUsage_maintainUidCooldown (now : Nat) (eng : Engine) (job : Uid × DurationRule) :
    SameButUsage eng (eng.maintainUidCooldown now job) := by
  unfold Engine.maintainUidCooldown
  split
  next => exact sameButUsage_startUidCooldown now job.1 job.2 eng
  next =>
      split_ifs
      · exact .refl _
      · exact SameButUsage.trans ⟨_, _, _, _, rfl⟩ (sameButUsage_startUidCooldown now job.1 job.2 _)

theorem sameButUsage_maintainGroupCooldown (now : Nat) (eng : Engine)
    (job : String × GroupRule) : SameButUsage eng (eng.maintainGroupCooldown now job) := by
  unfold Engine.maintainGroupCooldown
  split
  next => exact sameButUsage_startGroupCooldown now job.1 job.2 eng
  next =>
      split_ifs
      · exact .refl _
      · exact SameButUsage.trans ⟨_, _, _, _, rfl⟩
          (sameButUsage_startGroupCooldown now job.1 job.2 _)

theorem sameButUsage_maintainCooldowns (now : Nat) (eng : Engine) :
    SameButUsage eng (eng.maintainCooldowns now) :=
  (SameButUsage.foldl (sameButUsage_maintainUidCooldown now) _ _).trans
    (SameButUsage.foldl (sameButUsage_maintainGroupCooldown now) _ _)

/-- The first tick counts no time. -/
theorem accrue_of_first {env : Env} {eng : Engine} (h : eng.lastTick = none) :
    eng.accrue env = { eng with lastTick := some env.epoch } := by
  simp [Engine.accrue, h]

end Ningshi
