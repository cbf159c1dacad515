import Ningshi.Engine.Verdict

/-!
# The entries of the rules

A verdict belongs to an entry of the rules: an app rule, about its own key, or
a group, about each of its members.  Both kinds are evaluated by `eval` with
flags of their own; `Entry` gives the two kinds one vocabulary, and
`mem_verdicts_iff` says that the verdicts of a tick are those of the entries.
-/

namespace Ningshi

open Std FiniteMap

/-- Do this many counted seconds use up the limit?  A rule without a limit is
never used up. -/
def DurationRule.usedUp (d : DurationRule) (secs : Nat) : Bool :=
  0 < d.limitMinutes && d.limitMinutes.toNat * 60 ≤ secs

theorem overDuration_single {d : DurationRule} {uid : Uid} {group : Option GroupRule}
    {eng : Engine} (h : group.filter GroupRule.sharedPool = none) :
    eng.overDuration d uid group = d.usedUp (eng.scopedUsage uid d.scope) := by
  simp only [Engine.overDuration, DurationRule.usedUp, h]
  by_cases hlimit : d.limitMinutes = 0
  · simp [hlimit]
  · simp [hlimit, UInt32.pos_iff_ne_zero]

theorem overDuration_pooled {d : DurationRule} {uid : Uid} {group : Option GroupRule}
    {g : GroupRule} {eng : Engine} (h : group.filter GroupRule.sharedPool = some g) :
    eng.overDuration d uid group = d.usedUp (eng.pooledUsage g d.scope) := by
  simp only [Engine.overDuration, DurationRule.usedUp, h]
  by_cases hlimit : d.limitMinutes = 0
  · simp [hlimit]
  · simp [hlimit, UInt32.pos_iff_ne_zero]

/-- An app rule under its key, or a group under its id. -/
inductive Entry where
  | app (key : String) (rule : AppRule)
  | group (gid : String) (rule : GroupRule)

namespace Entry

def enabled : Entry → Bool
  | app _ rule => rule.enabled
  | group _ rule => rule.enabled

def ruleSet : Entry → RuleSet
  | app _ rule => rule.rules
  | group _ rule => rule.rules

/-- The keys the entry is about. -/
def keys : Entry → List String
  | app key _ => [key]
  | group _ rule => rule.members

def duration (entry : Entry) : DurationRule := entry.ruleSet.duration

/-- Is an extension active for this entry? -/
def extended (now : Nat) (uid : Uid) (eng : Engine) : Entry → Bool
  | app _ _ => ahead eng.extensionUntil[uid]? now
  | group gid _ => ahead eng.groupExtensionUntil[gid]? now

/-- The usage the limit of the entry is compared with. -/
def counted (uid : Uid) (eng : Engine) : Entry → Nat
  | app _ rule => eng.scopedUsage uid rule.rules.duration.scope
  | group _ rule =>
      if rule.sharedPool then eng.pooledUsage rule rule.rules.duration.scope
      else eng.scopedUsage uid rule.rules.duration.scope

/-- Is the duration limit of the entry used up? -/
def overLimit (uid : Uid) (eng : Engine) (entry : Entry) : Bool :=
  entry.duration.usedUp (entry.counted uid eng)

/-- The cooldown deadline the entry looks at. -/
def cooldown (uid : Uid) (eng : Engine) : Entry → Option Nat
  | app _ _ => eng.cooldownUntil[uid]?
  | group gid rule =>
      if rule.sharedPool then eng.groupCooldownUntil[gid]? else eng.cooldownUntil[uid]?

def cooling (now : Nat) (uid : Uid) (eng : Engine) (entry : Entry) : Bool :=
  ahead (entry.cooldown uid eng) now

/-- The verdict of the entry for one uid. -/
def blocks (now : NowParts) (screenOff : Bool) (uid : Uid) (eng : Engine) : Entry → Bool
  | app _ rule => eng.appBlocks now screenOff rule uid
  | group gid rule => eng.memberBlocks now screenOff gid rule uid

variable (now : NowParts) (screenOff : Bool) (uid : Uid) (eng : Engine)

/-- **The verdict of an entry** is `eval` of its rule set with its own flags. -/
theorem blocks_eq (entry : Entry) :
    entry.blocks now screenOff uid eng =
      (entry.enabled && eval entry.ruleSet now.nowMin now.weekday
        (entry.extended now.epoch uid eng) (entry.overLimit uid eng)
        (entry.cooling now.epoch uid eng) screenOff) := by
  cases entry with
  | app key rule =>
      have hover : eng.overDuration rule.rules.duration uid none =
          rule.rules.duration.usedUp (eng.scopedUsage uid rule.rules.duration.scope) :=
        overDuration_single rfl
      simp only [blocks, Engine.appBlocks, hover]
      rfl
  | group gid rule =>
      have hfilter : (some rule).filter GroupRule.sharedPool =
          if rule.sharedPool then some rule else none := rfl
      cases hshared : rule.sharedPool with
      | false =>
          rw [hshared] at hfilter
          simp only [blocks, Engine.memberBlocks, overDuration_single hfilter, hshared]
          simp [enabled, ruleSet, extended, overLimit, duration, counted, cooling, cooldown,
            hshared]
      | true =>
          rw [hshared] at hfilter
          simp only [blocks, Engine.memberBlocks, overDuration_pooled hfilter, hshared]
          simp [enabled, ruleSet, extended, overLimit, duration, counted, cooling, cooldown,
            hshared]

end Entry

/-- All entries of the rules, app rules first. -/
def Rules.entries (rules : Rules) : List Entry :=
  (rules.apps.toList.map fun p => Entry.app p.1 p.2) ++
    rules.groups.toList.map fun p => Entry.group p.1 p.2

theorem mem_entries_app {rules : Rules} {key : String} {rule : AppRule} :
    Entry.app key rule ∈ rules.entries ↔ rules.apps[key]? = some rule := by
  simp [Rules.entries, ExtTreeMap.mem_toList_iff_getElem?_eq_some]

theorem mem_entries_group {rules : Rules} {gid : String} {rule : GroupRule} :
    Entry.group gid rule ∈ rules.entries ↔ rules.groups[gid]? = some rule := by
  simp [Rules.entries, ExtTreeMap.mem_toList_iff_getElem?_eq_some]

/-- **The verdicts of a tick are those of the entries**, one for each key that
resolves to a uid that may be blocked. -/
theorem mem_verdicts_iff {eng : Engine} {now : NowParts} {screenOff : Bool} {v : Verdict} :
    v ∈ eng.verdicts now screenOff ↔ ∃ entry ∈ eng.rules.entries, v.key ∈ entry.keys ∧
      eng.target v.key = some v.uid ∧ v.block = entry.blocks now screenOff v.uid eng := by
  constructor
  · intro hv
    rcases List.mem_append.mp hv with happ | hgroup
    · obtain ⟨p, hp, hverdict⟩ := List.mem_filterMap.mp happ
      obtain ⟨uid, htarget, rfl⟩ := Option.map_eq_some_iff.mp hverdict
      exact ⟨.app p.1 p.2, List.mem_append_left _ (List.mem_map_of_mem hp),
        List.mem_singleton_self _, htarget, rfl⟩
    · obtain ⟨p, hp, hverdicts⟩ := List.mem_flatMap.mp hgroup
      obtain ⟨member, hmember, hverdict⟩ := List.mem_filterMap.mp hverdicts
      obtain ⟨uid, htarget, rfl⟩ := Option.map_eq_some_iff.mp hverdict
      exact ⟨.group p.1 p.2, List.mem_append_right _ (List.mem_map_of_mem hp), hmember,
        htarget, rfl⟩
  · rintro ⟨entry, hentry, hkey, htarget, hblock⟩
    obtain ⟨key, uid, block⟩ := v
    dsimp only at hkey htarget hblock
    subst hblock
    rcases List.mem_append.mp hentry with happ | hgroup
    · obtain ⟨p, hp, rfl⟩ := List.mem_map.mp happ
      obtain rfl := List.mem_singleton.mp hkey
      refine List.mem_append_left _ (List.mem_filterMap.mpr ⟨p, hp, ?_⟩)
      rw [htarget]
      rfl
    · obtain ⟨p, hp, rfl⟩ := List.mem_map.mp hgroup
      refine List.mem_append_right _ (List.mem_flatMap.mpr ⟨p, hp,
        List.mem_filterMap.mpr ⟨key, hkey, ?_⟩⟩)
      rw [htarget]
      rfl

end Ningshi
