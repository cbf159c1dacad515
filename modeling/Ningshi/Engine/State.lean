import Ningshi.Clock
import Ningshi.Gate
import Ningshi.Processes
import Ningshi.Rules

/-!
# The engine record, its files and the state file

`Engine` carries the fields of the source's struct, `Fs` the files the daemon
works with and `Env` what one daemon operation meets outside: its clock
readings, the file operations that fail, the answers of the helper binaries,
the processes, the kernel's answers and the orders in which its hash maps
happen to be listed.  A time or a counter (`u64`) is a natural number, a file
time an opaque number that is only compared.  What is added to a counter is at most
the time that has passed, or one for each kill, and a deadline is a `u32` of minutes
ahead of the clock, so that none of them reaches `2 ^ 64` in a run of the daemon;
`countersFit_addUsage` says so of the usage.  `PoolUsage` is about sums that might.

The state file is written with every field and read back only when every field
is there; `StateFile.ofJson_toJson` is the round trip.
-/

namespace Ningshi

open Std FiniteMap JsonDoc

def maxTickSecs : Nat := 60
def stateSaveSecs : Nat := 60
def sweepSecs : Nat := 60
def activeTickSecs : Nat := 15
def sweepTickSecs : Nat := sweepSecs
def idleTickSecs : Nat := 300

/-- Where the rule set in memory came from. -/
inductive RulesSource where
  | file
  | backup
  | default
  deriving DecidableEq

structure Engine where
  gate : Gate
  rules : Rules
  /-- `user:pkg` to uid -/
  uidOf : UidOf
  blocked : UidSet
  /-- time of the rules file that was last recorded -/
  lastMtime : Option Nat
  /-- time of the package list that was last synced -/
  lastPkgMtime : Option Nat
  extensionUntil : UidMap Nat
  groupExtensionUntil : KeyMap Nat
  extGrantedToday : UidMap UInt32
  groupExtGrantedToday : KeyMap UInt32
  cooldownUntil : UidMap Nat
  groupCooldownUntil : KeyMap Nat
  /-- usage in seconds, running at all -/
  usageSeconds : UidMap Nat
  /-- usage in seconds, in the foreground -/
  usageFg : UidMap Nat
  killCount : UidMap Nat
  lastTick : Option Nat
  lastDay : Option Int
  tzSecs : Option Int
  /-- the source's `protected`: packages that may never be blocked -/
  protectedPkgs : ExtTreeSet String compare
  screenOff : Option Bool
  rulesSource : RulesSource
  lastInterval : Nat
  started : Nat
  lastSave : Nat
  lastSweep : Nat
  deriving DecidableEq

/-- The record `Engine::new` starts from, before it reads any file. -/
def Engine.blank (gate : Gate) : Engine where
  gate := gate
  rules := .default
  uidOf := ∅
  blocked := ∅
  lastMtime := none
  lastPkgMtime := none
  extensionUntil := ∅
  groupExtensionUntil := ∅
  extGrantedToday := ∅
  groupExtGrantedToday := ∅
  cooldownUntil := ∅
  groupCooldownUntil := ∅
  usageSeconds := ∅
  usageFg := ∅
  killCount := ∅
  lastTick := none
  lastDay := none
  tzSecs := none
  protectedPkgs := ∅
  screenOff := none
  rulesSource := .default
  lastInterval := activeTickSecs
  started := 0
  lastSave := 0
  lastSweep := 0

/-- `now_parts` at a clock reading. -/
def Engine.nowParts (eng : Engine) (epoch : Nat) : NowParts := Ningshi.nowParts eng.tzSecs epoch

/-! ## Files and surroundings -/

/-- A file whose time of last change is looked at. -/
structure File (α : Type) where
  content : α
  mtime : Nat

structure Fs where
  /-- `rules.json` -/
  rules : Option (File Text)
  /-- `rules.json.ok` -/
  backup : Option Text
  /-- `state.json` -/
  state : Option Text
  /-- `packages.list` -/
  packages : Option (File String)

/-- The file operations of the engine, one for each place in the source. -/
inductive FsCall where
  /-- `metadata` in `reload_if_changed` -/
  | statRules
  /-- `Rules::load` in `reload` -/
  | reloadRules
  /-- `Rules::load` of the live file in `load_rules` -/
  | loadRules
  /-- `Rules::load` of the backup in `load_rules` -/
  | loadBackup
  /-- `copy` in `refresh_backup` -/
  | copyBackup
  /-- `resolve_uids` in `reload` -/
  | reloadPackages
  /-- `metadata` in `reload` -/
  | restatRules
  /-- `metadata` in `sync_packages` -/
  | statPackages
  /-- `resolve_uids` in `sync_packages` -/
  | syncPackages
  /-- `read_to_string` in `load_state` -/
  | readState
  /-- `write` and `rename` in `save_state` -/
  | writeState
  /-- `write`, `set_permissions` and `rename` in `apply_rules_file` -/
  | writeRules
  deriving DecidableEq

/-- What one operation of the daemon meets. -/
structure Env where
  /-- the clock reading the operation works with -/
  epoch : Nat
  /-- the reading `save_state` takes -/
  saveEpoch : Nat
  /-- the reading `tick_interval_secs` takes -/
  sleepEpoch : Nat
  /-- the file operations that fail -/
  fails : FsCall → Bool
  /-- what a failed copy makes of the backup -/
  brokenCopy : Option Text → Option Text
  /-- the names in `/data/system/users` -/
  userDirs : List String
  /-- answer of `settings get secure default_input_method` -/
  imeLine : Option String
  /-- answer of `cmd package resolve-activity` for the launcher -/
  homeLine : Option String
  procs : ProcView
  /-- does the kernel accept an update of the block map for this uid? -/
  gateOk : Uid → Bool
  /-- listing order of the new uid map in `sync_packages` -/
  uidOrder : IterOrder (String × Uid)
  /-- listing order of the verdicts in `tick` -/
  wantOrder : IterOrder (Uid × Bool)
  /-- the time a rules file gets that is written now -/
  writeMtime : Nat

/-- Nothing fails, nothing runs and every clock reading is the same. -/
def Env.quiet (epoch : Nat) : Env where
  epoch := epoch
  saveEpoch := epoch
  sleepEpoch := epoch
  fails := fun _ => false
  brokenCopy := id
  userDirs := []
  imeLine := none
  homeLine := none
  procs := .quiet
  gateOk := fun _ => true
  uidOrder := .canonical
  wantOrder := .canonical
  writeMtime := 0

/-- A running daemon and its files. -/
structure Sys where
  eng : Engine
  fs : Fs

/-- The content a read of the rules file returns. -/
def Fs.readRules (fs : Fs) (env : Env) (call : FsCall) : Option Text :=
  if env.fails call then none else fs.rules.map File.content

/-- The file time a `metadata` call on the rules file returns. -/
def Fs.statRules (fs : Fs) (env : Env) (call : FsCall) : Option Nat :=
  if env.fails call then none else fs.rules.map File.mtime

def Fs.readBackup (fs : Fs) (env : Env) : Option Text :=
  if env.fails .loadBackup then none else fs.backup

def Fs.readState (fs : Fs) (env : Env) : Option Text :=
  if env.fails .readState then none else fs.state

def Fs.statPackages (fs : Fs) (env : Env) : Option Nat :=
  if env.fails .statPackages then none else fs.packages.map File.mtime

/-- `resolve_uids` as called from `call`. -/
def Fs.resolveUids (fs : Fs) (env : Env) (call : FsCall) : Option UidOf :=
  Ningshi.resolveUids (if env.fails call then none else fs.packages.map File.content) env.userDirs

/-! ## The state file -/

/-- What survives a restart; running extensions do not. -/
structure StateFile where
  day : String
  usageSeconds : UidMap Nat
  usageFg : UidMap Nat
  cooldownUntil : UidMap Nat
  groupCooldownUntil : KeyMap Nat
  extGrantedToday : UidMap UInt32
  groupExtGrantedToday : KeyMap UInt32
  killCount : UidMap Nat

def ofUidMap {β : Type} (enc : β → Value) (m : UidMap β) : Value := ofMap ofKeyU32 enc m

def asUidMap {β : Type} (dec : Value → Option β) (v : Value) : Option (UidMap β) :=
  asMap keyU32 dec v

def ofKeyMap {β : Type} (enc : β → Value) (m : KeyMap β) : Value := ofMap id enc m

def asKeyMap {β : Type} (dec : Value → Option β) (v : Value) : Option (KeyMap β) :=
  asMap some dec v

def natValue (n : Nat) : Value := .num n

def u32Value (n : UInt32) : Value := .num n.toNat

def StateFile.toJson (st : StateFile) : Value :=
  .obj [("day", .str st.day), ("usage_seconds", ofUidMap natValue st.usageSeconds),
    ("usage_fg", ofUidMap natValue st.usageFg),
    ("cooldown_until", ofUidMap natValue st.cooldownUntil),
    ("group_cooldown_until", ofKeyMap natValue st.groupCooldownUntil),
    ("ext_granted_today", ofUidMap u32Value st.extGrantedToday),
    ("group_ext_granted_today", ofKeyMap u32Value st.groupExtGrantedToday),
    ("kill_count", ofUidMap natValue st.killCount)]

/-- A number that is no `u64`, which would be refused, is not in a file the daemon wrote. -/
def StateFile.ofJson (v : Value) : Option StateFile := do
  let ms ← structMembers ["day", "usage_seconds", "usage_fg", "cooldown_until",
    "group_cooldown_until", "ext_granted_today", "group_ext_granted_today", "kill_count"] v
  let day ← field ms "day" asStr
  let usageSeconds ← field ms "usage_seconds" (asUidMap asNat)
  let usageFg ← field ms "usage_fg" (asUidMap asNat)
  let cooldownUntil ← field ms "cooldown_until" (asUidMap asNat)
  let groupCooldownUntil ← field ms "group_cooldown_until" (asKeyMap asNat)
  let extGrantedToday ← field ms "ext_granted_today" (asUidMap asU32)
  let groupExtGrantedToday ← field ms "group_ext_granted_today" (asKeyMap asU32)
  let killCount ← field ms "kill_count" (asUidMap asNat)
  pure ⟨day, usageSeconds, usageFg, cooldownUntil, groupCooldownUntil, extGrantedToday,
    groupExtGrantedToday, killCount⟩

theorem asUidMap_ofUidMap {β : Type} {dec : Value → Option β} {enc : β → Value}
    (hdec : ∀ v, dec (enc v) = some v) (m : UidMap β) :
    asUidMap dec (ofUidMap enc m) = some m :=
  asMap_ofMap keyU32_ofKeyU32 hdec m

theorem asKeyMap_ofKeyMap {β : Type} {dec : Value → Option β} {enc : β → Value}
    (hdec : ∀ v, dec (enc v) = some v) (m : KeyMap β) :
    asKeyMap dec (ofKeyMap enc m) = some m :=
  asMap_ofMap (fun _ => rfl) hdec m

/-- **A state file is read back as it was written.** -/
theorem StateFile.ofJson_toJson (st : StateFile) : StateFile.ofJson st.toJson = some st := by
  have hnat : ∀ m, asUidMap asNat (ofUidMap natValue m) = some m :=
    asUidMap_ofUidMap asNat_natCast
  have hkey : ∀ m, asKeyMap asNat (ofKeyMap natValue m) = some m :=
    asKeyMap_ofKeyMap asNat_natCast
  have hu32 : ∀ m, asUidMap asU32 (ofUidMap u32Value m) = some m :=
    asUidMap_ofUidMap asU32_toNat
  have hkeyU32 : ∀ m, asKeyMap asU32 (ofKeyMap u32Value m) = some m :=
    asKeyMap_ofKeyMap asU32_toNat
  simp [StateFile.ofJson, StateFile.toJson, structMembers, field, hnat, hkey, hu32, hkeyU32]

end Ningshi
