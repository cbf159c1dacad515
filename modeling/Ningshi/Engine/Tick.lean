import Ningshi.Engine.Sync
import Ningshi.Engine.Verdict
import Ningshi.Schedule

/-!
# The tick and extensions

A tick refreshes rules and packages, resets the day, counts usage, maintains
the cooldowns, evaluates the rules and enforces the verdicts; then it sweeps,
saves and computes the next interval.  It stops where the refresh or an update
of the gate fails, and keeps what was done until then (`tick_cases`).
-/

namespace Ningshi

open Std FiniteMap Transition

/-- A new local day starts all daily counters again. -/
def Engine.dailyReset (today : Int) (eng : Engine) : Engine :=
  if eng.lastDay = some today then eng
  else
    { eng with
      lastDay := some today
      usageSeconds := ∅
      usageFg := ∅
      extensionUntil := ∅
      groupExtensionUntil := ∅
      extGrantedToday := ∅
      groupExtGrantedToday := ∅
      cooldownUntil := ∅
      groupCooldownUntil := ∅
      killCount := ∅ }

/-- The screen is looked at only when some enabled rule asks for it. -/
def Engine.screenFlag (env : Env) (eng : Engine) : Bool :=
  eng.rules.needsScreen && Ningshi.screenOff env.procs

def Engine.pollScreen (env : Env) (eng : Engine) : Engine :=
  if eng.rules.needsScreen then { eng with screenOff := some (Ningshi.screenOff env.procs) }
  else eng

/-- The first step of a tick: rules, then packages. -/
def refresh (env : Env) (s : Sys) : Outcome Sys := (reloadIfChanged env s).bind (syncPackages env)

/-- The engine as it enters the cooldown step. -/
def Engine.count (env : Env) (eng : Engine) : Engine :=
  (eng.dailyReset (eng.nowParts env.epoch).date).accrue env

/-- The engine as it enters the verdict step. -/
def Engine.prepare (env : Env) (eng : Engine) : Engine :=
  ((eng.count env).maintainCooldowns env.epoch).pollScreen env

/-- The verdicts of a tick. -/
def Engine.judge (env : Env) (eng : Engine) : List Verdict :=
  eng.verdicts (eng.nowParts env.epoch) (eng.screenFlag env)

/-- The periodic sweep over the blocked uids; its kills are not counted. -/
def Engine.sweep (env : Env) (eng : Engine) : Engine :=
  if sweepSecs ≤ env.epoch - eng.lastSweep then { eng with lastSweep := env.epoch } else eng

/-- What a tick does after the transitions. -/
def finishTick (env : Env) (s : Sys) : Sys :=
  let s := { s with eng := s.eng.sweep env }
  let s := if stateSaveSecs ≤ env.epoch - s.eng.lastSave then saveState env s else s
  { s with eng := { s.eng with lastInterval := s.eng.tickIntervalSecs env.sleepEpoch } }

/-- A tick after its refresh. -/
def tickVerdicts (env : Env) (s : Sys) : Outcome Sys :=
  let eng := s.eng.prepare env
  -- an update that is refused ends the tick before the sweep and the save
  ((eng.enforce env (eng.judge env)).map fun eng => { s with eng := eng }).bind fun s =>
    .ok (finishTick env s)

def tick (env : Env) (s : Sys) : Outcome Sys := (refresh env s).bind (tickVerdicts env)

/-! ## Extensions -/

/-- The group that owns this key, if any. -/
def Rules.groupOfMember (key : String) (rules : Rules) : Option String :=
  (rules.groups.toList.find? fun p => key ∈ p.2.members).map Prod.fst

def dailyExtensionLimit : UInt32 := 120

/-- The minutes still allowed, out of those asked for. -/
def grant (minutes : UInt32) (used : UInt32) : Except String UInt32 :=
  if dailyExtensionLimit ≤ used then .error "daily extension limit (120 min) reached"
  else .ok (min minutes (dailyExtensionLimit - used))

/-- The deadline an extension leads to. -/
def extendedUntil (deadline : Option Nat) (now : Nat) (add : UInt32) : Nat :=
  max (deadline.getD 0) now + add.toNat * 60

/-- Add extension minutes to an app key or a group; the minutes added. -/
def Engine.addExtension (env : Env) (key : String) (minutes : UInt32) (eng : Engine) :
    Except String (UInt32 × Engine) :=
  -- an app rule of its own lets a group member be extended alone
  match (eng.rules.groupOfMember key).filter fun _ => !eng.rules.apps.contains key with
  | some gid => .error (key ++ " is managed by group '" ++ gid ++ "'; extend that group instead")
  | none =>
      match eng.uidOf[key]? with
      | some uid => do
          let used := eng.extGrantedToday[uid]?.getD 0
          let add ← grant minutes used
          let deadline := extendedUntil eng.extensionUntil[uid]? env.epoch add
          pure (add, { eng with
            extGrantedToday := eng.extGrantedToday.insert uid (used + add)
            extensionUntil := eng.extensionUntil.insert uid deadline })
      | none =>
          if eng.rules.groups.contains key then do
            let used := eng.groupExtGrantedToday[key]?.getD 0
            let add ← grant minutes used
            let deadline := extendedUntil eng.groupExtensionUntil[key]? env.epoch add
            pure (add, { eng with
              groupExtGrantedToday := eng.groupExtGrantedToday.insert key (used + add)
              groupExtensionUntil := eng.groupExtensionUntil.insert key deadline })
          else .error ("unknown app or group key: " ++ key)

/-! ## How a tick ends -/

/-- **The three ends of a tick.** -/
theorem tick_cases (env : Env) (s : Sys) :
    (∃ mid, refresh env s = .err mid ∧ tick env s = .err mid) ∨
      ∃ mid, refresh env s = .ok mid ∧
        ((∃ eng, (mid.eng.prepare env).enforce env ((mid.eng.prepare env).judge env) = .err eng ∧
            tick env s = .err { mid with eng := eng }) ∨
          ∃ eng, (mid.eng.prepare env).enforce env ((mid.eng.prepare env).judge env) = .ok eng ∧
            tick env s = .ok (finishTick env { mid with eng := eng })) := by
  cases hrefresh : refresh env s with
  | err mid => exact .inl ⟨mid, rfl, by rw [tick, hrefresh, Outcome.bind_err]⟩
  | ok mid =>
      refine .inr ⟨mid, rfl, ?_⟩
      cases henforce : (mid.eng.prepare env).enforce env ((mid.eng.prepare env).judge env) with
      | err eng =>
          exact .inl ⟨eng, rfl, by simp only [tick, tickVerdicts, hrefresh, Outcome.bind_ok,
            henforce, Outcome.map_err, Outcome.bind_err]⟩
      | ok eng =>
          exact .inr ⟨eng, rfl, by simp only [tick, tickVerdicts, hrefresh, Outcome.bind_ok,
            henforce, Outcome.map_ok]⟩

/-- A successful tick refreshed and enforced successfully. -/
theorem tick_eq_ok_iff {env : Env} {s s' : Sys} :
    tick env s = .ok s' ↔ ∃ mid eng, refresh env s = .ok mid ∧
      (mid.eng.prepare env).enforce env ((mid.eng.prepare env).judge env) = .ok eng ∧
      s' = finishTick env { mid with eng := eng } := by
  rcases tick_cases env s with ⟨mid, hrefresh, htick⟩ |
    ⟨mid, hrefresh, ⟨eng, henforce, htick⟩ | ⟨eng, henforce, htick⟩⟩
  · simp [hrefresh, htick]
  · simp [hrefresh, htick, henforce]
  · simp [hrefresh, htick, henforce, eq_comm]

/-- What a tick leaves behind of the gate and the blocked uids is what
enforcing left. -/
theorem finishTick_frame (env : Env) (s : Sys) :
    ∃ lastInterval lastSave lastSweep, (finishTick env s).eng =
      { s.eng with
        lastInterval := lastInterval
        lastSave := lastSave
        lastSweep := lastSweep } := by
  simp only [finishTick, Engine.sweep]
  split_ifs <;> exact ⟨_, _, _, rfl⟩

/-- Of the files a tick's last part writes the state file only. -/
theorem finishTick_fs (env : Env) (s : Sys) :
    ∃ state, (finishTick env s).fs = { s.fs with state := state } := by
  simp only [finishTick, saveState]
  split_ifs
  · exact ⟨s.fs.state, rfl⟩
  · exact ⟨some _, rfl⟩
  · exact ⟨s.fs.state, rfl⟩

/-- The rules, what is derived from them and what is blocked stay as they are. -/
structure KeepsSetup (eng eng' : Engine) : Prop where
  gate : eng'.gate = eng.gate
  blocked : eng'.blocked = eng.blocked
  rules : eng'.rules = eng.rules
  rulesSource : eng'.rulesSource = eng.rulesSource
  uidOf : eng'.uidOf = eng.uidOf
  tzSecs : eng'.tzSecs = eng.tzSecs
  protectedPkgs : eng'.protectedPkgs = eng.protectedPkgs
  lastMtime : eng'.lastMtime = eng.lastMtime
  lastPkgMtime : eng'.lastPkgMtime = eng.lastPkgMtime

theorem KeepsSetup.refl (eng : Engine) : KeepsSetup eng eng :=
  ⟨rfl, rfl, rfl, rfl, rfl, rfl, rfl, rfl, rfl⟩

theorem KeepsSetup.trans {a b c : Engine} (hab : KeepsSetup a b) (hbc : KeepsSetup b c) :
    KeepsSetup a c where
  gate := hbc.gate.trans hab.gate
  blocked := hbc.blocked.trans hab.blocked
  rules := hbc.rules.trans hab.rules
  rulesSource := hbc.rulesSource.trans hab.rulesSource
  uidOf := hbc.uidOf.trans hab.uidOf
  tzSecs := hbc.tzSecs.trans hab.tzSecs
  protectedPkgs := hbc.protectedPkgs.trans hab.protectedPkgs
  lastMtime := hbc.lastMtime.trans hab.lastMtime
  lastPkgMtime := hbc.lastPkgMtime.trans hab.lastPkgMtime

theorem SameButUsage.keepsSetup {eng eng' : Engine} (h : SameButUsage eng eng') :
    KeepsSetup eng eng' := by
  obtain ⟨_, _, _, _, rfl⟩ := h
  exact ⟨rfl, rfl, rfl, rfl, rfl, rfl, rfl, rfl, rfl⟩

theorem keepsSetup_dailyReset (today : Int) (eng : Engine) :
    KeepsSetup eng (eng.dailyReset today) := by
  unfold Engine.dailyReset
  split_ifs
  · exact .refl eng
  · exact ⟨rfl, rfl, rfl, rfl, rfl, rfl, rfl, rfl, rfl⟩

theorem keepsSetup_accrue (env : Env) (eng : Engine) : KeepsSetup eng (eng.accrue env) :=
  KeepsSetup.trans (b := { eng with lastTick := some env.epoch })
    ⟨rfl, rfl, rfl, rfl, rfl, rfl, rfl, rfl, rfl⟩ (sameButUsage_accrue env eng).keepsSetup

theorem keepsSetup_pollScreen (env : Env) (eng : Engine) :
    KeepsSetup eng (eng.pollScreen env) := by
  unfold Engine.pollScreen
  split_ifs
  · exact ⟨rfl, rfl, rfl, rfl, rfl, rfl, rfl, rfl, rfl⟩
  · exact .refl eng

/-- **Up to the verdicts a tick changes usage, cooldowns and extensions only.** -/
theorem keepsSetup_prepare (env : Env) (eng : Engine) : KeepsSetup eng (eng.prepare env) :=
  (((keepsSetup_dailyReset _ eng).trans (keepsSetup_accrue env _)).trans
    (sameButUsage_maintainCooldowns env.epoch _).keepsSetup).trans (keepsSetup_pollScreen env _)

/-- The rules and what is derived from rules and packages stay as they are. -/
structure KeepsConfig (eng eng' : Engine) : Prop where
  rules : eng'.rules = eng.rules
  rulesSource : eng'.rulesSource = eng.rulesSource
  uidOf : eng'.uidOf = eng.uidOf
  protectedPkgs : eng'.protectedPkgs = eng.protectedPkgs
  lastMtime : eng'.lastMtime = eng.lastMtime

theorem KeepsConfig.trans {a b c : Engine} (hab : KeepsConfig a b) (hbc : KeepsConfig b c) :
    KeepsConfig a c where
  rules := hbc.rules.trans hab.rules
  rulesSource := hbc.rulesSource.trans hab.rulesSource
  uidOf := hbc.uidOf.trans hab.uidOf
  protectedPkgs := hbc.protectedPkgs.trans hab.protectedPkgs
  lastMtime := hbc.lastMtime.trans hab.lastMtime

theorem KeepsSetup.keepsConfig {eng eng' : Engine} (h : KeepsSetup eng eng') :
    KeepsConfig eng eng' :=
  ⟨h.rules, h.rulesSource, h.uidOf, h.protectedPkgs, h.lastMtime⟩

/-- What a tick leaves behind of the engine it had prepared. -/
def SameButEnforced (prepared eng : Engine) : Prop :=
  ∃ gate blocked killCount lastInterval lastSave lastSweep, eng =
    { prepared with
      gate := gate
      blocked := blocked
      killCount := killCount
      lastInterval := lastInterval
      lastSave := lastSave
      lastSweep := lastSweep }

/-- **What a tick changes after its refresh**, over what it prepared. -/
theorem tickVerdicts_enforced (env : Env) (s : Sys) :
    SameButEnforced (s.eng.prepare env) (tickVerdicts env s).state.eng := by
  simp only [tickVerdicts]
  generalize s.eng.prepare env = prepared
  obtain ⟨gate, blocked, killCount, -, henforced⟩ :=
    sameButBlocks_enforce env (prepared.judge env) prepared
  cases henforce : prepared.enforce env (prepared.judge env) with
  | err eng =>
      rw [henforce, Outcome.state_err] at henforced
      rw [Outcome.map_err, Outcome.bind_err, Outcome.state_err, henforced]
      exact ⟨gate, blocked, killCount, prepared.lastInterval, prepared.lastSave,
        prepared.lastSweep, rfl⟩
  | ok eng =>
      obtain ⟨lastInterval, lastSave, lastSweep, hfinish⟩ :=
        finishTick_frame env { s with eng := eng }
      rw [henforce, Outcome.state_ok] at henforced
      rw [Outcome.map_ok, Outcome.bind_ok, Outcome.state_ok, hfinish, henforced]
      exact ⟨gate, blocked, killCount, lastInterval, lastSave, lastSweep, rfl⟩

theorem tickVerdicts_frame (env : Env) (s : Sys) :
    ∃ prepared, KeepsSetup s.eng prepared ∧
      ∃ gate blocked killCount lastInterval lastSave lastSweep,
        (tickVerdicts env s).state.eng =
          { prepared with
            gate := gate
            blocked := blocked
            killCount := killCount
            lastInterval := lastInterval
            lastSave := lastSave
            lastSweep := lastSweep } :=
  ⟨s.eng.prepare env, keepsSetup_prepare env s.eng, tickVerdicts_enforced env s⟩

theorem keepsConfig_tickVerdicts (env : Env) (s : Sys) :
    KeepsConfig s.eng (tickVerdicts env s).state.eng := by
  obtain ⟨prepared, hkeeps, _, _, _, _, _, _, h⟩ := tickVerdicts_frame env s
  rw [h]
  exact hkeeps.keepsConfig.trans ⟨rfl, rfl, rfl, rfl, rfl⟩

/-- Of the files it writes the state file only. -/
theorem tickVerdicts_fs (env : Env) (s : Sys) :
    ∃ state, (tickVerdicts env s).state.fs = { s.fs with state := state } := by
  simp only [tickVerdicts]
  cases (s.eng.prepare env).enforce env ((s.eng.prepare env).judge env) with
  | err eng => exact ⟨s.fs.state, rfl⟩
  | ok eng => exact finishTick_fs env { s with eng := eng }

/-- **After its refresh a tick leaves rules and packages alone.** -/
theorem keepsConfig_tick (env : Env) (s : Sys) :
    KeepsConfig (refresh env s).state.eng (tick env s).state.eng := by
  rw [tick]
  cases refresh env s with
  | err mid => exact ⟨rfl, rfl, rfl, rfl, rfl⟩
  | ok mid => exact keepsConfig_tickVerdicts env mid

end Ningshi
