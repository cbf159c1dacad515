import Ningshi.Engine.Tick

/-!
# What a restarted daemon starts its day with

The state file carries the local date it was written on.  A new daemon reads
it before any timezone is set, so it compares that date with the UTC date of
its own start; the first tick then compares the UTC date with the local one.

`restart_dayMaps` says what the first tick does its cooldown and verdict steps
from, and `restart_keeps_iff` when this is today's state exactly if the day is
still the same.
-/

namespace Ningshi

open Std FiniteMap JsonDoc Transition

/-- The daily state that is saved. -/
structure DayMaps where
  usageSeconds : UidMap Nat
  usageFg : UidMap Nat
  cooldownUntil : UidMap Nat
  groupCooldownUntil : KeyMap Nat
  extGrantedToday : UidMap UInt32
  groupExtGrantedToday : KeyMap UInt32
  killCount : UidMap Nat
  deriving DecidableEq

def DayMaps.empty : DayMaps := ⟨∅, ∅, ∅, ∅, ∅, ∅, ∅⟩

/-- Restrict the per-uid maps to the uids in use. -/
def DayMaps.restrict (uidOf : UidOf) (maps : DayMaps) : DayMaps where
  usageSeconds := restrictLive uidOf maps.usageSeconds
  usageFg := restrictLive uidOf maps.usageFg
  cooldownUntil := restrictLive uidOf maps.cooldownUntil
  groupCooldownUntil := maps.groupCooldownUntil
  extGrantedToday := restrictLive uidOf maps.extGrantedToday
  groupExtGrantedToday := maps.groupExtGrantedToday
  killCount := restrictLive uidOf maps.killCount

@[simp] theorem DayMaps.restrict_empty (uidOf : UidOf) : DayMaps.empty.restrict uidOf = .empty := by
  simp [DayMaps.restrict, DayMaps.empty]

def Engine.dayMaps (eng : Engine) : DayMaps where
  usageSeconds := eng.usageSeconds
  usageFg := eng.usageFg
  cooldownUntil := eng.cooldownUntil
  groupCooldownUntil := eng.groupCooldownUntil
  extGrantedToday := eng.extGrantedToday
  groupExtGrantedToday := eng.groupExtGrantedToday
  killCount := eng.killCount

@[simp] theorem dayMaps_deriveSettings (env : Env) (eng : Engine) :
    (eng.deriveSettings env).dayMaps = eng.dayMaps := rfl

@[simp] theorem dayMaps_withUids (uidOf : UidOf) (eng : Engine) :
    (eng.withUids uidOf).dayMaps = eng.dayMaps := rfl

@[simp] theorem dayMaps_recordMtime (mtime : Option Nat) (eng : Engine) :
    (eng.recordMtime mtime).dayMaps = eng.dayMaps := rfl

/-- Every file that is there can be read. -/
def ReadsSucceed (env : Env) : Prop :=
  ∀ call, call ≠ .copyBackup → call ≠ .writeState → call ≠ .writeRules → env.fails call = false

/-- A daemon saves its state and a new one starts with the same rules file and
package list. -/
structure Restart where
  saveEnv : Env
  newEnv : Env
  tickEnv : Env
  saved : Sys
  rulesFile : File Text
  packages : File String
  hasRules : saved.fs.rules = some rulesFile
  hasPackages : saved.fs.packages = some packages
  written : saveEnv.fails .writeState = false
  newReads : ReadsSucceed newEnv
  tickReads : ReadsSucceed tickEnv
  /-- start-up and first tick happen at one instant -/
  sameClock : tickEnv.epoch = newEnv.epoch
  /-- the timezone of the rules is applied when the state is saved -/
  timezone : saved.eng.tzSecs = parseTz (Engine.new newEnv
    (saveState saveEnv saved).fs).eng.rules.settings.timezone

namespace Restart

variable (r : Restart)

/-- The files the new daemon finds. -/
def fs : Fs := (saveState r.saveEnv r.saved).fs

def started : Sys := Engine.new r.newEnv r.fs

/-- The uid map of the package list. -/
def uids : UidOf :=
  insertAll ((RustStr.lines r.packages.content.toList).flatMap
    (lineKeys (users r.tickEnv.userDirs))) ∅

/-- The local date of the save, the UTC date and the local date of the start. -/
def savedDate : Int := localDate r.saved.eng.tzSecs r.saveEnv.saveEpoch

def utcDate : Int := localDate none r.newEnv.epoch

def startDate : Int := localDate r.saved.eng.tzSecs r.newEnv.epoch

theorem fs_eq : r.fs = { r.saved.fs with
    state := some (.json (r.saved.eng.stateFile r.savedDate).toJson) } := by
  simp only [fs, saveState, r.written]
  rfl

theorem readState_fs (fs' : Fs) (h : fs'.state = r.fs.state) :
    (fs'.readState r.newEnv).bind (Text.decode StateFile.ofJson) =
      some (r.saved.eng.stateFile r.savedDate) := by
  have hread : r.newEnv.fails .readState = false :=
    r.newReads _ (by decide) (by decide) (by decide)
  rw [Fs.readState, hread, if_neg Bool.false_ne_true, h, fs_eq, Option.bind_some,
    Text.decode_json, StateFile.ofJson_toJson]

/-- The saved date is compared with the UTC date. -/
theorem stateFile_day_eq_iff :
    (r.saved.eng.stateFile r.savedDate).day = Calendar.isoText r.utcDate ↔
      r.savedDate = r.utcDate := by
  have hsaved := neg_one_le_localDate r.saved.eng.tzSecs r.saveEnv.saveEpoch
  have hutc := neg_one_le_localDate none r.newEnv.epoch
  refine Calendar.isoText_inj ?_ ?_
  · exact Int.le_trans (by decide) hsaved
  · exact Int.le_trans (by decide) hutc

/-! ## Start-up -/

/-- The system between loading the rules and loading the state. -/
def loaded : Sys :=
  loadRules r.newEnv ⟨{ Engine.blank .start with started := r.newEnv.epoch }, r.fs⟩

theorem loaded_fs : ∃ backup, r.loaded.fs = { r.fs with backup := backup } :=
  loadRules_fs r.newEnv _

theorem loaded_eng : ∃ rules source, r.loaded.eng =
    { Engine.blank .start with
      started := r.newEnv.epoch
      rules := rules
      rulesSource := source } :=
  loadRules_frame r.newEnv _

theorem started_fs : r.started.fs = r.loaded.fs := rfl

theorem started_eng : r.started.eng =
    r.loaded.eng.restore r.utcDate (r.saved.eng.stateFile r.savedDate) := by
  obtain ⟨backup, hfs⟩ := r.loaded_fs
  obtain ⟨rules, source, heng⟩ := r.loaded_eng
  have hstate := r.readState_fs r.loaded.fs (by rw [hfs])
  show r.loaded.eng.loadState r.newEnv r.loaded.fs = _
  rw [Engine.loadState, hstate, heng]
  rfl

/-- Loading the state leaves the rules alone. -/
theorem restore_rules (today : Int) (st : StateFile) (eng : Engine) :
    (eng.restore today st).rules = eng.rules ∧
      (eng.restore today st).rulesSource = eng.rulesSource ∧
      (eng.restore today st).lastPkgMtime = eng.lastPkgMtime ∧
      (eng.restore today st).lastMtime = eng.lastMtime ∧
      (eng.restore today st).lastTick = eng.lastTick := by
  unfold Engine.restore
  split_ifs <;> exact ⟨rfl, rfl, rfl, rfl, rfl⟩

/-! ## The first tick -/

/-- What reading the rules file returns, at start-up and in the first tick. -/
theorem readRules_of_reads {env : Env} (henv : ReadsSucceed env) {call : FsCall}
    (hcall : call = .loadRules ∨ call = .reloadRules) {fs' : Fs}
    (hfs : fs'.rules = r.saved.fs.rules) :
    fs'.readRules env call = some r.rulesFile.content := by
  have hok : env.fails call = false := by
    rcases hcall with rfl | rfl <;> exact henv _ (by decide) (by decide) (by decide)
  rw [Fs.readRules, hok, if_neg Bool.false_ne_true, hfs, r.hasRules, Option.map_some]

theorem readBackup_of_reads {env : Env} (henv : ReadsSucceed env) (fs' : Fs) :
    fs'.readBackup env = fs'.backup := by
  rw [Fs.readBackup, henv _ (by decide) (by decide) (by decide), if_neg Bool.false_ne_true]

/-- The first tick reads the same rules again. -/
theorem reloadRules_started : (reloadRules r.tickEnv r.started).eng = r.started.eng := by
  obtain ⟨backup, hfs⟩ := r.loaded_fs
  have hfsRules : r.fs.rules = r.saved.fs.rules := by rw [fs_eq]
  have hrulesStarted : r.started.fs.rules = r.saved.fs.rules := by
    rw [started_fs, hfs]
    exact hfsRules
  have hread := r.readRules_of_reads r.newReads (.inl rfl) hfsRules
  have hreread := r.readRules_of_reads r.tickReads (.inr rfl) hrulesStarted
  have hreread' := r.readRules_of_reads r.tickReads (.inl rfl) hrulesStarted
  obtain ⟨hrules, hsource, -⟩ := restore_rules r.utcDate (r.saved.eng.stateFile r.savedDate)
    r.loaded.eng
  rw [← r.started_eng] at hrules hsource
  cases hload : Rules.load (some r.rulesFile.content) with
  | some rules =>
      -- Both reads take the rules from the live file.
      have hloaded : r.loaded.eng.rules = rules ∧ r.loaded.eng.rulesSource = .file := by
        rw [loaded, loadRules_of_loads (hread ▸ hload)]
        exact ⟨rfl, rfl⟩
      rw [reloadRules_of_loads (hreread ▸ hload)]
      exact Engine.withRules_self (hrules.trans hloaded.1) (hsource.trans hloaded.2)
  | none =>
      -- Both times the backup decides, and nothing has been copied over it.
      obtain ⟨rules, source, hne, hfall⟩ := Engine.fallBack_frame r.fs.backup
      have hloadedEq : r.loaded =
          ⟨Engine.fallBack r.fs.backup { Engine.blank .start with started := r.newEnv.epoch },
            r.fs⟩ := by
        rw [loaded, loadRules_of_unusable (hread ▸ hload), readBackup_of_reads r.newReads]
      have hloaded : r.loaded.eng.rules = rules ∧ r.loaded.eng.rulesSource = source := by
        rw [hloadedEq, hfall]
        exact ⟨rfl, rfl⟩
      have hbackup : r.started.fs.backup = r.fs.backup := by rw [started_fs, hloadedEq]
      rw [reloadRules_of_unusable (hreread ▸ hload), if_neg, loadRules_of_unusable
        (hreread' ▸ hload), readBackup_of_reads r.tickReads, hbackup, hfall]
      · exact Engine.withRules_self (hrules.trans hloaded.1) (hsource.trans hloaded.2)
      · rw [hsource, hloaded.2]
        exact hne

/-- What reading the package list returns in the first tick. -/
theorem resolveUids_of_reads {call : FsCall}
    (hcall : call = .reloadPackages ∨ call = .syncPackages) {fs' : Fs}
    (hfs : fs'.packages = r.saved.fs.packages) :
    fs'.resolveUids r.tickEnv call = some r.uids := by
  have hok : r.tickEnv.fails call = false := by
    rcases hcall with rfl | rfl <;> exact r.tickReads _ (by decide) (by decide) (by decide)
  rw [Fs.resolveUids, hok, if_neg Bool.false_ne_true, hfs, r.hasPackages]
  rfl

/-- A reload that reads the rules that are active already toggles nothing, so
it leaves the daily state alone. -/
theorem reload_of_same {env : Env} {s : Sys} {uids : UidOf}
    (hsame : (reloadRules env s).eng = s.eng)
    (hres : s.fs.resolveUids env .reloadPackages = some uids) :
    ∃ mid, reload env s = .ok mid ∧ mid.eng.dayMaps = s.eng.dayMaps ∧
      mid.eng.lastDay = s.eng.lastDay ∧ mid.eng.lastTick = s.eng.lastTick ∧
      mid.eng.tzSecs = parseTz s.eng.rules.settings.timezone ∧ mid.eng.uidOf = uids ∧
      mid.eng.lastPkgMtime = s.eng.lastPkgMtime ∧ mid.fs.packages = s.fs.packages := by
  obtain ⟨backup, hfs⟩ := reloadRules_fs env s
  have hreload := reload_of_resolved
    ((resolveUids_reloadRules env env s .reloadPackages).trans hres)
  have hrules : (s.eng.deriveSettings env).rules = s.eng.rules := rfl
  rw [hsame, Engine.finishReload_of_same hrules, hfs] at hreload
  refine ⟨_, hreload, by simp, ?_⟩
  simp only [Engine.recordMtime, Engine.withUids, Engine.deriveSettings, and_self]

/-- A sync that finds its uid map in place restricts the maps only. -/
theorem syncPackages_of_same {env : Env} {s : Sys} {mtime : Nat} {uids : UidOf}
    (hpending : Pending env s mtime uids) (hsame : s.eng.uidOf = uids) :
    ∃ mid, syncPackages env s = .ok mid ∧ mid.eng.dayMaps = s.eng.dayMaps.restrict uids ∧
      mid.eng.lastDay = s.eng.lastDay ∧ mid.eng.lastTick = s.eng.lastTick ∧
      mid.eng.tzSecs = s.eng.tzSecs := by
  refine ⟨_, syncPackages_of_pending hpending, ?_⟩
  rw [Engine.resync_eq, hsame, movesOf_self]
  exact ⟨rfl, rfl, rfl, rfl⟩

/-- **The first tick restricts the state to the uids in use** and sets the
timezone; nothing else happens to the state before the day is checked. -/
theorem refresh_started : ∃ mid, refresh r.tickEnv r.started = .ok mid ∧
    mid.eng.dayMaps = r.started.eng.dayMaps.restrict r.uids ∧
    mid.eng.lastDay = r.started.eng.lastDay ∧ mid.eng.lastTick = none ∧
    mid.eng.tzSecs = r.saved.eng.tzSecs := by
  obtain ⟨backup, hfs⟩ := r.loaded_fs
  obtain ⟨rules, source, hloaded⟩ := r.loaded_eng
  obtain ⟨-, -, hpkgMtime, hmtime, hlastTick⟩ := restore_rules r.utcDate
    (r.saved.eng.stateFile r.savedDate) r.loaded.eng
  rw [← r.started_eng] at hpkgMtime hmtime hlastTick
  replace hpkgMtime : r.started.eng.lastPkgMtime = none := hpkgMtime.trans (by rw [hloaded]; rfl)
  replace hmtime : r.started.eng.lastMtime = none := hmtime.trans (by rw [hloaded]; rfl)
  replace hlastTick : r.started.eng.lastTick = none := hlastTick.trans (by rw [hloaded]; rfl)
  have hpackages : r.started.fs.packages = r.saved.fs.packages := by
    rw [started_fs, hfs, fs_eq]
  have hrules : r.started.fs.rules = r.saved.fs.rules := by rw [started_fs, hfs, fs_eq]
  have hstat : r.started.fs.statRules r.tickEnv .statRules = some r.rulesFile.mtime := by
    rw [Fs.statRules, r.tickReads _ (by decide) (by decide) (by decide), if_neg Bool.false_ne_true,
      hrules, r.hasRules, Option.map_some]
  -- A new daemon has no file time on record, so it reloads and syncs.
  have hchanged : reloadIfChanged r.tickEnv r.started = reload r.tickEnv r.started := by
    simp only [reloadIfChanged, hstat, hmtime, reduceCtorEq, if_false]
  obtain ⟨loadedSys, hreload, hmaps, hlastDay, hlast, htz, huids, hpkg, hlist⟩ :=
    reload_of_same r.reloadRules_started (r.resolveUids_of_reads (.inl rfl) hpackages)
  have hpending : Pending r.tickEnv loadedSys r.packages.mtime r.uids := by
    refine ⟨?_, ?_, r.resolveUids_of_reads (.inr rfl) (hlist.trans hpackages)⟩
    · rw [Fs.statPackages, r.tickReads _ (by decide) (by decide) (by decide),
        if_neg Bool.false_ne_true, hlist, hpackages, r.hasPackages, Option.map_some]
    · rw [hpkg, hpkgMtime]
      simp
  obtain ⟨mid, hsync, hmaps', hlastDay', hlast', htz'⟩ := syncPackages_of_same hpending huids
  refine ⟨mid, by rw [refresh, hchanged, hreload, Outcome.bind_ok, hsync], ?_,
    hlastDay'.trans hlastDay, hlast'.trans (hlast.trans hlastTick), ?_⟩
  · rw [hmaps', hmaps]
  · rw [htz', htz]
    exact r.timezone.symm

/-! ## The day -/

/-- What the new daemon has after start-up. -/
theorem started_day :
    (r.savedDate = r.utcDate → r.started.eng.dayMaps = r.saved.eng.dayMaps ∧
      r.started.eng.lastDay = some r.utcDate) ∧
    (r.savedDate ≠ r.utcDate → r.started.eng.dayMaps = .empty ∧
      r.started.eng.lastDay = none) := by
  obtain ⟨rules, source, hloaded⟩ := r.loaded_eng
  rw [started_eng, hloaded, Engine.restore]
  constructor
  · intro hday
    rw [if_pos ((r.stateFile_day_eq_iff).mpr hday)]
    exact ⟨rfl, rfl⟩
  · intro hday
    rw [if_neg fun h => hday ((r.stateFile_day_eq_iff).mp h)]
    exact ⟨rfl, rfl⟩

/-- **What the cooldown and verdict steps of the first tick start from**: the
saved state if the saved date, the UTC date and the local date are all the
same, and nothing otherwise. -/
theorem restart_dayMaps : ∃ mid, refresh r.tickEnv r.started = .ok mid ∧
    (mid.eng.count r.tickEnv).dayMaps =
      if r.savedDate = r.utcDate ∧ r.utcDate = r.startDate
      then r.saved.eng.dayMaps.restrict r.uids else .empty := by
  obtain ⟨mid, hmid, hmaps, hlastDay, hlastTick, htz⟩ := r.refresh_started
  refine ⟨mid, hmid, ?_⟩
  have htoday : (mid.eng.nowParts r.tickEnv.epoch).date = r.startDate := by
    rw [Engine.nowParts, htz, r.sameClock]
    rfl
  have hcount : (mid.eng.count r.tickEnv).dayMaps = (mid.eng.dailyReset r.startDate).dayMaps := by
    have hfirst : (mid.eng.dailyReset r.startDate).lastTick = none := by
      unfold Engine.dailyReset
      split_ifs <;> exact hlastTick
    rw [Engine.count, htoday, accrue_of_first hfirst]
    rfl
  rw [hcount, Engine.dailyReset]
  obtain ⟨hsame, hother⟩ := r.started_day
  by_cases hday : r.savedDate = r.utcDate
  · obtain ⟨hstarted, hstartedDay⟩ := hsame hday
    rw [hlastDay, hstartedDay]
    by_cases hlocal : r.utcDate = r.startDate
    · rw [if_pos (congrArg some hlocal), if_pos ⟨hday, hlocal⟩, hmaps, hstarted]
    · rw [if_neg fun h => hlocal (Option.some.inj h), if_neg fun h => hlocal h.2]
      rfl
  · obtain ⟨hstarted, hstartedDay⟩ := hother hday
    rw [hlastDay, hstartedDay, if_neg (by simp), if_neg fun h => hday h.1]
    rfl

/-- **Exactly when a restart keeps today's state, and only today's.** -/
theorem restart_keeps_iff {mid : Sys} (hrefresh : refresh r.tickEnv r.started = .ok mid) :
    (mid.eng.count r.tickEnv).dayMaps =
        (if r.savedDate = r.startDate then r.saved.eng.dayMaps.restrict r.uids else .empty) ↔
      (r.savedDate = r.startDate →
        r.utcDate = r.startDate ∨ r.saved.eng.dayMaps.restrict r.uids = .empty) := by
  obtain ⟨mid', hmid', hmaps⟩ := r.restart_dayMaps
  obtain rfl := Outcome.ok.inj (hrefresh.symm.trans hmid')
  rw [hmaps]
  by_cases hday : r.savedDate = r.startDate
  · rw [if_pos hday]
    by_cases hutc : r.utcDate = r.startDate
    · rw [if_pos ⟨hday.trans hutc.symm, hutc⟩]
      exact iff_of_true rfl fun _ => .inl hutc
    · rw [if_neg fun h => hutc h.2]
      exact ⟨fun h _ => .inr h.symm, fun h => ((h hday).resolve_left hutc).symm⟩
  · rw [if_neg hday, if_neg fun h => hday (h.1.trans h.2)]
    exact iff_of_true rfl fun h => absurd h hday

end Restart

/-- Rules without any entry, eight hours ahead of UTC. -/
def easternRules : Rules :=
  { Rules.default with settings := { Settings.default with timezone := "UTC+8" } }

/-- Ten minutes of usage of one app, counted in the local day that began at
16:00 UTC. -/
def easternNight : Sys where
  eng := { Engine.blank .start with
    tzSecs := some 28800
    usageSeconds := insertAll [(10001, 600)] ∅ }
  fs := ⟨some ⟨.json easternRules.toJson, 1⟩, none, none, some ⟨"com.foo 10001", 1⟩⟩

/-- Saved at 16:40 UTC, restarted ten seconds later. -/
def nightRestart : Restart where
  saveEnv := .quiet 60000
  newEnv := .quiet 60010
  tickEnv := .quiet 60010
  saved := easternNight
  rulesFile := ⟨.json easternRules.toJson, 1⟩
  packages := ⟨"com.foo 10001", 1⟩
  hasRules := rfl
  hasPackages := rfl
  written := rfl
  newReads := fun _ _ _ _ => rfl
  tickReads := fun _ _ _ _ => rfl
  sameClock := rfl
  timezone := by decide +kernel

theorem restart_keeps_iff_nightRestart :
    ∃ mid, refresh nightRestart.tickEnv nightRestart.started = .ok mid ∧
      ((mid.eng.count nightRestart.tickEnv).dayMaps =
          (if nightRestart.savedDate = nightRestart.startDate
            then nightRestart.saved.eng.dayMaps.restrict nightRestart.uids else .empty) ↔
        (nightRestart.savedDate = nightRestart.startDate →
          nightRestart.utcDate = nightRestart.startDate ∨
            nightRestart.saved.eng.dayMaps.restrict nightRestart.uids = .empty)) := by
  obtain ⟨mid, hmid, -⟩ := nightRestart.restart_dayMaps
  exact ⟨mid, hmid, nightRestart.restart_keeps_iff hmid⟩

/-- Between local and UTC midnight a restart on the same local day forgets
the usage of the day. -/
theorem not_restart_keeps :
    ¬ ∀ (r : Restart) (mid : Sys), refresh r.tickEnv r.started = .ok mid →
      (mid.eng.count r.tickEnv).dayMaps =
        if r.savedDate = r.startDate then r.saved.eng.dayMaps.restrict r.uids else .empty := by
  intro h
  obtain ⟨mid, hmid, hmaps⟩ := nightRestart.restart_dayMaps
  have hkeeps := h nightRestart mid hmid
  rw [hmaps] at hkeeps
  revert hkeeps
  decide +kernel

end Ningshi
