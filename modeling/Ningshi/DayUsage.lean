import Ningshi.DataFiles
import Ningshi.LiveScan
import Ningshi.PoolUsage

/-!
# No more usage than time

The counters of a local day only ever grow by the time between two ticks, and by
at most 60 seconds for the first tick of a day.  They are kept over restarts by
the state file, which carries the day it belongs to.

`usage_within_day` says that no counter is ahead of the time of the day by more
than these 60 seconds, in every run with any number of restarts: no second is
counted twice.
-/

namespace Ningshi

open Std FiniteMap JsonDoc Rename Transition

/-- Seconds of local time from the midnight a date begins with. -/
def sinceMidnight (tzSecs : Option Int) (date : Int) (epoch : Nat) : Int :=
  localSecs tzSecs epoch - date * 86400

/-- No counter exceeds the bound. -/
def CountsWithin (bound : Int) (usage fg : UidMap Nat) : Prop :=
  ∀ uid : Uid, ((usage[uid]?.getD 0 : Nat) : Int) ≤ bound ∧ ((fg[uid]?.getD 0 : Nat) : Int) ≤ bound

def Engine.Within (bound : Int) (eng : Engine) : Prop :=
  CountsWithin bound eng.usageSeconds eng.usageFg

theorem Engine.within_iff {bound : Int} {eng : Engine} :
    eng.Within bound ↔ ∀ uid, (eng.usageOf uid : Int) ≤ bound ∧ (eng.fgOf uid : Int) ≤ bound := .rfl

section Counts

variable {bound bound' : Int} {usage fg : UidMap Nat} {eng eng' : Engine} {env : Env}

theorem CountsWithin.mono (h : CountsWithin bound usage fg) (hle : bound ≤ bound') :
    CountsWithin bound' usage fg := fun uid => ⟨(h uid).1.trans hle, (h uid).2.trans hle⟩

theorem CountsWithin.nonneg (h : CountsWithin bound usage fg) : 0 ≤ bound :=
  (Int.natCast_nonneg _).trans (h 0).1

theorem countsWithin_empty (h : 0 ≤ bound) : CountsWithin bound ∅ ∅ := by
  intro uid
  simpa using h

/-- What stands under a key of a renamed and restricted map stood there before under some key. -/
theorem getD_sync_le {moves : List (Uid × Uid)} {m : UidMap Nat} {uids : UidOf}
    (hne : ∀ move ∈ moves, move.1 ≠ move.2) (hbound : 0 ≤ bound)
    (hm : ∀ uid : Uid, ((m[uid]?.getD 0 : Nat) : Int) ≤ bound) (uid : Uid) :
    (((restrictLive uids (renameAll moves m))[uid]?.getD 0 : Nat) : Int) ≤ bound := by
  by_cases hlive : Live uids uid
  · rw [getElem?_restrictLive_of_live hlive, getElem?_renameAll moves m hne]
    cases hfound : (origins moves uid).findSome? fun a => m[a]? with
    | none => simpa using hbound
    | some v =>
        obtain ⟨a, -, ha⟩ := List.exists_of_findSome?_eq_some hfound
        have hold := hm a
        rw [ha] at hold
        exact hold
  · rw [getElem?_restrictLive_of_not_live hlive]
    simpa using hbound

theorem within_resync {mtime : Nat} {uids : UidOf} {listing : List (String × Uid)}
    (h : eng.Within bound) : (eng.resync mtime uids listing).Within bound := by
  have hne : ∀ move ∈ movesOf eng.uidOf listing, move.1 ≠ move.2 := by
    intro move hmove
    obtain ⟨entry, -, hentry⟩ := List.mem_filterMap.mp hmove
    exact (moveOf_eq_some_iff.mp hentry).2.2
  rw [Engine.resync_eq]
  exact fun uid => ⟨getD_sync_le hne h.nonneg (fun u => (h u).1) uid,
    getD_sync_le hne h.nonneg (fun u => (h u).2) uid⟩

/-- Counting adds the elapsed time at most once. -/
theorem within_accrue (h : eng.Within bound) :
    (eng.accrue env).Within (bound + eng.elapsedAt env) := by
  rw [Engine.within_iff] at h ⊢
  intro uid
  obtain ⟨husage, hfg⟩ := counters_accrueWith eng.rules.needsLiveScan env eng uid
  rw [← accrue_eq_accrueWith] at husage hfg
  have hcounted : eng.countedTime env ≤ eng.elapsedAt env := by
    unfold Engine.countedTime
    split_ifs
    · exact le_rfl
    · exact Nat.zero_le _
  obtain ⟨hold, holdFg⟩ := h uid
  rw [husage, hfg]
  constructor <;> split_ifs <;> omega

theorem within_of_resets {uids : List Uid} (h : Resets uids eng eng') (heng : eng.Within bound) :
    eng'.Within bound := by
  have hzero : ((0 : Nat) : Int) ≤ bound := heng.nonneg
  rw [Engine.within_iff] at heng ⊢
  intro uid
  by_cases huid : uid ∈ uids
  · obtain ⟨husage, hfg⟩ := h.inside uid huid
    rw [husage, hfg]
    exact ⟨hzero, hzero⟩
  · obtain ⟨husage, hfg⟩ := h.outside uid huid
    rw [husage, hfg]
    exact heng uid

theorem within_maintainCooldowns (now : Nat) (h : eng.Within bound) :
    (eng.maintainCooldowns now).Within bound :=
  maintainCooldowns_of_resets now within_of_resets h

end Counts

/-! ## One step -/

/-- What a run keeps about the counters: they are within the time of their day,
as of the last tick, or as of `now` when they have been read from the file. -/
structure DayBound (tzSecs : Option Int) (now : Nat) (eng : Engine) : Prop where
  ticked : ∀ t, eng.lastTick = some t → t ≤ now
  within : ∀ date, eng.lastDay = some date →
    eng.Within (60 + sinceMidnight tzSecs date (eng.lastTick.getD now))
  blank : eng.lastDay = none → eng.Within 0

/-- The same of a state file. -/
def FileBound (tzSecs : Option Int) (now : Nat) (state : Option Text) : Prop :=
  ∀ text st, state = some text → text.decode StateFile.ofJson = some st →
    ∃ date, -1 ≤ date ∧ st.day = Calendar.isoText date ∧
      CountsWithin (60 + sinceMidnight tzSecs date now) st.usageSeconds st.usageFg

section Step

variable {tzSecs : Option Int} {now later : Nat} {eng eng' : Engine} {env : Env} {s : Sys}

theorem sinceMidnight_mono (tzSecs : Option Int) (date : Int) (h : now ≤ later) :
    sinceMidnight tzSecs date now ≤ sinceMidnight tzSecs date later := by
  simp only [sinceMidnight, localSecs]
  omega

theorem DayBound.mono (h : DayBound tzSecs now eng) (hle : now ≤ later) :
    DayBound tzSecs later eng where
  ticked t ht := (h.ticked t ht).trans hle
  within date hdate := by
    refine (h.within date hdate).mono (Int.add_le_add_left (sinceMidnight_mono tzSecs date ?_) 60)
    cases eng.lastTick with
    | none => exact hle
    | some t => exact le_rfl
  blank := h.blank

theorem FileBound.mono {state : Option Text} (h : FileBound tzSecs now state) (hle : now ≤ later) :
    FileBound tzSecs later state := by
  intro text st htext hst
  obtain ⟨date, hdate, hday, hwithin⟩ := h text st htext hst
  have hmono := sinceMidnight_mono tzSecs date hle
  exact ⟨date, hdate, hday, hwithin.mono (Int.add_le_add_left hmono 60)⟩

/-- Only the counters, the day and the last tick matter. -/
theorem DayBound.congr (h : DayBound tzSecs now eng) (husage : eng'.usageSeconds = eng.usageSeconds)
    (hfg : eng'.usageFg = eng.usageFg) (hday : eng'.lastDay = eng.lastDay)
    (htick : eng'.lastTick = eng.lastTick) : DayBound tzSecs now eng' := by
  have hwithin {bound : Int} (hbound : eng.Within bound) : eng'.Within bound := by
    simp only [Engine.Within, husage, hfg]
    exact hbound
  refine ⟨?_, ?_, ?_⟩
  · rw [htick]
    exact h.ticked
  · rw [hday, htick]
    exact fun date hdate => hwithin (h.within date hdate)
  · rw [hday]
    exact fun hnone => hwithin (h.blank hnone)

theorem dayBound_reload (h : DayBound tzSecs now s.eng) :
    DayBound tzSecs now (reload env s).state.eng := by
  obtain ⟨_, _, _, _, _, _, hframe⟩ := reload_frame env s
  rw [hframe]
  exact h.congr rfl rfl rfl rfl

theorem dayBound_syncPackages (h : DayBound tzSecs now s.eng) :
    DayBound tzSecs now (syncPackages env s).state.eng := by
  rcases syncPackages_cases env s with hsame | ⟨mtime, uids, -, hsync⟩
  · rw [hsame]
    exact h
  · have hfields : (s.eng.resync mtime uids (env.uidOrder.arrange uids.toList)).lastDay =
          s.eng.lastDay ∧
        (s.eng.resync mtime uids (env.uidOrder.arrange uids.toList)).lastTick =
          s.eng.lastTick := by
      rw [Engine.resync_eq]
      exact ⟨rfl, rfl⟩
    rw [hsync]
    refine ⟨?_, ?_, ?_⟩
    · rw [hfields.2]
      exact h.ticked
    · rw [hfields.1, hfields.2]
      exact fun date hdate => within_resync (h.within date hdate)
    · rw [hfields.1]
      exact fun hnone => within_resync (h.blank hnone)

theorem dayBound_refresh (h : DayBound tzSecs now s.eng) :
    DayBound tzSecs now (refresh env s).state.eng := by
  refine Outcome.bind_state (p := fun s' : Sys => DayBound tzSecs now s'.eng) ?_
    fun mid _ hmid => dayBound_syncPackages hmid
  rcases reloadIfChanged_cases env s with ⟨hquiet, -⟩ | ⟨-, -, -, hreload⟩
  · rw [hquiet]
    exact h
  · rw [hreload]
    exact dayBound_reload h

theorem sinceMidnight_today (tzSecs : Option Int) (epoch : Nat) :
    0 ≤ sinceMidnight tzSecs (localDate tzSecs epoch) epoch := by
  simp only [sinceMidnight, localDate, nowParts]
  omega

/-- What a tick counts fits into the time that has passed, or is what the first
tick of a day may count. -/
theorem within_dailyReset (h : DayBound tzSecs now eng) (hle : now ≤ env.epoch) :
    ∃ bound, (eng.dailyReset (localDate tzSecs env.epoch)).Within bound ∧
      bound + (eng.dailyReset (localDate tzSecs env.epoch)).elapsedAt env ≤
        60 + sinceMidnight tzSecs (localDate tzSecs env.epoch) env.epoch := by
  unfold Engine.dailyReset
  split_ifs with hday
  · refine ⟨_, h.within _ hday, ?_⟩
    cases hlast : eng.lastTick with
    | none =>
        have helapsed : eng.elapsedAt env = 0 := by simp [Engine.elapsedAt, hlast]
        rw [helapsed, Option.getD_none]
        have hmono := sinceMidnight_mono tzSecs (localDate tzSecs env.epoch) hle
        omega
    | some t =>
        have hticked := h.ticked t hlast
        have helapsed : eng.elapsedAt env ≤ env.epoch - t := by
          simp only [Engine.elapsedAt, hlast, Option.elim_some]
          exact min_le_left _ _
        rw [Option.getD_some]
        simp only [sinceMidnight, localSecs]
        omega
  · -- a new day counts at most one tick
    refine ⟨0, countsWithin_empty le_rfl, ?_⟩
    have helapsed (eng : Engine) : eng.elapsedAt env ≤ 60 := min_le_right _ _
    have htoday := sinceMidnight_today tzSecs env.epoch
    have hone := helapsed { eng with
      lastDay := some (localDate tzSecs env.epoch)
      usageSeconds := ∅
      usageFg := ∅
      extensionUntil := ∅
      groupExtensionUntil := ∅
      extGrantedToday := ∅
      groupExtGrantedToday := ∅
      cooldownUntil := ∅
      groupCooldownUntil := ∅
      killCount := ∅ }
    omega

/-- The counters after a tick has counted. -/
structure Engine.Counted (tzSecs : Option Int) (epoch : Nat) (eng : Engine) : Prop where
  bound : DayBound tzSecs epoch eng
  day : eng.lastDay = some (localDate tzSecs epoch)
  tick : eng.lastTick = some epoch
  zone : eng.tzSecs = tzSecs

/-- **Counting keeps within the time of the day.** -/
theorem counted_prepare (h : DayBound tzSecs now eng) (hle : now ≤ env.epoch)
    (htz : eng.tzSecs = tzSecs) : (eng.prepare env).Counted tzSecs env.epoch := by
  have hdate : (eng.nowParts env.epoch).date = localDate tzSecs env.epoch := by
    rw [Engine.nowParts, htz]
  obtain ⟨bound, hreset, hfits⟩ := within_dailyReset h hle
  have hcount : (eng.count env).Within
      (60 + sinceMidnight tzSecs (localDate tzSecs env.epoch) env.epoch) := by
    rw [Engine.count, hdate]
    exact (within_accrue hreset).mono hfits
  obtain ⟨hlastDay, hlastTick⟩ := seen_count env eng
  obtain ⟨screenOff, hprepare⟩ := prepare_eq env eng
  obtain ⟨_, _, _, _, hsame⟩ := sameButUsage_maintainCooldowns env.epoch (eng.count env)
  have hday : (eng.prepare env).lastDay = some (localDate tzSecs env.epoch) := by
    rw [hprepare, hsame, ← hdate]
    exact hlastDay
  have htick : (eng.prepare env).lastTick = some env.epoch := by
    rw [hprepare, hsame]
    exact hlastTick
  refine ⟨⟨?_, ?_, ?_⟩, hday, htick, (keepsSetup_prepare env eng).tzSecs.trans htz⟩
  · intro t ht
    rw [htick] at ht
    exact (Option.some.inj ht).ge
  · intro date hdate'
    obtain rfl := Option.some.inj (hday.symm.trans hdate')
    rw [htick, Option.getD_some, hprepare]
    exact within_maintainCooldowns env.epoch hcount
  · intro hnone
    rw [hday] at hnone
    cases hnone

/-- What is enforced and saved after that touches no counter. -/
theorem counted_tickVerdicts (h : DayBound tzSecs now s.eng) (hle : now ≤ env.epoch)
    (htz : s.eng.tzSecs = tzSecs) : (tickVerdicts env s).state.eng.Counted tzSecs env.epoch := by
  have hcounted := counted_prepare h hle htz
  obtain ⟨_, _, _, _, _, _, hframe⟩ := tickVerdicts_enforced env s
  rw [hframe]
  generalize s.eng.prepare env = prepared at hcounted
  exact ⟨hcounted.bound.congr rfl rfl rfl rfl, hcounted.day, hcounted.tick, hcounted.zone⟩

end Step

/-! ## Runs -/

section Runs

variable {tzSecs : Option Int} {now : Nat}

/-- A daemon and the latest clock reading of a tick. -/
structure Clocked where
  daemon : Daemon
  now : Nat

def Clocked.next (x : Clocked) (event : Event) : Option Clocked :=
  (x.daemon.next event).map fun d =>
    { daemon := d
      now := match event with
        | .run (.tick env) => env.epoch
        | _ => x.now }

/-- Runs that begin without a state file. -/
def clockedDaemon : System Clocked Event :=
  .ofNext (fun x => ∃ fs : Fs, x.daemon = .down fs ∧ fs.state = none) Clocked.next

/-- The clock is not set back and the timezone stays; what a tick saves falls on its
day, and other programs leave the state file alone. -/
def KeepsTime (tzSecs : Option Int) (x : Clocked) : Event → Prop
  | .run (.tick env) => x.now ≤ env.epoch ∧
      (x.daemon.Holds fun s => (refresh env s).state.eng.tzSecs = tzSecs) ∧
      localDate tzSecs env.saveEpoch = localDate tzSecs env.epoch
  | .files fs => fs.state = x.daemon.fs.state
  | _ => True

/-- What a run keeps. -/
structure SysBound (tzSecs : Option Int) (now : Nat) (s : Sys) : Prop where
  counters : DayBound tzSecs now s.eng
  file : FileBound tzSecs now s.fs.state

def Clocked.Bound (tzSecs : Option Int) (x : Clocked) : Prop :=
  match x.daemon with
  | .down fs => FileBound tzSecs x.now fs.state
  | .up s => SysBound tzSecs x.now s

/-- A start finds nothing counted, or takes over what the file says of its day. -/
theorem dayBound_restore {eng : Engine} {st : StateFile} {date today : Int}
    (hcounts : CountsWithin (60 + sinceMidnight tzSecs date now) st.usageSeconds st.usageFg)
    (hday : st.day = Calendar.isoText date) (hdate : -1 ≤ date) (htoday : -1 ≤ today)
    (htick : eng.lastTick = none) (h : DayBound tzSecs now eng) :
    DayBound tzSecs now (eng.restore today st) := by
  unfold Engine.restore
  split_ifs with hsame
  · refine ⟨?_, ?_, ?_⟩
    · intro t ht
      rw [htick] at ht
      cases ht
    · intro date' hdate'
      -- the day of the file is the one the engine takes for its own
      have heq : date = today := by
        refine (Calendar.isoText_inj ?_ ?_).mp (hday.symm.trans hsame)
        · exact Int.le_trans (by decide) hdate
        · exact Int.le_trans (by decide) htoday
      obtain rfl := heq.trans (Option.some.inj hdate')
      rw [htick]
      exact hcounts
    · intro hnone
      cases hnone
  · exact h

/-- A restart keeps within the time of the day. -/
theorem sysBound_new {env : Env} {fs : Fs} (h : FileBound tzSecs now fs.state) :
    SysBound tzSecs now (Engine.new env fs) := by
  obtain ⟨rules, source, heng⟩ :=
    loadRules_frame env ⟨{ Engine.blank .start with started := env.epoch }, fs⟩
  obtain ⟨backup, hfs⟩ := loadRules_fs env ⟨{ Engine.blank .start with started := env.epoch }, fs⟩
  obtain ⟨htick, hday, husage, hfg⟩ :
      (loadRules env ⟨{ Engine.blank .start with started := env.epoch }, fs⟩).eng.lastTick = none ∧
      (loadRules env ⟨{ Engine.blank .start with started := env.epoch }, fs⟩).eng.lastDay = none ∧
      (loadRules env ⟨{ Engine.blank .start with started := env.epoch }, fs⟩).eng.usageSeconds =
        ∅ ∧
      (loadRules env ⟨{ Engine.blank .start with started := env.epoch }, fs⟩).eng.usageFg = ∅ := by
    rw [heng]
    exact ⟨rfl, rfl, rfl, rfl⟩
  unfold Engine.new
  generalize loadRules env ⟨{ Engine.blank .start with started := env.epoch }, fs⟩ = s at *
  have hstate : s.fs.state = fs.state := by rw [hfs]
  have hblank : DayBound tzSecs now s.eng := by
    refine ⟨?_, ?_, ?_⟩
    · intro t ht
      rw [htick] at ht
      cases ht
    · intro date hdate
      rw [hday] at hdate
      cases hdate
    · intro
      rw [Engine.Within, husage, hfg]
      exact countsWithin_empty le_rfl
  refine ⟨?_, hstate ▸ h⟩
  show DayBound tzSecs now (s.eng.loadState env s.fs)
  unfold Engine.loadState
  split
  next => exact hblank
  next st hread =>
    obtain ⟨text, htext, hst⟩ := Option.bind_eq_some_iff.mp hread
    have hfound : fs.state = some text := by
      unfold Fs.readState at htext
      split_ifs at htext
      exact hstate.symm.trans htext
    obtain ⟨date, hdate, hfileDay, hcounts⟩ := h text st hfound hst
    exact dayBound_restore hcounts hfileDay hdate (neg_one_le_localDate _ _) htick hblank

/-- A tick keeps to the time of its day, and saves no more. -/
theorem sysBound_tick {env : Env} {s : Sys} (h : SysBound tzSecs now s) (hle : now ≤ env.epoch)
    (htz : (refresh env s).state.eng.tzSecs = tzSecs)
    (hsave : localDate tzSecs env.saveEpoch = localDate tzSecs env.epoch) :
    SysBound tzSecs env.epoch (tick env s).state := by
  have hrefreshed := @dayBound_refresh tzSecs now env s h.counters
  have hcounted {mid : Sys} (hmid : refresh env s = .ok mid) :
      (tick env s).state.eng.Counted tzSecs env.epoch := by
    rw [hmid, Outcome.state_ok] at hrefreshed htz
    rw [tick, hmid, Outcome.bind_ok]
    exact counted_tickVerdicts hrefreshed hle htz
  have hcounters : DayBound tzSecs env.epoch (tick env s).state.eng := by
    cases hmid : refresh env s with
    | err mid =>
        rw [hmid, Outcome.state_err] at hrefreshed
        rw [tick, hmid, Outcome.bind_err]
        exact hrefreshed.mono hle
    | ok mid => exact (hcounted hmid).bound
  refine ⟨hcounters, ?_⟩
  rcases perform_state_cases (.tick env) s with hsame | ⟨env', mid, henv, hmid, hwritten⟩
  · have hkept : (tick env s).state.fs.state = s.fs.state := hsame
    rw [hkept]
    exact h.file.mono hle
  · obtain rfl := Op.tick.inj henv
    have hfound : (tick env s).state.fs.state = some (.json ((tick env s).state.eng.stateFile
        ((tick env s).state.eng.nowParts env.saveEpoch).date).toJson) := hwritten
    have hnow := hcounted hmid
    have hdate : ((tick env s).state.eng.nowParts env.saveEpoch).date =
        localDate tzSecs env.epoch := by
      rw [Engine.nowParts, hnow.zone]
      exact hsave
    intro text st htext hst
    rw [hfound, hdate] at htext
    obtain rfl := Option.some.inj htext
    rw [Text.decode_json, StateFile.ofJson_toJson] at hst
    obtain rfl := Option.some.inj hst
    refine ⟨_, neg_one_le_localDate tzSecs env.epoch, rfl, ?_⟩
    have hwithin := hcounters.within _ hnow.day
    rw [hnow.tick, Option.getD_some] at hwithin
    exact hwithin

theorem dayBound_extension {env : Env} {key : String} {minutes add : UInt32} {eng eng' : Engine}
    (h : DayBound tzSecs now eng) (hext : eng.addExtension env key minutes = .ok (add, eng')) :
    DayBound tzSecs now eng' := by
  obtain ⟨_, _, _, _, rfl⟩ := addExtension_frame hext
  exact h.congr rfl rfl rfl rfl

/-- What every operation keeps. -/
theorem sysBound_perform {op : Op} {s : Sys} (h : SysBound tzSecs now s)
    (hop : ∀ env, op ≠ .tick env) : SysBound tzSecs now (op.perform s) := by
  have hfile : (op.perform s).fs.state = s.fs.state := by
    rcases perform_state_cases op s with hsame | ⟨env, _, henv, -⟩
    · exact hsame
    · exact absurd henv (hop env)
  refine ⟨?_, hfile ▸ h.file⟩
  cases op with
  | tick env => exact absurd rfl (hop env)
  | reload env => exact dayBound_reload h.counters
  | apply env candidate =>
      rcases applyRulesFile_cases env candidate s with hsame | ⟨rules, -, happly⟩
      · rw [Op.perform, Op.outcome, hsame]
        exact h.counters
      · rw [Op.perform, Op.outcome, happly]
        exact dayBound_reload (s := s.writeRules env rules) h.counters
  | extension env key minutes =>
      rw [Op.perform, Op.outcome]
      cases hext : s.eng.addExtension env key minutes with
      | ok result => exact dayBound_extension h.counters hext
      | error => exact h.counters
  | sync env => exact dayBound_syncPackages h.counters
  | killed uid => exact h.counters.congr rfl rfl rfl rfl

/-- What a run keeps. -/
theorem bound_of_reachable {x : Clocked} (hx : clockedDaemon.ReachableWhen (KeepsTime tzSecs) x) :
    x.Bound tzSecs := by
  refine System.ReachableWhen.invariant (?_ : ∀ x, clockedDaemon.init x → x.Bound tzSecs) ?_ hx
  · rintro ⟨d, now⟩ ⟨fs, hdown, hstate⟩
    obtain rfl : d = .down fs := hdown
    intro text st htext
    rw [hstate] at htext
    cases htext
  · rintro ⟨d, now⟩ event x' hbound hcond hnext
    obtain ⟨d', hd', rfl⟩ := Option.map_eq_some_iff.mp hnext
    cases d with
    | down fs =>
        cases event with
        | start env =>
            obtain rfl := Option.some.inj hd'
            exact sysBound_new hbound
        | files fs' =>
            obtain rfl := Option.some.inj hd'
            have hsame : fs'.state = fs.state := hcond
            show FileBound tzSecs now fs'.state
            rw [hsame]
            exact hbound
        | stop => cases hd'
        | run op => cases hd'
    | up s =>
        have hs : SysBound tzSecs now s := hbound
        cases event with
        | start env => cases hd'
        | stop =>
            obtain rfl := Option.some.inj hd'
            exact hs.file
        | files fs' =>
            obtain rfl := Option.some.inj hd'
            have hsame : fs'.state = s.fs.state := hcond
            exact ⟨hs.counters, hsame ▸ hs.file⟩
        | run op =>
            obtain rfl := Option.some.inj hd'
            cases op with
            | tick env =>
                obtain ⟨hle, htz, hsave⟩ := hcond
                exact sysBound_tick hs hle htz hsave
            | reload env => exact sysBound_perform hs (by simp)
            | apply env candidate => exact sysBound_perform hs (by simp)
            | extension env key minutes => exact sysBound_perform hs (by simp)
            | sync env => exact sysBound_perform hs (by simp)
            | killed uid => exact sysBound_perform hs (by simp)

/-- The counters of a running daemon. -/
theorem within_of_reachable {x : Clocked} (hx : clockedDaemon.ReachableWhen (KeepsTime tzSecs) x)
    {s : Sys} (hup : x.daemon = .up s) {date : Int} (hday : s.eng.lastDay = some date) :
    s.eng.Within (sinceMidnight tzSecs date x.now + 60) := by
  have hbound := bound_of_reachable hx
  rw [Clocked.Bound, hup] at hbound
  have hticked : s.eng.lastTick.getD x.now ≤ x.now := by
    cases hlast : s.eng.lastTick with
    | none => exact le_rfl
    | some t => exact hbound.counters.ticked t hlast
  have hmono := sinceMidnight_mono tzSecs date hticked
  exact (hbound.counters.within date hday).mono (by omega)

/-- **No second is counted twice.**  In a run whose clock is not set back and whose
timezone stays, no counter is ahead of the time that has passed of its day by
more than one tick's worth, restarts included. -/
theorem usage_within_day {x : Clocked} (hx : clockedDaemon.ReachableWhen (KeepsTime tzSecs) x)
    {s : Sys} (hup : x.daemon = .up s) {date : Int} (hday : s.eng.lastDay = some date) (uid : Uid) :
    (s.eng.usageOf uid : Int) ≤ sinceMidnight tzSecs date x.now + 60 ∧
      (s.eng.fgOf uid : Int) ≤ sinceMidnight tzSecs date x.now + 60 :=
  Engine.within_iff.mp (within_of_reachable hx hup hday) uid

/-- **The `u64` counters do not wrap**: what a tick of such a run adds to them leaves
them within the time of the day and two minutes. -/
theorem countersFit_addUsage {x : Clocked}
    (hx : clockedDaemon.ReachableWhen (KeepsTime tzSecs) x) {s : Sys} (hup : x.daemon = .up s)
    {date : Int} (hday : s.eng.lastDay = some date)
    (hsmall : sinceMidnight tzSecs date x.now + 120 < 2 ^ 64) {elapsed : Nat}
    (htick : elapsed ≤ maxTickSecs) (live fg : UidSet) (uid : Uid) :
    (s.eng.addUsage elapsed live fg uid).CountersFit := by
  intro u
  obtain ⟨husage, hfg⟩ := Engine.within_iff.mp (within_of_reachable hx hup hday) u
  have htick' : elapsed ≤ 60 := htick
  rw [usageOf_addUsage, fgOf_addUsage]
  constructor <;> split_ifs <;> omega

/-- A daemon with a limit counts a minute and is stopped. -/
def countingStart : Sys := Engine.new (.quiet 100) (timedFiles ⟨5, 0, "any"⟩ 1)

def counting : Sys := (Op.tick (listedEnv 100)).perform countingStart

def stopped : Sys := (Op.tick (listedEnv 160)).perform counting

/-- It is started again and goes on counting. -/
def startedAgain : Sys := Engine.new (.quiet 160) stopped.fs

def tickedAgain : Sys := (Op.tick (listedEnv 220)).perform startedAgain

def restarted : Sys := (Op.tick (listedEnv 230)).perform tickedAgain

theorem usage_within_day_restarted :
    restarted.eng.usageOf 10001 = 70 ∧ restarted.eng.fgOf 10001 = 70 ∧
      (restarted.eng.usageOf 10001 : Int) ≤ sinceMidnight (some 0) 0 230 + 60 ∧
      (restarted.eng.fgOf 10001 : Int) ≤ sinceMidnight (some 0) 0 230 + 60 := by
  have hstart {fs : Fs} {now : Nat} (env : Env)
      (h : clockedDaemon.ReachableWhen (KeepsTime (some 0)) ⟨.down fs, now⟩) :
      clockedDaemon.ReachableWhen (KeepsTime (some 0)) ⟨.up (Engine.new env fs), now⟩ := by
    have hcond : KeepsTime (some 0) ⟨.down fs, now⟩ (.start env) := trivial
    exact .step h hcond rfl
  have htick {s : Sys} {now : Nat} {env : Env} (hle : now ≤ env.epoch)
      (htz : (refresh env s).state.eng.tzSecs = some 0)
      (hsave : localDate (some 0) env.saveEpoch = localDate (some 0) env.epoch)
      (h : clockedDaemon.ReachableWhen (KeepsTime (some 0)) ⟨.up s, now⟩) :
      clockedDaemon.ReachableWhen (KeepsTime (some 0))
        ⟨.up ((Op.tick env).perform s), env.epoch⟩ := by
    have hcond : KeepsTime (some 0) ⟨.up s, now⟩ (.run (.tick env)) := ⟨hle, htz, hsave⟩
    exact .step h hcond rfl
  have hdown : clockedDaemon.ReachableWhen (KeepsTime (some 0))
      ⟨.down (timedFiles ⟨5, 0, "any"⟩ 1), 0⟩ :=
    .init ⟨_, rfl, rfl⟩
  have hcounting : clockedDaemon.ReachableWhen (KeepsTime (some 0)) ⟨.up counting, 100⟩ :=
    htick (by decide) (by decide +kernel) rfl (hstart (.quiet 100) hdown)
  have hminute : clockedDaemon.ReachableWhen (KeepsTime (some 0)) ⟨.up stopped, 160⟩ :=
    htick (by decide) (by decide +kernel) rfl hcounting
  have hstop : clockedDaemon.ReachableWhen (KeepsTime (some 0)) ⟨.down stopped.fs, 160⟩ := by
    have hcond : KeepsTime (some 0) ⟨.up stopped, 160⟩ .stop := trivial
    exact .step hminute hcond rfl
  have hagain : clockedDaemon.ReachableWhen (KeepsTime (some 0)) ⟨.up tickedAgain, 220⟩ :=
    htick (by decide) (by decide +kernel) rfl (hstart (.quiet 160) hstop)
  have hend : clockedDaemon.ReachableWhen (KeepsTime (some 0)) ⟨.up restarted, 230⟩ :=
    htick (by decide) (by decide +kernel) rfl hagain
  have hday : restarted.eng.lastDay = some 0 := by decide +kernel
  exact ⟨by decide +kernel, by decide +kernel, usage_within_day hend rfl hday 10001⟩

end Runs

end Ningshi
