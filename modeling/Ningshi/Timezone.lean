import Ningshi.Protection

/-!
# The timezone of the rules in force

Rules are loaded at start-up as well as by a reload, but only a reload derives
the timezone from them, and a tick reloads only when it finds the live file.  A
daemon that starts from the backup while there is no live file keeps working in
UTC.  `onTime_iff` says exactly when the clock of a successful tick is that of
the rules in force.
-/

namespace Ningshi

open Std FiniteMap JsonDoc Transition

/-- The offset is that of the active rules, and the tick has reset the day and
taken its verdicts by it. -/
structure OnTime (env : Env) (s s' : Sys) : Prop where
  offset : s'.eng.tzSecs = parseTz s'.eng.rules.settings.timezone
  clock : ∀ mid, refresh env s = .ok mid →
    mid.eng.nowParts env.epoch =
        Ningshi.nowParts (parseTz s'.eng.rules.settings.timezone) env.epoch ∧
      (mid.eng.prepare env).nowParts env.epoch =
        Ningshi.nowParts (parseTz s'.eng.rules.settings.timezone) env.epoch

/-- A reload has run since start-up, which shows in the list of protected
packages; or the live file is there; or the rules name no timezone. -/
def TimezoneDerived (env : Env) (s : Sys) : Prop :=
  s.eng.ListLoaded ∨ (s.fs.statRules env .statRules).isSome ∨
    parseTz s.eng.rules.settings.timezone = none

/-- What a run keeps: the timezone is derived by the reload that loads the
protected packages, and a recorded file time means that there was one. -/
structure Derived (eng : Engine) : Prop where
  loaded : eng.ListLoaded → eng.tzSecs = parseTz eng.rules.settings.timezone
  unloaded : ¬ eng.ListLoaded → eng.tzSecs = none
  recorded : eng.lastMtime.isSome → eng.ListLoaded

theorem Derived.congr {eng eng' : Engine} (h : Derived eng) (hrules : eng'.rules = eng.rules)
    (htz : eng'.tzSecs = eng.tzSecs) (hlist : eng'.protectedPkgs = eng.protectedPkgs)
    (hmtime : eng'.lastMtime = eng.lastMtime) : Derived eng' := by
  have hloaded : eng'.ListLoaded ↔ eng.ListLoaded := by
    unfold Engine.ListLoaded
    rw [hlist]
  refine ⟨fun hlist' => ?_, fun hlist' => ?_, fun hsome => ?_⟩
  · rw [htz, hrules]
    exact h.loaded (hloaded.mp hlist')
  · rw [htz]
    exact h.unloaded fun hlist => hlist' (hloaded.mpr hlist)
  · rw [hmtime] at hsome
    exact hloaded.mpr (h.recorded hsome)

theorem KeepsSetup.derived {eng eng' : Engine} (hkeeps : KeepsSetup eng eng')
    (h : Derived eng) : Derived eng' :=
  h.congr hkeeps.rules hkeeps.tzSecs hkeeps.protectedPkgs hkeeps.lastMtime

/-! ## One operation -/

/-- A reload derives, however it ends. -/
theorem derived_reload (env : Env) (s : Sys) : Derived (reload env s).state.eng := by
  have hlist := listLoaded_reload env s
  obtain ⟨_, _, _, _, _, _, h⟩ := reload_frame env s
  refine ⟨fun _ => ?_, fun hnot => absurd hlist hnot, fun _ => hlist⟩
  rw [h]

theorem derived_reloadIfChanged {env : Env} {s : Sys} (hs : Derived s.eng) :
    Derived (reloadIfChanged env s).state.eng := by
  unfold reloadIfChanged
  split
  next => exact hs
  next =>
    split_ifs
    · exact hs
    · exact derived_reload env s

theorem derived_sync {env : Env} {s : Sys} (hs : Derived s.eng) :
    Derived (syncPackages env s).state.eng := by
  have hkeeps := keepsRules_syncPackages env s
  exact hs.congr hkeeps.rules hkeeps.tzSecs hkeeps.protectedPkgs hkeeps.lastMtime

theorem derived_refresh {env : Env} {s : Sys} (hs : Derived s.eng) :
    Derived (refresh env s).state.eng :=
  Outcome.bind_state (p := fun s : Sys => Derived s.eng) (derived_reloadIfChanged hs)
    fun _ _ hs' => derived_sync hs'

/-- After its refresh a tick keeps rules and timezone. -/
theorem tickVerdicts_timezone (env : Env) (s : Sys) :
    (tickVerdicts env s).state.eng.rules = s.eng.rules ∧
      (tickVerdicts env s).state.eng.tzSecs = s.eng.tzSecs ∧
      (tickVerdicts env s).state.eng.protectedPkgs = s.eng.protectedPkgs ∧
      (tickVerdicts env s).state.eng.lastMtime = s.eng.lastMtime := by
  obtain ⟨prepared, hkeeps, _, _, _, _, _, _, h⟩ := tickVerdicts_frame env s
  rw [h]
  exact ⟨hkeeps.rules, hkeeps.tzSecs, hkeeps.protectedPkgs, hkeeps.lastMtime⟩

theorem derived_perform (op : Op) {s : Sys} (hs : Derived s.eng) :
    Derived (op.perform s).eng := by
  cases op with
  | tick env =>
      refine Outcome.bind_state (p := fun s : Sys => Derived s.eng) (derived_refresh hs)
        fun mid _ hmid => ?_
      obtain ⟨hrules, htz, hlist, hmtime⟩ := tickVerdicts_timezone env mid
      exact hmid.congr hrules htz hlist hmtime
  | reload env => exact derived_reload env s
  | apply env candidate =>
      rw [Op.perform, Op.outcome]
      rcases applyRulesFile_cases env candidate s with h | ⟨rules, -, h⟩
      · rw [h]
        exact hs
      · rw [h]
        exact derived_reload env (s.writeRules env rules)
  | extension env key minutes =>
      obtain ⟨eng, h, hkeeps⟩ := perform_extension env key minutes s
      rw [h]
      exact hkeeps.derived hs
  | sync env => exact derived_sync hs
  | killed uid => exact hs.congr rfl rfl rfl rfl

/-- Start-up loads rules and derives nothing from them. -/
theorem derived_new (env : Env) (fs : Fs) : Derived (Engine.new env fs).eng := by
  have hframe : (Engine.new env fs).eng.tzSecs = none ∧
      (Engine.new env fs).eng.protectedPkgs = ∅ ∧ (Engine.new env fs).eng.lastMtime = none := by
    obtain ⟨rules, source, heng⟩ :=
      loadRules_frame env ⟨{ Engine.blank .start with started := env.epoch }, fs⟩
    simp only [Engine.new, Engine.loadState, heng, Engine.restore]
    split
    next => exact ⟨rfl, rfl, rfl⟩
    next => split_ifs <;> exact ⟨rfl, rfl, rfl⟩
  obtain ⟨htz, hlist, hmtime⟩ := hframe
  have hunloaded : ¬ (Engine.new env fs).eng.ListLoaded := by
    intro hloaded
    have hmem := hloaded "com.android.settings" (by decide)
    rw [hlist] at hmem
    simp at hmem
  refine ⟨fun hloaded => absurd hloaded hunloaded, fun _ => htz, fun hsome => ?_⟩
  rw [hmtime] at hsome
  cases hsome

/-- **Every run derives the timezone with the protected packages.** -/
theorem derived_of_reachable {s : Sys} (hs : daemon.Reachable (.up s)) : Derived s.eng :=
  daemon_invariant (p := fun s => Derived s.eng) (fun fs env _ => derived_new env fs)
    (fun _ op hs _ => derived_perform op hs) (fun _ _ hs => hs) hs

/-! ## One tick -/

/-- What the refresh of a tick leaves of rules and timezone. -/
theorem refresh_timezone {env : Env} {s mid : Sys} (hs : Derived s.eng)
    (hrefresh : refresh env s = .ok mid) :
    mid.eng.tzSecs = parseTz mid.eng.rules.settings.timezone ↔ TimezoneDerived env s := by
  obtain ⟨s', hreload, hsync⟩ := Outcome.bind_eq_ok_iff.mp hrefresh
  have hkeeps := keepsRules_syncPackages env s'
  rw [hsync, Outcome.state_ok] at hkeeps
  rw [hkeeps.tzSecs, hkeeps.rules]
  unfold reloadIfChanged at hreload
  split at hreload
  next hnone =>
    -- no live file: nothing is derived, and the offset is from before
    obtain rfl := Outcome.ok.inj hreload
    by_cases hlist : s.eng.ListLoaded
    · exact iff_of_true (hs.loaded hlist) (.inl hlist)
    · simp [TimezoneDerived, hs.unloaded hlist, hlist, hnone, eq_comm]
  next mtime hsome =>
    have hderived : TimezoneDerived env s := .inr (.inl (by rw [hsome]; rfl))
    refine iff_of_true ?_ hderived
    split_ifs at hreload with hsame
    · obtain rfl := Outcome.ok.inj hreload
      exact hs.loaded (hs.recorded (by rw [hsame]; rfl))
    · have hnew := derived_reload env s
      have hloaded := listLoaded_reload env s
      rw [hreload, Outcome.state_ok] at hnew hloaded
      exact hnew.loaded hloaded

/-- **Exactly when a successful tick works in the timezone of its rules**, in
any state of any run. -/
theorem onTime_iff {env : Env} {s s' : Sys} (hs : daemon.Reachable (.up s))
    (htick : tick env s = .ok s') : OnTime env s s' ↔ TimezoneDerived env s := by
  obtain ⟨mid, hrefresh, hrest⟩ := Outcome.bind_eq_ok_iff.mp htick
  obtain ⟨hrules, htz, -, -⟩ := tickVerdicts_timezone env mid
  rw [hrest, Outcome.state_ok] at hrules htz
  rw [← refresh_timezone (derived_of_reachable hs) hrefresh]
  constructor
  · intro h
    rw [← htz, ← hrules]
    exact h.offset
  · intro h
    rw [← htz, ← hrules] at h
    refine ⟨h, fun mid' hmid' => ?_⟩
    obtain rfl := Outcome.ok.inj (hmid'.symm.trans hrefresh)
    have hkeeps := keepsSetup_prepare env mid'.eng
    rw [Engine.nowParts, Engine.nowParts, hkeeps.tzSecs, ← htz, h]
    exact ⟨rfl, rfl⟩

/-- The rules file is gone, the backup names a timezone. -/
def zonedBackup : Fs where
  rules := none
  backup := some (.json
    { Rules.default with settings := { Settings.default with timezone := "UTC+8" } }.toJson)
  state := none
  packages := none

/-- A live file that names the same timezone. -/
def zonedFile : Fs where
  rules := some ⟨.json
    { Rules.default with settings := { Settings.default with timezone := "UTC+8" } }.toJson, 1⟩
  backup := none
  state := none
  packages := some ⟨"com.game 10001", 1⟩

theorem onTime_iff_zonedFile :
    OnTime (.quiet 100) (Engine.new (.quiet 100) zonedFile)
        (tick (.quiet 100) (Engine.new (.quiet 100) zonedFile)).state ↔
      TimezoneDerived (.quiet 100) (Engine.new (.quiet 100) zonedFile) :=
  onTime_iff (reachable_new trivial) (Outcome.eq_ok_of_isOk (by decide +kernel))

/-- Rules from the backup are enforced in UTC. -/
theorem not_onTime :
    ¬ ∀ (env : Env) (s s' : Sys), daemon.Reachable (.up s) → tick env s = .ok s' →
      OnTime env s s' := by
  intro h
  have hok : (tick (.quiet 100) (Engine.new (.quiet 100) zonedBackup)).isOk = true := by
    decide +kernel
  have hoffset := (h _ _ _ (reachable_new trivial) (Outcome.eq_ok_of_isOk hok)).offset
  revert hoffset
  decide +kernel

end Ningshi
