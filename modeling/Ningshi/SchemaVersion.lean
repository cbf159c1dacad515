import Ningshi.Daemon

/-!
# Rules of a newer schema

An apply refuses a file whose version is newer than the build understands.  The
other paths by which a file becomes active do not look at the version: the live
file and the backup at start-up, and the reads of a reload and of a tick.

`adoptedByLoad` and `adoptedByReload` name the content a load takes its rules
from.  `version_le_of_adoptsKnown` says that the active rules are of a known
version in every run in which these contents are.
-/

namespace Ningshi

open Std FiniteMap JsonDoc Transition

/-- The rules in this content, if any, are of a version the build understands. -/
def KnownVersion (content : Option Text) : Prop :=
  ∀ rules, Rules.load content = some rules → rules.version ≤ rulesVersionMax

/-- The content `loadRules` takes the rules from. -/
def adoptedByLoad (env : Env) (fs : Fs) : Option Text :=
  if (Rules.load (fs.readRules env .loadRules)).isSome then fs.readRules env .loadRules
  else fs.readBackup env

/-- The content a reload takes the rules from; `none` when it keeps those it has. -/
def adoptedByReload (env : Env) (s : Sys) : Option Text :=
  if (Rules.load (s.fs.readRules env .reloadRules)).isSome then s.fs.readRules env .reloadRules
  else if s.eng.rulesSource = .file then none
  else adoptedByLoad env s.fs

/-- What is adopted is of a known version.  A tick adopts something when it
finds a new file time; an apply adopts the backup when it can read its own file
back at neither place and has no file in use. -/
def AdoptsKnown : Daemon → Event → Prop
  | .down fs, .start env => KnownVersion (adoptedByLoad env fs)
  | .up s, .run (.tick env) =>
      ∀ mtime, s.fs.statRules env .statRules = some mtime → s.eng.lastMtime ≠ some mtime →
        KnownVersion (adoptedByReload env s)
  | .up s, .run (.reload env) => KnownVersion (adoptedByReload env s)
  | .up s, .run (.apply env _) =>
      env.fails .reloadRules = true → env.fails .loadRules = true → s.eng.rulesSource ≠ .file →
        KnownVersion (s.fs.readBackup env)
  | _, _ => True

/-- A rule set of a known version. -/
def Engine.Known (eng : Engine) : Prop := eng.rules.version ≤ rulesVersionMax

theorem known_loadFrom {content : Option Text} {source : RulesSource} {eng eng' : Engine}
    (hknown : KnownVersion content) (h : eng.loadFrom content source = some eng') :
    eng'.Known := by
  obtain ⟨rules, hload, rfl⟩ := Engine.loadFrom_eq_some h
  exact hknown rules hload

/-- The built-in rules are of a known version. -/
theorem known_fallBack {backup : Option Text} (hknown : KnownVersion backup) (eng : Engine) :
    (eng.fallBack backup).Known := by
  unfold Engine.fallBack
  cases hload : eng.loadFrom backup .backup with
  | some eng' => exact known_loadFrom hknown hload
  | none => exact (by decide : Rules.default.version ≤ rulesVersionMax)

theorem known_loadRules {env : Env} {s : Sys} (hknown : KnownVersion (adoptedByLoad env s.fs)) :
    (loadRules env s).eng.Known := by
  unfold adoptedByLoad at hknown
  cases hload : Rules.load (s.fs.readRules env .loadRules) with
  | some rules =>
      rw [hload, Option.isSome_some, if_pos rfl] at hknown
      rw [loadRules_of_loads hload]
      exact hknown rules hload
  | none =>
      rw [hload, Option.isSome_none, if_neg Bool.false_ne_true] at hknown
      rw [loadRules_of_unusable hload]
      exact known_fallBack hknown s.eng

/-- A reload that keeps its rules keeps their version. -/
theorem known_reloadRules {env : Env} {s : Sys} (hs : s.eng.Known)
    (hknown : KnownVersion (adoptedByReload env s)) : (reloadRules env s).eng.Known := by
  unfold adoptedByReload at hknown
  cases hload : Rules.load (s.fs.readRules env .reloadRules) with
  | some rules =>
      rw [hload, Option.isSome_some, if_pos rfl] at hknown
      rw [reloadRules_of_loads hload]
      exact hknown rules hload
  | none =>
      rw [hload, Option.isSome_none, if_neg Bool.false_ne_true] at hknown
      rw [reloadRules_of_unusable hload]
      split_ifs at hknown ⊢ with hsource
      · exact hs
      · exact known_loadRules hknown

theorem known_reload {env : Env} {s : Sys} (hs : s.eng.Known)
    (hknown : KnownVersion (adoptedByReload env s)) : (reload env s).state.eng.Known := by
  rw [Engine.Known, (reload_loaded env s).1]
  exact known_reloadRules hs hknown

/-- What an apply writes is read back with the version it has checked. -/
theorem knownVersion_written {rules : Rules} (hversion : rules.version ≤ rulesVersionMax) :
    KnownVersion (some (.json rules.sanitize.toJson)) := by
  intro rules' hrules'
  obtain rfl := Option.some.inj ((Rules.load_written rules).symm.trans hrules')
  exact hversion

/-- After its write an apply adopts what it wrote, nothing, or the backup. -/
theorem knownVersion_writeRules {env : Env} {rules : Rules} {s : Sys}
    (hversion : rules.version ≤ rulesVersionMax)
    (hbackup : env.fails .reloadRules = true → env.fails .loadRules = true →
      s.eng.rulesSource ≠ .file → KnownVersion (s.fs.readBackup env)) :
    KnownVersion (adoptedByReload env (s.writeRules env rules)) := by
  have hread (call : FsCall) : (s.writeRules env rules).fs.readRules env call =
      if env.fails call then none else some (.json rules.sanitize.toJson) := rfl
  simp only [adoptedByReload, adoptedByLoad, hread]
  by_cases hreload : env.fails .reloadRules = true
  · rw [if_pos hreload, Rules.load, Option.bind_none, Option.map_none, Option.isSome_none,
      if_neg Bool.false_ne_true]
    -- The first read failed; what counts is the source of the active rules, then the second.
    split_ifs with hsource hload hsome hsome
    · exact fun rules' hrules' => by cases hrules'
    · cases hsome
    · exact hbackup hreload hload hsource
    · exact knownVersion_written hversion
    · rw [Rules.load_written] at hsome
      exact absurd rfl hsome
  · rw [if_neg hreload, Rules.load_written, Option.isSome_some, if_pos rfl]
    exact knownVersion_written hversion

/-! ## Runs -/

theorem known_tick {env : Env} {s : Sys} (hs : s.eng.Known)
    (hknown : AdoptsKnown (.up s) (.run (.tick env))) : (tick env s).state.eng.Known := by
  have hchanged : (reloadIfChanged env s).state.eng.Known := by
    unfold reloadIfChanged
    split
    next => exact hs
    next mtime hstat =>
      split_ifs with hsame
      · exact hs
      · exact known_reload hs (hknown mtime hstat hsame)
  have hrefreshed : (refresh env s).state.eng.Known :=
    Outcome.bind_state (p := fun s' : Sys => s'.eng.Known) hchanged fun s' _ hs' => by
      rw [Engine.Known, (keepsRules_syncPackages env s').rules]
      exact hs'
  rw [Engine.Known, (keepsConfig_tick env s).rules]
  exact hrefreshed

theorem known_apply {env : Env} {candidate : Option Text} {s : Sys} (hs : s.eng.Known)
    (hknown : AdoptsKnown (.up s) (.run (.apply env candidate))) :
    (applyRulesFile env candidate s).state.eng.Known := by
  rcases applyRulesFile_cases env candidate s with h | ⟨rules, haccepts, h⟩
  · rw [h]
    exact hs
  · rw [h]
    exact known_reload hs (knownVersion_writeRules haccepts.known hknown)

/-- **No newer schema is active** in any state of a run that adopts known
versions only. -/
theorem version_le_of_adoptsKnown {d : Daemon} (hd : daemon.ReachableWhen AdoptsKnown d) :
    d.Holds fun s => s.eng.rules.version ≤ rulesVersionMax := by
  refine daemon_invariant (fun fs env hknown => ?_) (fun s op hs hknown => ?_)
    (fun s fs hs => hs) hd
  · rw [(new_loaded env fs).1]
    exact known_loadRules hknown
  · cases op with
    | tick env => exact known_tick hs hknown
    | reload env => exact known_reload hs hknown
    | apply env candidate => exact known_apply hs hknown
    | extension env key minutes =>
        obtain ⟨eng, h, hkeeps⟩ := perform_extension env key minutes s
        rw [h, hkeeps.rules]
        exact hs
    | sync env =>
        rw [Op.perform, Op.outcome, (keepsRules_syncPackages env s).rules]
        exact hs
    | killed uid => exact hs

/-- A rules file of the version after the last one the build understands. -/
def futureFiles : Fs :=
  ⟨some ⟨.json (.obj [("version", .num 2)]), 1⟩, none, none, none⟩

/-- A rules file of the current version. -/
def currentFiles : Fs :=
  ⟨some ⟨.json (.obj [("version", .num 1)]), 1⟩, none, none, none⟩

theorem currentFiles_known : AdoptsKnown (.down currentFiles) (.start (.quiet 100)) := by
  intro rules hrules
  have hload : (Rules.load (adoptedByLoad (.quiet 100) currentFiles)).map Rules.version =
      some 1 := by decide +kernel
  rw [hrules] at hload
  rw [Option.some.inj hload]
  decide

theorem version_le_of_adoptsKnown_currentFiles :
    (Engine.new (.quiet 100) currentFiles).eng.rules.version ≤ rulesVersionMax :=
  version_le_of_adoptsKnown (reachable_new currentFiles_known)

/-- Start-up adopts the newer file. -/
theorem not_version_le :
    ¬ ∀ d, daemon.Reachable d → d.Holds fun s => s.eng.rules.version ≤ rulesVersionMax := by
  intro h
  have hversion := h (.up (Engine.new (.quiet 100) futureFiles)) (reachable_new trivial)
  revert hversion
  rw [Daemon.holds_up]
  decide +kernel

end Ningshi
