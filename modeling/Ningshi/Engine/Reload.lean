import Ningshi.Engine.State

/-!
# Loading, reloading and applying rules; loading and saving the state

Rules become active in `loadRules` (start-up, and the fall-back of a reload),
in the read at the beginning of `reload`, and through `applyRulesFile`, which
writes the file and reloads it.  A reload then derives the timezone and the
protected packages, rebuilds the uid map, records the file time and clears the
cooldowns of groups whose pooling mode was toggled.  It can stop halfway, when
the package list cannot be read.

What one of these operations can change at all is said once, by the frame
lemmas `loadRules_frame` and `reload_frame`.
-/

namespace Ningshi

open Std FiniteMap JsonDoc Transition

/-- Packages that must never be blocked. -/
def protectedPackages : List String :=
  ["me.weishu.kernelsu", "com.android.systemui", "com.android.settings"]

/-- The package of a component name `pkg/activity`. -/
def componentPackage (line : String) : Option String :=
  (RustStr.splitOnce '/' line.toList).map fun p => String.ofList p.1

/-- The static list, the input method and the launcher. -/
def resolveProtected (env : Env) : ExtTreeSet String compare :=
  .ofList (protectedPackages ++ (env.imeLine.bind componentPackage).toList ++
    (env.homeLine.bind componentPackage).toList) compare

/-! ## Loading rules -/

/-- Adopt a rules file, if it parses. -/
def Engine.loadFrom (content : Option Text) (source : RulesSource) (eng : Engine) :
    Option Engine :=
  (Rules.load content).map fun rules => { eng with rules := rules, rulesSource := source }

/-- Adopt the backup, or the built-in default when it does not parse either. -/
def Engine.fallBack (backup : Option Text) (eng : Engine) : Engine :=
  (eng.loadFrom backup .backup).getD { eng with rules := .default, rulesSource := .default }

/-- Keep a copy of the file that just parsed.  A missing source leaves the
backup alone. -/
def Fs.refreshBackup (env : Env) (fs : Fs) : Fs :=
  match fs.rules with
  | none => fs
  | some file =>
      if env.fails .copyBackup then { fs with backup := env.brokenCopy fs.backup }
      else { fs with backup := some file.content }

/-- The live file, else the last known good copy, else the built-in default. -/
def loadRules (env : Env) (s : Sys) : Sys :=
  match s.eng.loadFrom (s.fs.readRules env .loadRules) .file with
  | some eng => ⟨eng, s.fs.refreshBackup env⟩
  | none => ⟨s.eng.fallBack (s.fs.readBackup env), s.fs⟩

/-! ## Reloading -/

/-- The first part of a reload.  An unreadable file leaves the active rules
alone, unless they are a fallback set already. -/
def reloadRules (env : Env) (s : Sys) : Sys :=
  match s.eng.loadFrom (s.fs.readRules env .reloadRules) .file with
  | some eng => ⟨eng, s.fs.refreshBackup env⟩
  -- here the live file is tried a second time before the backup
  | none => if s.eng.rulesSource = .file then s else loadRules env s

/-- Timezone and protected packages of the rules now active. -/
def Engine.deriveSettings (env : Env) (eng : Engine) : Engine :=
  { eng with
    tzSecs := parseTz eng.rules.settings.timezone
    protectedPkgs := resolveProtected env }

def Engine.withUids (uidOf : UidOf) (eng : Engine) : Engine := { eng with uidOf := uidOf }

def Engine.recordMtime (mtime : Option Nat) (eng : Engine) : Engine :=
  { eng with lastMtime := mtime.or eng.lastMtime }

def Rules.sharedFlags (rules : Rules) : KeyMap Bool := rules.groups.map fun _ g => g.sharedPool

/-- Forget the cooldowns of one group and of its members. -/
def Engine.clearCooldowns (gid : String) (eng : Engine) : Engine :=
  { eng with
    groupCooldownUntil := eng.groupCooldownUntil.erase gid
    cooldownUntil := ((eng.rules.groups[gid]?.map GroupRule.members).getD []).foldl
      (fun m member =>
        match eng.uidOf[member]? with
        | some uid => m.erase uid
        | none => m) eng.cooldownUntil }

/-- Was this group's pooling mode toggled? -/
def Engine.toggled (eng : Engine) (gid : String) (old : Bool) : Bool :=
  ((eng.rules.groups[gid]?.map GroupRule.sharedPool).getD old) != old

/-- Clear the cooldowns of every group whose pooling mode was toggled. -/
def Engine.clearToggled (oldShared : KeyMap Bool) (eng : Engine) : Engine :=
  oldShared.toList.foldl
    (fun eng p => if eng.toggled p.1 p.2 then eng.clearCooldowns p.1 else eng) eng

/-- The part of a reload after the package list has been read. -/
def Engine.finishReload (oldShared : KeyMap Bool) (uidOf : UidOf) (mtime : Option Nat)
    (eng : Engine) : Engine :=
  ((eng.withUids uidOf).recordMtime mtime).clearToggled oldShared

/-- Reload `rules.json` and rebuild the uid map. -/
def reload (env : Env) (s : Sys) : Outcome Sys :=
  let s' := reloadRules env s
  let eng := s'.eng.deriveSettings env
  match s'.fs.resolveUids env .reloadPackages with
  | none => .err ⟨eng, s'.fs⟩
  | some uidOf =>
      let mtime := s'.fs.statRules env .restatRules
      .ok ⟨eng.finishReload s.eng.rules.sharedFlags uidOf mtime, s'.fs⟩

/-- Reload when the file time differs from the one last recorded. -/
def reloadIfChanged (env : Env) (s : Sys) : Outcome Sys :=
  match s.fs.statRules env .statRules with
  | none => .ok s
  | some mtime => if s.eng.lastMtime = some mtime then .ok s else reload env s

/-- Validate a candidate file, make it the live one and reload.  `candidate`
is what reading it returns. -/
def applyRulesFile (env : Env) (candidate : Option Text) (s : Sys) : Outcome Sys :=
  match candidate.bind Rules.fromStr with
  | none => .err s
  | some rules =>
      -- the only place where the version is looked at
      if rulesVersionMax < rules.version then .err s
      else if env.fails .writeRules then .err s
      else
        let canonical := Text.json rules.sanitize.toJson
        -- a reload that fell back to the backup is an error, with the backup's rules active
        (reload env { s with fs.rules := some ⟨canonical, env.writeMtime⟩ }).bind fun s =>
          if s.eng.rulesSource = .file then .ok s else .err s

/-! ## State -/

/-- Take over a state file of this day. -/
def Engine.restore (today : Int) (st : StateFile) (eng : Engine) : Engine :=
  if st.day = Calendar.isoText today then
    { eng with
      lastDay := some today
      usageSeconds := st.usageSeconds
      usageFg := st.usageFg
      cooldownUntil := st.cooldownUntil
      groupCooldownUntil := st.groupCooldownUntil
      extGrantedToday := st.extGrantedToday
      groupExtGrantedToday := st.groupExtGrantedToday
      killCount := st.killCount }
  else eng

/-- `load_state`: a file that cannot be read or parsed is ignored. -/
def Engine.loadState (env : Env) (fs : Fs) (eng : Engine) : Engine :=
  match (fs.readState env).bind (Text.decode StateFile.ofJson) with
  | none => eng
  | some st => eng.restore (eng.nowParts env.epoch).date st

/-- What `save_state` writes on this day. -/
def Engine.stateFile (date : Int) (eng : Engine) : StateFile where
  day := Calendar.isoText date
  usageSeconds := eng.usageSeconds
  usageFg := eng.usageFg
  cooldownUntil := eng.cooldownUntil
  groupCooldownUntil := eng.groupCooldownUntil
  extGrantedToday := eng.extGrantedToday
  groupExtGrantedToday := eng.groupExtGrantedToday
  killCount := eng.killCount

/-- Persist the state; the save time advances even when the write fails. -/
def saveState (env : Env) (s : Sys) : Sys :=
  let written := Text.json (s.eng.stateFile (s.eng.nowParts env.saveEpoch).date).toJson
  { eng := { s.eng with lastSave := env.saveEpoch }
    fs := if env.fails .writeState then s.fs else { s.fs with state := some written } }

/-- `Engine::new`: blank record, rules, then the state. -/
def Engine.new (env : Env) (fs : Fs) : Sys :=
  let s := loadRules env ⟨{ Engine.blank .start with started := env.epoch }, fs⟩
  { s with eng := s.eng.loadState env s.fs }

/-! ## What these operations can change -/

theorem Engine.loadFrom_eq_some {content : Option Text} {source : RulesSource}
    {eng eng' : Engine} (h : eng.loadFrom content source = some eng') :
    ∃ rules, Rules.load content = some rules ∧
      eng' = { eng with rules := rules, rulesSource := source } := by
  obtain ⟨rules, hload, rfl⟩ := Option.map_eq_some_iff.mp h
  exact ⟨rules, hload, rfl⟩

/-- The fallback depends on the backup only, and is never the live file. -/
theorem Engine.fallBack_frame (backup : Option Text) :
    ∃ rules source, source ≠ .file ∧ ∀ eng : Engine, eng.fallBack backup =
      { eng with rules := rules, rulesSource := source } := by
  unfold Engine.fallBack Engine.loadFrom
  cases Rules.load backup with
  | some rules => exact ⟨rules, .backup, by decide, fun _ => rfl⟩
  | none => exact ⟨.default, .default, by decide, fun _ => rfl⟩

section Load

variable {env : Env} {s : Sys}

theorem loadRules_of_loads {rules : Rules}
    (h : Rules.load (s.fs.readRules env .loadRules) = some rules) :
    loadRules env s =
      ⟨{ s.eng with rules := rules, rulesSource := .file }, s.fs.refreshBackup env⟩ := by
  simp only [loadRules, Engine.loadFrom, h, Option.map_some]

theorem loadRules_of_unusable (h : Rules.load (s.fs.readRules env .loadRules) = none) :
    loadRules env s = ⟨s.eng.fallBack (s.fs.readBackup env), s.fs⟩ := by
  simp only [loadRules, Engine.loadFrom, h, Option.map_none]

theorem reloadRules_of_loads {rules : Rules}
    (h : Rules.load (s.fs.readRules env .reloadRules) = some rules) :
    reloadRules env s =
      ⟨{ s.eng with rules := rules, rulesSource := .file }, s.fs.refreshBackup env⟩ := by
  simp only [reloadRules, Engine.loadFrom, h, Option.map_some]

theorem reloadRules_of_unusable (h : Rules.load (s.fs.readRules env .reloadRules) = none) :
    reloadRules env s = if s.eng.rulesSource = .file then s else loadRules env s := by
  simp only [reloadRules, Engine.loadFrom, h, Option.map_none]

end Load

/-- Adopting rules that are active already changes nothing. -/
theorem Engine.withRules_self {eng : Engine} {rules : Rules} {source : RulesSource}
    (hrules : eng.rules = rules) (hsource : eng.rulesSource = source) :
    { eng with rules := rules, rulesSource := source } = eng := by
  subst hrules hsource
  rfl

/-- Loading rules changes the rules and where they came from. -/
theorem loadRules_frame (env : Env) (s : Sys) :
    ∃ rules source, (loadRules env s).eng =
      { s.eng with rules := rules, rulesSource := source } := by
  cases hload : Rules.load (s.fs.readRules env .loadRules) with
  | some rules => exact ⟨rules, .file, by rw [loadRules_of_loads hload]⟩
  | none =>
      obtain ⟨rules, source, -, h⟩ := Engine.fallBack_frame (s.fs.readBackup env)
      exact ⟨rules, source, by rw [loadRules_of_unusable hload, h]⟩

theorem reloadRules_frame (env : Env) (s : Sys) :
    ∃ rules source, (reloadRules env s).eng =
      { s.eng with rules := rules, rulesSource := source } := by
  cases hload : Rules.load (s.fs.readRules env .reloadRules) with
  | some rules => exact ⟨rules, .file, by rw [reloadRules_of_loads hload]⟩
  | none =>
      rw [reloadRules_of_unusable hload]
      split_ifs
      · exact ⟨s.eng.rules, s.eng.rulesSource, rfl⟩
      · exact loadRules_frame env s

theorem Fs.refreshBackup_frame (env : Env) (fs : Fs) :
    ∃ backup, fs.refreshBackup env = { fs with backup := backup } := by
  unfold Fs.refreshBackup
  split
  next => exact ⟨fs.backup, rfl⟩
  next file _ =>
      by_cases hfail : env.fails .copyBackup
      · exact ⟨env.brokenCopy fs.backup, if_pos hfail⟩
      · exact ⟨some file.content, if_neg hfail⟩

/-- Of the files only the backup is written. -/
theorem loadRules_fs (env : Env) (s : Sys) :
    ∃ backup, (loadRules env s).fs = { s.fs with backup := backup } := by
  cases hload : Rules.load (s.fs.readRules env .loadRules) with
  | some rules =>
      rw [loadRules_of_loads hload]
      exact Fs.refreshBackup_frame env s.fs
  | none => exact ⟨s.fs.backup, by rw [loadRules_of_unusable hload]⟩

theorem reloadRules_fs (env : Env) (s : Sys) :
    ∃ backup, (reloadRules env s).fs = { s.fs with backup := backup } := by
  cases hload : Rules.load (s.fs.readRules env .reloadRules) with
  | some rules =>
      rw [reloadRules_of_loads hload]
      exact Fs.refreshBackup_frame env s.fs
  | none =>
      rw [reloadRules_of_unusable hload]
      split_ifs
      · exact ⟨s.fs.backup, rfl⟩
      · exact loadRules_fs env s

/-- The uids of the members of a group. -/
def Engine.memberUids (eng : Engine) (gid : String) : List Uid :=
  ((eng.rules.groups[gid]?.map GroupRule.members).getD []).filterMap fun member =>
    eng.uidOf[member]?

/-- The groups whose pooling mode was toggled. -/
def Engine.toggledGroups (oldShared : KeyMap Bool) (eng : Engine) : List String :=
  (oldShared.toList.filter fun p => eng.toggled p.1 p.2).map Prod.fst

theorem Engine.clearCooldowns_eq (gid : String) (eng : Engine) :
    eng.clearCooldowns gid =
      { eng with
        groupCooldownUntil := eraseAll [gid] eng.groupCooldownUntil
        cooldownUntil := eraseAll (eng.memberUids gid) eng.cooldownUntil } := by
  unfold Engine.clearCooldowns Engine.memberUids eraseAll
  rw [List.foldl_filterMap]
  congr 2
  funext m member
  cases eng.uidOf[member]? <;> rfl

/-- **What clearing removes.** -/
theorem Engine.clearToggled_eq (oldShared : KeyMap Bool) (eng : Engine) :
    eng.clearToggled oldShared =
      { eng with
        groupCooldownUntil := eraseAll (eng.toggledGroups oldShared) eng.groupCooldownUntil
        cooldownUntil :=
          eraseAll ((eng.toggledGroups oldShared).flatMap eng.memberUids) eng.cooldownUntil } := by
  unfold Engine.clearToggled Engine.toggledGroups
  generalize oldShared.toList = l
  -- A round changes neither the rules nor the uid map, so all rounds agree on what to clear.
  induction l generalizing eng with
  | nil => rfl
  | cons p l ih =>
      rw [List.foldl_cons, ih, List.filter_cons]
      by_cases htoggled : eng.toggled p.1 p.2 = true
      · simp only [if_pos htoggled, Engine.clearCooldowns_eq, List.map_cons, List.flatMap_cons,
          eraseAll_append]
        rfl
      · simp only [if_neg htoggled]

/-- Without a toggle no cooldown is cleared. -/
theorem Engine.clearToggled_of_same {eng : Engine} {rules : Rules} (h : eng.rules = rules) :
    eng.clearToggled rules.sharedFlags = eng := by
  have hsame : eng.toggledGroups rules.sharedFlags = [] := by
    rw [Engine.toggledGroups, List.map_eq_nil_iff, List.filter_eq_nil_iff]
    intro p hp
    have hflag := ExtTreeMap.mem_toList_iff_getElem?_eq_some.mp hp
    rw [Rules.sharedFlags, ExtTreeMap.getElem?_map] at hflag
    rw [Engine.toggled, h, hflag, Option.getD_some, bne_self_eq_false]
    exact Bool.false_ne_true
  rw [Engine.clearToggled_eq, hsame]
  rfl

theorem Engine.finishReload_of_same {eng : Engine} {rules : Rules} (h : eng.rules = rules)
    (uidOf : UidOf) (mtime : Option Nat) :
    eng.finishReload rules.sharedFlags uidOf mtime = (eng.withUids uidOf).recordMtime mtime :=
  Engine.clearToggled_of_same h

theorem Engine.finishReload_frame (oldShared : KeyMap Bool) (uidOf : UidOf)
    (mtime : Option Nat) (eng : Engine) :
    ∃ cooldowns groupCooldowns, eng.finishReload oldShared uidOf mtime =
      { eng with
        uidOf := uidOf
        lastMtime := mtime.or eng.lastMtime
        cooldownUntil := cooldowns
        groupCooldownUntil := groupCooldowns } :=
  ⟨_, _, Engine.clearToggled_eq oldShared _⟩

section Reload

variable {env : Env} {s : Sys}

/-- A reload stops when the package list cannot be read, with the new rules
already active. -/
theorem reload_of_unresolved
    (hres : (reloadRules env s).fs.resolveUids env .reloadPackages = none) :
    reload env s =
      .err ⟨(reloadRules env s).eng.deriveSettings env, (reloadRules env s).fs⟩ := by
  simp only [reload, hres]

theorem reload_of_resolved {uidOf : UidOf}
    (hres : (reloadRules env s).fs.resolveUids env .reloadPackages = some uidOf) :
    reload env s =
      .ok ⟨((reloadRules env s).eng.deriveSettings env).finishReload s.eng.rules.sharedFlags
        uidOf ((reloadRules env s).fs.statRules env .restatRules), (reloadRules env s).fs⟩ := by
  simp only [reload, hres]

/-- **What a reload can change**, however it ends: the rules and what is
derived from them, the uid map, the recorded file time and cooldowns. -/
theorem reload_frame (env : Env) (s : Sys) :
    ∃ rules source uidOf mtime cooldowns groupCooldowns,
      (reload env s).state.eng =
        { s.eng with
          rules := rules
          rulesSource := source
          tzSecs := parseTz rules.settings.timezone
          protectedPkgs := resolveProtected env
          uidOf := uidOf
          lastMtime := mtime
          cooldownUntil := cooldowns
          groupCooldownUntil := groupCooldowns } := by
  obtain ⟨rules, source, hrules⟩ := reloadRules_frame env s
  cases hres : (reloadRules env s).fs.resolveUids env .reloadPackages with
  | none =>
      refine ⟨rules, source, s.eng.uidOf, s.eng.lastMtime, s.eng.cooldownUntil,
        s.eng.groupCooldownUntil, ?_⟩
      rw [reload_of_unresolved hres, Outcome.state_err, hrules]
      rfl
  | some uidOf =>
      rw [reload_of_resolved hres, Outcome.state_ok, hrules]
      obtain ⟨cooldowns, groupCooldowns, h⟩ := Engine.finishReload_frame s.eng.rules.sharedFlags
        uidOf ((reloadRules env s).fs.statRules env .restatRules)
        (Engine.deriveSettings env { s.eng with rules := rules, rulesSource := source })
      exact ⟨rules, source, uidOf, _, cooldowns, groupCooldowns, h⟩

/-- After the rules have been read, a reload changes neither them nor the files. -/
theorem reload_loaded (env : Env) (s : Sys) :
    (reload env s).state.eng.rules = (reloadRules env s).eng.rules ∧
      (reload env s).state.eng.rulesSource = (reloadRules env s).eng.rulesSource ∧
      (reload env s).state.fs = (reloadRules env s).fs := by
  cases hres : (reloadRules env s).fs.resolveUids env .reloadPackages with
  | none =>
      rw [reload_of_unresolved hres]
      exact ⟨rfl, rfl, rfl⟩
  | some uidOf =>
      obtain ⟨_, _, h⟩ := Engine.finishReload_frame s.eng.rules.sharedFlags uidOf
        ((reloadRules env s).fs.statRules env .restatRules)
        ((reloadRules env s).eng.deriveSettings env)
      rw [reload_of_resolved hres, Outcome.state_ok, h]
      exact ⟨rfl, rfl, rfl⟩

/-- Reading the package list is not affected by what comes before it. -/
theorem resolveUids_reloadRules (env env' : Env) (s : Sys) (call : FsCall) :
    (reloadRules env' s).fs.resolveUids env call = s.fs.resolveUids env call := by
  obtain ⟨backup, hfs⟩ := reloadRules_fs env' s
  rw [hfs]
  rfl

/-- A reload keeps the uid map or takes over the one it has read. -/
theorem reload_uidOf (env : Env) (s : Sys) :
    (reload env s).state.eng.uidOf = s.eng.uidOf ∨
      s.fs.resolveUids env .reloadPackages = some (reload env s).state.eng.uidOf := by
  cases hres : (reloadRules env s).fs.resolveUids env .reloadPackages with
  | none =>
      obtain ⟨rules, source, hrules⟩ := reloadRules_frame env s
      left
      rw [reload_of_unresolved hres, Outcome.state_err, hrules]
      rfl
  | some uidOf =>
      obtain ⟨_, _, h⟩ := Engine.finishReload_frame s.eng.rules.sharedFlags uidOf
        ((reloadRules env s).fs.statRules env .restatRules)
        ((reloadRules env s).eng.deriveSettings env)
      right
      rw [reload_of_resolved hres, Outcome.state_ok, h]
      exact (resolveUids_reloadRules env env s .reloadPackages).symm.trans hres

theorem reload_fs (env : Env) (s : Sys) :
    ∃ backup, (reload env s).state.fs = { s.fs with backup := backup } := by
  rw [(reload_loaded env s).2.2]
  exact reloadRules_fs env s

/-- The system with a rules file that has just been written. -/
def Sys.writeRules (env : Env) (rules : Rules) (s : Sys) : Sys :=
  { s with fs.rules := some ⟨.json rules.sanitize.toJson, env.writeMtime⟩ }

/-- An apply accepts a valid file of a known version that it can write. -/
structure Accepts (env : Env) (candidate : Option Text) (rules : Rules) : Prop where
  parsed : candidate.bind Rules.fromStr = some rules
  known : rules.version ≤ rulesVersionMax
  written : env.fails .writeRules = false

/-- What an apply makes of the reload at its end. -/
def checkSource (s : Sys) : Outcome Sys := if s.eng.rulesSource = .file then .ok s else .err s

theorem applyRulesFile_of_accepts {candidate : Option Text} {rules : Rules}
    (h : Accepts env candidate rules) (s : Sys) :
    applyRulesFile env candidate s = (reload env (s.writeRules env rules)).bind checkSource := by
  simp only [applyRulesFile, h.parsed, if_neg (not_lt.mpr h.known), h.written,
    Bool.false_eq_true, if_false]
  rfl

theorem applyRulesFile_of_refused {candidate : Option Text}
    (h : ∀ rules, ¬ Accepts env candidate rules) (s : Sys) :
    applyRulesFile env candidate s = .err s := by
  unfold applyRulesFile
  cases hparse : candidate.bind Rules.fromStr with
  | none => rfl
  | some rules =>
      by_cases hversion : rulesVersionMax < rules.version
      · exact if_pos hversion
      by_cases hwrite : env.fails .writeRules = true
      · exact (if_neg hversion).trans (if_pos hwrite)
      exact absurd ⟨hparse, not_lt.mp hversion, by simpa using hwrite⟩ (h rules)

/-- The check at the end decides about success only. -/
@[simp] theorem state_bind_checkSource (o : Outcome Sys) :
    (o.bind checkSource).state = o.state := by
  cases o with
  | err s' => rfl
  | ok s' =>
      rw [Outcome.bind_ok, checkSource]
      split_ifs <;> rfl

/-- An apply is refused and changes nothing, or it writes the file it accepts
and reloads. -/
theorem applyRulesFile_cases (env : Env) (candidate : Option Text) (s : Sys) :
    applyRulesFile env candidate s = .err s ∨
      ∃ rules, Accepts env candidate rules ∧
        (applyRulesFile env candidate s).state = (reload env (s.writeRules env rules)).state := by
  by_cases haccepts : ∃ rules, Accepts env candidate rules
  · obtain ⟨rules, hrules⟩ := haccepts
    exact .inr ⟨rules, hrules, by rw [applyRulesFile_of_accepts hrules, state_bind_checkSource]⟩
  · exact .inl (applyRulesFile_of_refused (not_exists.mp haccepts) s)

end Reload

end Ningshi
