import Ningshi.Lib.FileActs
import Ningshi.Restart
import Ningshi.WebSaves

/-!
# The files of the daemon when it is stopped halfway

Rules and state are written to a file of their own and moved into place; the
backup is copied.  Here an operation is the list of these actions, which make up
what the operation does to the files (`filesOf_acts`).  The daemon can be
stopped anywhere on its way through them, while it starts as well as later.

`rules_after_stop` and `state_after_stop` say what the next start finds.
-/

namespace Ningshi

open FileActs JsonDoc Transition

/-- The files of `/data/adb/ningshi`. -/
inductive DataFile where
  | rules
  /-- `rules.json.new` -/
  | rulesNew
  | backup
  | state
  /-- `state.json.tmp` -/
  | stateTmp
  deriving DecidableEq

abbrev DataDisk := Disk DataFile (File Text)

abbrev DataAct := FileAct DataFile (File Text)

/-- The files the daemon reads. -/
def filesOf (packages : Option (File String)) (d : DataDisk) : Fs :=
  ⟨d .rules, (d .backup).map File.content, (d .state).map File.content, packages⟩

/-! ## The actions of an operation -/

/-- `refresh_backup` -/
def copyActs (env : Env) (fs : Fs) : List DataAct :=
  match fs.rules with
  | none => []
  | some _ =>
      if env.fails .copyBackup then
        [.spoil .backup ((env.brokenCopy fs.backup).map fun text => ⟨text, env.writeMtime⟩)]
      else [.copy .rules .backup]

def loadActs (env : Env) (fs : Fs) : List DataAct :=
  if (Rules.load (fs.readRules env .loadRules)).isSome then copyActs env fs else []

def reloadActs (env : Env) (s : Sys) : List DataAct :=
  if (Rules.load (s.fs.readRules env .reloadRules)).isSome then copyActs env s.fs
  else if s.eng.rulesSource = .file then []
  else loadActs env s.fs

def refreshActs (env : Env) (s : Sys) : List DataAct :=
  match s.fs.statRules env .statRules with
  | none => []
  | some mtime => if s.eng.lastMtime = some mtime then [] else reloadActs env s

/-- `save_state`.  What an attempt that fails leaves of the temporary file is `left`. -/
def saveActs (env : Env) (left : Option (File Text)) (eng : Engine) : List DataAct :=
  if env.fails .writeState then [.spoil .stateTmp left]
  else
    replace .stateTmp .state
      ⟨.json (eng.stateFile (eng.nowParts env.saveEpoch).date).toJson, env.writeMtime⟩

/-- What is saved at the end of a tick. -/
def finishActs (env : Env) (left : Option (File Text)) (eng : Engine) : List DataAct :=
  if stateSaveSecs ≤ env.epoch - eng.lastSave then saveActs env left (eng.sweep env) else []

def tickActs (env : Env) (left : Option (File Text)) (s : Sys) : List DataAct :=
  refreshActs env s ++
    match refresh env s with
    | .err _ => []
    | .ok mid =>
        match (mid.eng.prepare env).enforce env ((mid.eng.prepare env).judge env) with
        | .err _ => []
        | .ok eng => finishActs env left eng

def applyActs (env : Env) (left : Option (File Text)) (candidate : Option Text) (s : Sys) :
    List DataAct :=
  match candidate.bind Rules.fromStr with
  | none => []
  | some rules =>
      if rulesVersionMax < rules.version then []
      else if env.fails .writeRules then [.spoil .rulesNew left]
      else
        replace .rulesNew .rules ⟨.json rules.sanitize.toJson, env.writeMtime⟩ ++
          reloadActs env (s.writeRules env rules)

/-- What an operation does to the files, in order. -/
def Op.acts (left : Option (File Text)) : Op → Sys → List DataAct
  | .tick env, s => tickActs env left s
  | .reload env, s => reloadActs env s
  | .apply env candidate, s => applyActs env left candidate s
  | _, _ => []

/-! ## Uninterrupted, they are the operation -/

section Uninterrupted

variable {env : Env} {packages : Option (File String)} {d : DataDisk}

@[simp] theorem filesOf_rulesNew (file : Option (File Text)) :
    filesOf packages (Function.update d .rulesNew file) = filesOf packages d := rfl

@[simp] theorem filesOf_stateTmp (file : Option (File Text)) :
    filesOf packages (Function.update d .stateTmp file) = filesOf packages d := rfl

@[simp] theorem filesOf_backup (file : Option (File Text)) :
    filesOf packages (Function.update d .backup file) =
      { filesOf packages d with backup := file.map File.content } := rfl

@[simp] theorem filesOf_rules (file : Option (File Text)) :
    filesOf packages (Function.update d .rules file) = { filesOf packages d with rules := file } :=
  rfl

@[simp] theorem filesOf_state (file : Option (File Text)) :
    filesOf packages (Function.update d .state file) =
      { filesOf packages d with state := file.map File.content } := rfl

theorem filesOf_copyActs (env : Env) (packages : Option (File String)) (d : DataDisk) :
    filesOf packages (runAll (copyActs env (filesOf packages d)) d) =
      (filesOf packages d).refreshBackup env := by
  have hread : (filesOf packages d).rules = d .rules := rfl
  unfold copyActs Fs.refreshBackup
  cases hrules : d .rules with
  | none => simp [hread, hrules]
  | some file =>
      by_cases hfail : env.fails .copyBackup = true
      · simp [hread, hrules, hfail, runAll, FileAct.run, Function.comp_def]
      · simp [hread, hrules, hfail, runAll, FileAct.run]

theorem filesOf_loadActs (env : Env) {s : Sys} (hs : s.fs = filesOf packages d) :
    filesOf packages (runAll (loadActs env s.fs) d) = (loadRules env s).fs := by
  unfold loadActs
  cases hload : Rules.load (s.fs.readRules env .loadRules) with
  | none => rw [loadRules_of_unusable hload, hs]; rfl
  | some rules =>
      rw [loadRules_of_loads hload, hs]
      exact filesOf_copyActs env packages d

theorem filesOf_reloadActs (env : Env) {s : Sys} (hs : s.fs = filesOf packages d) :
    filesOf packages (runAll (reloadActs env s) d) = (reload env s).state.fs := by
  rw [(reload_loaded env s).2.2]
  unfold reloadActs
  cases hload : Rules.load (s.fs.readRules env .reloadRules) with
  | some rules =>
      rw [reloadRules_of_loads hload, hs]
      exact filesOf_copyActs env packages d
  | none =>
      rw [reloadRules_of_unusable hload]
      by_cases hsource : s.eng.rulesSource = .file
      · simp [hsource, hs]
      · simpa [hsource] using filesOf_loadActs env hs

theorem filesOf_refreshActs (env : Env) {s : Sys} (hs : s.fs = filesOf packages d) :
    filesOf packages (runAll (refreshActs env s) d) = (refresh env s).state.fs := by
  have hsync (o : Outcome Sys) : (o.bind (syncPackages env)).state.fs = o.state.fs := by
    cases o with
    | err s => rfl
    | ok s => exact (keepsRules_syncPackages env s).fs
  rw [refresh, hsync]
  unfold refreshActs reloadIfChanged
  cases s.fs.statRules env .statRules with
  | none => exact hs.symm
  | some mtime =>
      by_cases hsame : s.eng.lastMtime = some mtime
      · simp [hsame, hs]
      · simpa [hsame] using filesOf_reloadActs env hs

theorem filesOf_saveActs (env : Env) (left : Option (File Text)) {s : Sys}
    (hs : s.fs = filesOf packages d) :
    filesOf packages (runAll (saveActs env left s.eng) d) = (saveState env s).fs := by
  unfold saveActs saveState
  by_cases hfail : env.fails .writeState = true
  · simp [hfail, runAll, FileAct.run, hs]
  · simp [hfail, runAll_replace, hs]

theorem filesOf_finishActs (env : Env) (left : Option (File Text)) {s : Sys}
    (hs : s.fs = filesOf packages d) :
    filesOf packages (runAll (finishActs env left s.eng) d) = (finishTick env s).fs := by
  have hlast : (s.eng.sweep env).lastSave = s.eng.lastSave := by
    unfold Engine.sweep
    split_ifs <;> rfl
  simp only [finishActs, finishTick, hlast]
  by_cases hdue : stateSaveSecs ≤ env.epoch - s.eng.lastSave
  · simpa [hdue] using filesOf_saveActs env left (s := { s with eng := s.eng.sweep env }) hs
  · simp [hdue, hs]

theorem filesOf_tickActs (env : Env) (left : Option (File Text)) {s : Sys}
    (hs : s.fs = filesOf packages d) :
    filesOf packages (runAll (tickActs env left s) d) = (tick env s).state.fs := by
  have hrefreshed := filesOf_refreshActs env hs
  rw [tickActs, runAll_append]
  rcases tick_cases env s with ⟨mid, hrefresh, htick⟩ |
    ⟨mid, hrefresh, ⟨eng, henforce, htick⟩ | ⟨eng, henforce, htick⟩⟩
  · simp only [hrefresh, htick, runAll_nil, hrefreshed]
  · simp only [hrefresh, henforce, htick, runAll_nil, hrefreshed, Outcome.state_err,
      Outcome.state_ok]
  · rw [hrefresh, Outcome.state_ok] at hrefreshed
    simp only [hrefresh, henforce, htick]
    exact filesOf_finishActs env left (s := { mid with eng := eng }) hrefreshed.symm

theorem filesOf_applyActs (env : Env) (left : Option (File Text)) (candidate : Option Text)
    {s : Sys} (hs : s.fs = filesOf packages d) :
    filesOf packages (runAll (applyActs env left candidate s) d) =
      (applyRulesFile env candidate s).state.fs := by
  unfold applyActs
  cases hparse : candidate.bind Rules.fromStr with
  | none => simp [applyRulesFile, hparse, hs]
  | some rules =>
      by_cases hversion : rulesVersionMax < rules.version
      · simp [applyRulesFile, hparse, hversion, hs]
      by_cases hwrite : env.fails .writeRules = true
      · simp [applyRulesFile, hparse, hversion, hwrite, hs, runAll, FileAct.run]
      have haccepts : Accepts env candidate rules :=
        ⟨hparse, UInt32.not_lt.mp hversion, by simpa using hwrite⟩
      simp only [hversion, hwrite, Bool.false_eq_true, if_false]
      rw [applyRulesFile_of_accepts haccepts, state_bind_checkSource, runAll_append]
      refine filesOf_reloadActs env (s := s.writeRules env rules) ?_
      simp [runAll_replace, Sys.writeRules, hs]

/-- **Uninterrupted, the actions do to the files what the operation does.** -/
theorem filesOf_acts (left : Option (File Text)) (op : Op) {s : Sys}
    (hs : s.fs = filesOf packages d) :
    filesOf packages (runAll (op.acts left s) d) = (op.perform s).fs := by
  cases op with
  | tick env => exact filesOf_tickActs env left hs
  | reload env => exact filesOf_reloadActs env hs
  | apply env candidate => exact filesOf_applyActs env left candidate hs
  | extension env key minutes =>
      obtain ⟨eng, h, -⟩ := perform_extension env key minutes s
      rw [h]
      exact hs.symm
  | sync env => exact hs.symm.trans (keepsRules_syncPackages env s).fs.symm
  | killed uid => exact hs.symm

end Uninterrupted

/-! ## Rules and state are moved into place -/

/-- Nothing but the backup is touched. -/
def BackupOnly (acts : List DataAct) : Prop := ∀ act ∈ acts, act.touches = [.backup]

theorem BackupOnly.untouched {acts : List DataAct} (h : BackupOnly acts) {file : DataFile}
    (hfile : file ≠ .backup) : Untouched file acts := by
  intro act hact
  rw [h act hact, List.mem_singleton]
  exact hfile

theorem backupOnly_nil : BackupOnly [] := by simp [BackupOnly]

theorem backupOnly_copyActs (env : Env) (fs : Fs) : BackupOnly (copyActs env fs) := by
  unfold copyActs
  split
  next => exact backupOnly_nil
  next => split_ifs <;> simp [BackupOnly, FileAct.touches]

theorem backupOnly_loadActs (env : Env) (fs : Fs) : BackupOnly (loadActs env fs) := by
  unfold loadActs
  split_ifs
  · exact backupOnly_copyActs env fs
  · exact backupOnly_nil

theorem backupOnly_reloadActs (env : Env) (s : Sys) : BackupOnly (reloadActs env s) := by
  unfold reloadActs
  split_ifs
  · exact backupOnly_copyActs env s.fs
  · exact backupOnly_nil
  · exact backupOnly_loadActs env s.fs

theorem backupOnly_refreshActs (env : Env) (s : Sys) : BackupOnly (refreshActs env s) := by
  unfold refreshActs
  split
  next => exact backupOnly_nil
  next =>
    split_ifs
    · exact backupOnly_nil
    · exact backupOnly_reloadActs env s

/-- Saving leaves the rules alone and moves the state into place. -/
theorem atomic_saveActs (env : Env) (left : Option (File Text)) (eng : Engine) :
    Untouched .rules (saveActs env left eng) ∧ Atomic .state (saveActs env left eng) := by
  unfold saveActs
  split_ifs
  · have hspoil (file : DataFile) (h : file ≠ .stateTmp) :
        Untouched file [(.spoil .stateTmp left : DataAct)] := by
      simpa [Untouched, FileAct.touches] using h
    exact ⟨hspoil .rules (by decide), .untouched (hspoil .state (by decide))⟩
  · exact ⟨untouched_replace (by decide) (by decide) _, atomic_replace (by decide) _⟩

theorem atomic_tickActs (env : Env) (left : Option (File Text)) (s : Sys) :
    Untouched .rules (tickActs env left s) ∧ Atomic .state (tickActs env left s) := by
  have hrefresh := backupOnly_refreshActs env s
  have hnone (file : DataFile) : Untouched file ([] : List DataAct) := by simp [Untouched]
  unfold tickActs
  refine ⟨(hrefresh.untouched (by decide)).append ?_,
    .after_untouched (hrefresh.untouched (by decide)) ?_⟩ <;> split
  next => exact hnone .rules
  next =>
    split
    next => exact hnone .rules
    next eng _ =>
      unfold finishActs
      split_ifs
      · exact (atomic_saveActs env left (eng.sweep env)).1
      · exact hnone .rules
  next => exact .untouched (hnone .state)
  next =>
    split
    next => exact .untouched (hnone .state)
    next eng _ =>
      unfold finishActs
      split_ifs
      · exact (atomic_saveActs env left (eng.sweep env)).2
      · exact .untouched (hnone .state)

/-- An apply moves the rules into place and leaves the state alone. -/
theorem atomic_applyActs (env : Env) (left : Option (File Text)) (candidate : Option Text)
    (s : Sys) : Atomic .rules (applyActs env left candidate s) ∧
      Untouched .state (applyActs env left candidate s) := by
  have hnone (file : DataFile) : Untouched file ([] : List DataAct) := by simp [Untouched]
  have hspoil (file : DataFile) (h : file ≠ .rulesNew) :
      Untouched file [(.spoil .rulesNew left : DataAct)] := by
    simpa [Untouched, FileAct.touches] using h
  unfold applyActs
  split
  next => exact ⟨.untouched (hnone .rules), hnone .state⟩
  next rules _ =>
    have hreload := backupOnly_reloadActs env (s.writeRules env rules)
    split_ifs
    · exact ⟨.untouched (hnone .rules), hnone .state⟩
    · exact ⟨.untouched (hspoil .rules (by decide)), hspoil .state (by decide)⟩
    · exact ⟨.before_untouched (atomic_replace (by decide) _) (hreload.untouched (by decide)),
        (untouched_replace (by decide) (by decide) _).append (hreload.untouched (by decide))⟩

/-- **Every operation moves rules and state into place**, or leaves them alone. -/
theorem atomic_acts (left : Option (File Text)) (op : Op) (s : Sys) :
    Atomic .rules (op.acts left s) ∧ Atomic .state (op.acts left s) := by
  have hnone (file : DataFile) : Atomic file ([] : List DataAct) := .untouched (by simp [Untouched])
  cases op with
  | tick env =>
      obtain ⟨hrules, hstate⟩ := atomic_tickActs env left s
      exact ⟨.untouched hrules, hstate⟩
  | reload env =>
      have hreload := backupOnly_reloadActs env s
      exact ⟨.untouched (hreload.untouched (by decide)),
        .untouched (hreload.untouched (by decide))⟩
  | apply env candidate =>
      obtain ⟨hrules, hstate⟩ := atomic_applyActs env left candidate s
      exact ⟨hrules, .untouched hstate⟩
  | extension env key minutes => exact ⟨hnone .rules, hnone .state⟩
  | sync env => exact ⟨hnone .rules, hnone .state⟩
  | killed uid => exact ⟨hnone .rules, hnone .state⟩

/-! ## Stopping and starting again -/

/-- The data directory, the package list, and the engine while the daemon runs. -/
structure DataSite where
  disk : DataDisk
  packages : Option (File String)
  engine : Option Engine

inductive DataEvent where
  | start (env : Env)
  /-- stopped before it is up, which leaves these files -/
  | cutStart (env : Env) (found : DataDisk)
  | run (op : Op) (left : Option (File Text))
  /-- stopped in the operation, which leaves these files -/
  | cut (op : Op) (left : Option (File Text)) (found : DataDisk)
  /-- the package list is replaced -/
  | packages (file : Option (File String))

/-- The operation an event begins. -/
def DataEvent.op : DataEvent → Option Op
  | .run op _ => some op
  | .cut op _ _ => some op
  | _ => none

def DataSite.fs (x : DataSite) : Fs := filesOf x.packages x.disk

/-- The running daemon and its files. -/
def DataSite.sys (x : DataSite) (eng : Engine) : Sys := ⟨eng, x.fs⟩

/-- What can happen. -/
inductive DataSite.Step (x : DataSite) : DataEvent → DataSite → Prop
  | start {env : Env} (hdown : x.engine = none) :
      Step x (.start env)
        ⟨runAll (loadActs env x.fs) x.disk, x.packages, some (Engine.new env x.fs).eng⟩
  | cutStart {env : Env} {found : DataDisk} (hdown : x.engine = none)
      (hcut : CutShort (loadActs env x.fs) x.disk found) :
      Step x (.cutStart env found) { x with disk := found }
  | run {op : Op} {left : Option (File Text)} {eng : Engine} (hup : x.engine = some eng) :
      Step x (.run op left)
        ⟨runAll (op.acts left (x.sys eng)) x.disk, x.packages, some (op.perform (x.sys eng)).eng⟩
  | cut {op : Op} {left : Option (File Text)} {eng : Engine} {found : DataDisk}
      (hup : x.engine = some eng) (hcut : CutShort (op.acts left (x.sys eng)) x.disk found) :
      Step x (.cut op left found) ⟨found, x.packages, none⟩
  | packages {file : Option (File String)} : Step x (.packages file) { x with packages := file }

/-- Runs that begin with these files. -/
def dataSite (begins : DataDisk → Prop) : System DataSite DataEvent where
  init x := x.engine = none ∧ begins x.disk
  step := DataSite.Step

/-- Every step leaves rules and state as they are, or as the operation it begins
leaves them. -/
theorem DataSite.Step.moved {x x' : DataSite} {event : DataEvent} (h : x.Step event x')
    {file : DataFile} (hfile : file = .rules ∨ file = .state) :
    x'.disk file = x.disk file ∨ ∃ op left eng, event.op = some op ∧ x.engine = some eng ∧
      x'.disk file = runAll (op.acts left (x.sys eng)) x.disk file := by
  have hatomic (op : Op) (left : Option (File Text)) (s : Sys) : Atomic file (op.acts left s) := by
    rcases hfile with rfl | rfl
    · exact (atomic_acts left op s).1
    · exact (atomic_acts left op s).2
  have hload (env : Env) : Untouched file (loadActs env x.fs) :=
    (backupOnly_loadActs env x.fs).untouched (by rcases hfile with rfl | rfl <;> decide)
  cases h with
  | start hdown => exact .inl (runAll_of_untouched (hload _) x.disk)
  | cutStart hdown hcut =>
      have hfound := hcut.atomic (.untouched (hload _))
      rw [runAll_of_untouched (hload _), or_self] at hfound
      exact .inl hfound
  | @run op left eng hup => exact .inr ⟨op, left, eng, rfl, hup, rfl⟩
  | @cut op left eng found hup hcut =>
      exact (hcut.atomic (hatomic op left (x.sys eng))).imp id fun hdone =>
        ⟨op, left, eng, rfl, hup, hdone⟩
  | packages => exact .inl rfl

/-! ### The rules -/

/-- What the daemon makes of a candidate it accepts. -/
def canonicalFile (env : Env) (rules : Rules) : File Text :=
  ⟨.json rules.sanitize.toJson, env.writeMtime⟩

/-- An operation leaves the rules file alone or writes what it accepts. -/
theorem perform_rules_cases (op : Op) (s : Sys) :
    (op.perform s).fs.rules = s.fs.rules ∨ ∃ env candidate rules, op = .apply env candidate ∧
      Accepts env candidate rules ∧ (op.perform s).fs.rules = some (canonicalFile env rules) := by
  by_cases happly : op.applies = true
  · cases op with
    | apply env candidate =>
        rcases applyRulesFile_cases env candidate s with hsame | ⟨rules, haccepts, hreload⟩
        · exact .inl (by rw [Op.perform, Op.outcome, hsame, Outcome.state_err])
        · refine .inr ⟨env, candidate, rules, rfl, haccepts, ?_⟩
          rw [Op.perform, Op.outcome, hreload, rulesFile_reload]
          rfl
    | _ => cases happly
  · exact .inl (perform_rulesFile (by simpa using happly) s)

/-- **Rules are replaced at once**: whatever happens, the rules file stays or
becomes that of an apply which accepts its candidate. -/
theorem DataSite.Step.rules {x x' : DataSite} {event : DataEvent} (h : x.Step event x') :
    x'.disk .rules = x.disk .rules ∨ ∃ env candidate rules,
      event.op = some (.apply env candidate) ∧ Accepts env candidate rules ∧
        x'.disk .rules = some (canonicalFile env rules) := by
  rcases h.moved (.inl rfl) with hsame | ⟨op, left, eng, hop, -, hdone⟩
  · exact .inl hsame
  · have hfiles : runAll (op.acts left (x.sys eng)) x.disk .rules =
        (op.perform (x.sys eng)).fs.rules :=
      congrArg Fs.rules (filesOf_acts left op (rfl : (x.sys eng).fs = filesOf x.packages x.disk))
    rcases perform_rules_cases op (x.sys eng) with hkept | ⟨env, candidate, rules, rfl, haccepts,
      hwritten⟩
    · exact .inl (hdone.trans (hfiles.trans hkept))
    · exact .inr ⟨env, candidate, rules, hop, haccepts, hdone.trans (hfiles.trans hwritten)⟩

/-- There is a rules file, and it parses. -/
def RulesUsable (disk : DataDisk) : Prop :=
  ∃ file, disk .rules = some file ∧ (Rules.load (some file.content)).isSome

theorem rulesUsable_of_reachable {x : DataSite} (hx : (dataSite RulesUsable).Reachable x) :
    RulesUsable x.disk := by
  refine System.ReachableWhen.invariant
    (fun _ hinit => hinit.2 : ∀ x, (dataSite RulesUsable).init x → RulesUsable x.disk) ?_ hx
  intro x event x' husable _ hstep
  rcases DataSite.Step.rules hstep with hsame | ⟨env, candidate, rules, -, -, hwritten⟩
  · unfold RulesUsable
    rw [hsame]
    exact husable
  · refine ⟨canonicalFile env rules, hwritten, ?_⟩
    rw [canonicalFile, Rules.load_written]
    rfl

/-- **No stop costs the rules.**  Once the rules file parses, then in every run,
with stops in the middle of whatever is done to the files and whatever these
leave half written, the next start that can read the file adopts it, and never
falls back; and one event changes the rules only to those of a candidate that
it accepts. -/
theorem rules_after_stop {x : DataSite} (hx : (dataSite RulesUsable).Reachable x) :
    (∃ file rules, x.disk .rules = some file ∧ Rules.load (some file.content) = some rules ∧
      ∀ env, env.fails .loadRules = false →
        (Engine.new env x.fs).eng.rules = rules ∧ (Engine.new env x.fs).eng.rulesSource = .file) ∧
    ∀ event x', x.Step event x' → x'.disk .rules = x.disk .rules ∨
      ∃ env candidate rules, event.op = some (.apply env candidate) ∧
        Accepts env candidate rules ∧ x'.disk .rules = some (canonicalFile env rules) := by
  refine ⟨?_, fun event x' hstep => hstep.rules⟩
  obtain ⟨file, hfile, hparses⟩ := rulesUsable_of_reachable hx
  obtain ⟨rules, hload⟩ := Option.isSome_iff_exists.mp hparses
  refine ⟨file, rules, hfile, hload, fun env hread => ?_⟩
  have hcontent : x.fs.readRules env .loadRules = some file.content := by
    rw [Fs.readRules, hread, if_neg Bool.false_ne_true]
    exact congrArg (Option.map File.content) hfile
  obtain ⟨hrules, hsource, -⟩ := new_loaded env x.fs
  rw [loadRules_of_loads (s := ⟨{ Engine.blank .start with started := env.epoch }, x.fs⟩)
    (hcontent ▸ hload)] at hrules hsource
  exact ⟨hrules, hsource⟩

/-- The directory after an installation. -/
def installedSite : DataSite where
  disk := fun file => if file = .rules then goodFiles.rules else none
  packages := none
  engine := none

/-- The daemon was stopped while it copied the rules for the first time. -/
def tornSite : DataSite :=
  { installedSite with
    disk := Function.update installedSite.disk .backup (some ⟨.other "half a ba", 2⟩) }

theorem rulesUsable_installedSite : RulesUsable installedSite.disk :=
  ⟨⟨.json (Rules.blocking "0:com.game").toJson, 1⟩, rfl, by decide +kernel⟩

theorem tornSite_reachable : (dataSite RulesUsable).Reachable tornSite := by
  have hloads :
      (Rules.load (installedSite.fs.readRules (.quiet 100) .loadRules)).isSome = true := by
    decide +kernel
  have hacts : loadActs (.quiet 100) installedSite.fs = [.copy .rules .backup] := by
    rw [loadActs, if_pos hloads]
    rfl
  have hcut :
      CutShort (loadActs (.quiet 100) installedSite.fs) installedSite.disk tornSite.disk := by
    rw [hacts]
    exact @CutShort.within _ _ _ _ _ [] _ _ (List.prefix_refl _) rfl _
  exact .step (.init ⟨rfl, rulesUsable_installedSite⟩) trivial
    (.cutStart rfl hcut)

theorem rules_after_stop_tornSite :
    (∃ file rules, tornSite.disk .rules = some file ∧
      Rules.load (some file.content) = some rules ∧
      ∀ env, env.fails .loadRules = false → (Engine.new env tornSite.fs).eng.rules = rules ∧
        (Engine.new env tornSite.fs).eng.rulesSource = .file) ∧
    ∀ event x', tornSite.Step event x' → x'.disk .rules = tornSite.disk .rules ∨
      ∃ env candidate rules, event.op = some (.apply env candidate) ∧
        Accepts env candidate rules ∧ x'.disk .rules = some (canonicalFile env rules) :=
  rules_after_stop tornSite_reachable

/-! ### The state -/

/-- An operation leaves the state file alone, or it is a tick that writes the
state it ends with. -/
theorem perform_state_cases (op : Op) (s : Sys) :
    (op.perform s).fs.state = s.fs.state ∨ ∃ env mid, op = .tick env ∧ refresh env s = .ok mid ∧
      (op.perform s).fs.state = some (.json ((op.perform s).eng.stateFile
        ((op.perform s).eng.nowParts env.saveEpoch).date).toJson) := by
  have hreload (env : Env) (s : Sys) : (reload env s).state.fs.state = s.fs.state := by
    obtain ⟨backup, hfs⟩ := reload_fs env s
    rw [hfs]
  have hrefresh (env : Env) : (refresh env s).state.fs.state = s.fs.state := by
    refine Outcome.bind_state (p := fun mid : Sys => mid.fs.state = s.fs.state) ?_
      fun mid _ hmid => ?_
    · rcases reloadIfChanged_cases env s with ⟨hquiet, -⟩ | ⟨-, -, -, h⟩
      · rw [hquiet, Outcome.state_ok]
      · rw [h]
        exact hreload env s
    · rw [(keepsRules_syncPackages env mid).fs]
      exact hmid
  cases op with
  | tick env =>
      rw [Op.perform, Op.outcome]
      rcases tick_cases env s with ⟨mid, hmid, htick⟩ |
        ⟨mid, hmid, ⟨eng, -, htick⟩ | ⟨eng, -, htick⟩⟩
      · exact .inl (by rw [htick, ← hmid]; exact hrefresh env)
      · have hkept := hrefresh env
        rw [hmid] at hkept
        exact .inl (by rw [htick]; exact hkept)
      · have hkept := hrefresh env
        rw [hmid] at hkept
        rw [htick, Outcome.state_ok]
        simp only [finishTick, saveState]
        by_cases hsaves : stateSaveSecs ≤ env.epoch - (eng.sweep env).lastSave ∧
            env.fails .writeState = false
        · refine .inr ⟨env, mid, rfl, hmid, ?_⟩
          simp [hsaves.1, hsaves.2, Engine.stateFile, Engine.nowParts]
        · refine .inl ?_
          rw [← hkept]
          split_ifs with hdue hfails
          · rfl
          · exact absurd ⟨hdue, by simpa using hfails⟩ hsaves
          · rfl
  | reload env => exact .inl (hreload env s)
  | apply env candidate =>
      rcases applyRulesFile_cases env candidate s with hsame | ⟨rules, -, h⟩
      · exact .inl (by rw [Op.perform, Op.outcome, hsame, Outcome.state_err])
      · exact .inl (by rw [Op.perform, Op.outcome, h, hreload]; rfl)
  | extension env key minutes =>
      obtain ⟨eng, h, -⟩ := perform_extension env key minutes s
      exact .inl (by rw [h])
  | sync env => exact .inl (congrArg Fs.state (keepsRules_syncPackages env s).fs)
  | killed uid => exact .inl rfl

/-- **The state is replaced at once**, by that at the end of a tick. -/
theorem DataSite.Step.state {x x' : DataSite} {event : DataEvent} (h : x.Step event x') :
    x'.fs.state = x.fs.state ∨ ∃ env eng, event.op = some (.tick env) ∧ x.engine = some eng ∧
      x'.fs.state = some (.json (((Op.tick env).perform (x.sys eng)).eng.stateFile
        (((Op.tick env).perform (x.sys eng)).eng.nowParts env.saveEpoch).date).toJson) := by
  rcases h.moved (.inr rfl) with hsame | ⟨op, left, eng, hop, hup, hdone⟩
  · exact .inl (congrArg (Option.map File.content) hsame)
  have hfiles : (runAll (op.acts left (x.sys eng)) x.disk .state).map File.content =
      (op.perform (x.sys eng)).fs.state :=
    congrArg Fs.state (filesOf_acts left op (rfl : (x.sys eng).fs = filesOf x.packages x.disk))
  have hfound : x'.fs.state = (op.perform (x.sys eng)).fs.state := by
    rw [← hfiles, ← hdone]
    rfl
  rcases perform_state_cases op (x.sys eng) with hkept | ⟨env, _, rfl, -, hwritten⟩
  · exact .inl (hfound.trans hkept)
  · exact .inr ⟨env, eng, hop, hup, hfound.trans hwritten⟩

/-- There is no state file, or a complete one. -/
def StateWhole (disk : DataDisk) : Prop :=
  ∀ content, (disk .state).map File.content = some content →
    ∃ st : StateFile, content = .json st.toJson

theorem stateWhole_of_reachable {x : DataSite} (hx : (dataSite StateWhole).Reachable x) :
    StateWhole x.disk := by
  refine System.ReachableWhen.invariant
    (fun _ hinit => hinit.2 : ∀ x, (dataSite StateWhole).init x → StateWhole x.disk) ?_ hx
  intro x event x' hwhole _ hstep content hcontent
  rcases DataSite.Step.state hstep with hsame | ⟨env, eng, -, -, hwritten⟩
  · exact hwhole content (hsame.symm.trans hcontent)
  · exact ⟨_, Option.some.inj (hcontent.symm.trans hwritten)⟩

def StateFile.dayMaps (st : StateFile) : DayMaps where
  usageSeconds := st.usageSeconds
  usageFg := st.usageFg
  cooldownUntil := st.cooldownUntil
  groupCooldownUntil := st.groupCooldownUntil
  extGrantedToday := st.extGrantedToday
  groupExtGrantedToday := st.groupExtGrantedToday
  killCount := st.killCount

theorem dayMaps_restore (today : Int) (st : StateFile) (eng : Engine) :
    (eng.restore today st).dayMaps =
      if st.day = Calendar.isoText today then st.dayMaps else eng.dayMaps := by
  unfold Engine.restore
  split_ifs <;> rfl

/-- What a start takes over from a complete state file. -/
theorem dayMaps_new {env : Env} {fs : Fs} {st : StateFile} (hread : env.fails .readState = false)
    (hstate : fs.state = some (.json st.toJson)) :
    (Engine.new env fs).eng.dayMaps =
      if st.day = Calendar.isoText (localDate none env.epoch) then st.dayMaps else .empty := by
  obtain ⟨backup, hfs⟩ := loadRules_fs env ⟨{ Engine.blank .start with started := env.epoch }, fs⟩
  obtain ⟨rules, source, heng⟩ :=
    loadRules_frame env ⟨{ Engine.blank .start with started := env.epoch }, fs⟩
  have hcontent : (Fs.readState { fs with backup := backup } env).bind
      (Text.decode StateFile.ofJson) = some st := by
    rw [Fs.readState, hread, if_neg Bool.false_ne_true, hstate, Option.bind_some,
      Text.decode_json, StateFile.ofJson_toJson]
  simp only [Engine.new, heng, hfs, Engine.loadState, hcontent, dayMaps_restore]
  rfl

/-- **No stop tears the state.**  Once the state file is complete or missing, then
in every run, with stops in the middle of a save and whatever these leave half
written, it is complete, so that the next start of its day takes over all of it;
and one event changes it only to the state that a tick ends with. -/
theorem state_after_stop {x : DataSite} (hx : (dataSite StateWhole).Reachable x) :
    (∀ content, x.fs.state = some content → ∃ st : StateFile, content = .json st.toJson ∧
      ∀ env, env.fails .readState = false → (Engine.new env x.fs).eng.dayMaps =
        if st.day = Calendar.isoText (localDate none env.epoch) then st.dayMaps else .empty) ∧
    ∀ event x', x.Step event x' → x'.fs.state = x.fs.state ∨ ∃ env eng,
      event.op = some (.tick env) ∧ x.engine = some eng ∧
      x'.fs.state = some (.json (((Op.tick env).perform (x.sys eng)).eng.stateFile
        (((Op.tick env).perform (x.sys eng)).eng.nowParts env.saveEpoch).date).toJson) := by
  refine ⟨fun content hcontent => ?_, fun event x' hstep => hstep.state⟩
  obtain ⟨st, rfl⟩ := stateWhole_of_reachable hx content hcontent
  exact ⟨st, rfl, fun env hread => dayMaps_new hread hcontent⟩

/-- A state file of the first day, with a minute of usage. -/
def firstState : StateFile where
  day := "1970-01-01"
  usageSeconds := (∅ : UidMap Nat).insert 10001 60
  usageFg := (∅ : UidMap Nat).insert 10001 60
  cooldownUntil := ∅
  groupCooldownUntil := ∅
  extGrantedToday := ∅
  groupExtGrantedToday := ∅
  killCount := ∅

def savedSite : DataSite :=
  { installedSite with
    packages := some ⟨"com.game 10001", 1⟩
    disk := Function.update installedSite.disk .state (some ⟨.json firstState.toJson, 3⟩) }

/-- The daemon has been started on that day. -/
def servingSite : DataSite :=
  ⟨runAll (loadActs (.quiet 100) savedSite.fs) savedSite.disk, savedSite.packages,
    some (Engine.new (.quiet 100) savedSite.fs).eng⟩

def servingSys : Sys := servingSite.sys (Engine.new (.quiet 100) savedSite.fs).eng

/-- Its first tick is stopped while it writes the state. -/
def tornSave : DataSite where
  disk := Function.update (runAll (refreshActs (.quiet 160) servingSys) servingSite.disk)
    .stateTmp (some ⟨.other "half a sta", 4⟩)
  packages := savedSite.packages
  engine := none

theorem savedSite_reachable : (dataSite StateWhole).Reachable savedSite := by
  refine .init ⟨rfl, fun content hcontent => ?_⟩
  obtain rfl := Option.some.inj hcontent
  exact ⟨firstState, rfl⟩

/-- What a tick that saves does to the files. -/
theorem tickActs_of_saves (left : Option (File Text)) {env : Env} {s mid : Sys} {eng : Engine}
    (hmid : refresh env s = .ok mid)
    (henforce : (mid.eng.prepare env).enforce env ((mid.eng.prepare env).judge env) = .ok eng)
    (hdue : stateSaveSecs ≤ env.epoch - eng.lastSave) (hwrites : env.fails .writeState = false) :
    ∃ file, tickActs env left s = refreshActs env s ++ replace .stateTmp .state file := by
  simp only [tickActs, hmid, henforce, finishActs, if_pos hdue, saveActs, hwrites,
    Bool.false_eq_true, if_false]
  exact ⟨_, rfl⟩

theorem tornSave_reachable : (dataSite StateWhole).Reachable tornSave := by
  have hserving : (dataSite StateWhole).Reachable servingSite :=
    .step savedSite_reachable trivial (.start rfl)
  have hmid := Outcome.eq_ok_of_isOk
    (by decide +kernel : (refresh (.quiet 160) servingSys).isOk = true)
  generalize hrefreshed : (refresh (.quiet 160) servingSys).state = mid at hmid
  have henforce := Outcome.eq_ok_of_isOk (by rw [← hrefreshed]; decide +kernel :
    ((mid.eng.prepare (.quiet 160)).enforce (.quiet 160)
      ((mid.eng.prepare (.quiet 160)).judge (.quiet 160))).isOk = true)
  have hdue : stateSaveSecs ≤ (Env.quiet 160).epoch - ((mid.eng.prepare (.quiet 160)).enforce
      (.quiet 160) ((mid.eng.prepare (.quiet 160)).judge (.quiet 160))).state.lastSave := by
    rw [← hrefreshed]
    decide +kernel
  obtain ⟨file, hacts⟩ := tickActs_of_saves none hmid henforce hdue rfl
  have hcut : CutShort ((Op.tick (.quiet 160)).acts none servingSys) servingSite.disk
      tornSave.disk := by
    refine @CutShort.within _ _ _ _ _ (refreshActs (.quiet 160) servingSys)
      (.write .stateTmp file) .stateTmp ?_ rfl _
    rw [Op.acts, hacts]
    exact ⟨[.rename .stateTmp .state], by simp [replace]⟩
  exact .step hserving trivial (.cut rfl hcut)

/-- The state from before the torn save is still there, and the next start of its day
takes it over. -/
theorem state_after_stop_tornSave :
    tornSave.fs.state = some (.json firstState.toJson) ∧
      (Engine.new (.quiet 220) tornSave.fs).eng.dayMaps = firstState.dayMaps := by
  have hrefresh := backupOnly_refreshActs (.quiet 160) servingSys
  have hload := backupOnly_loadActs (.quiet 100) savedSite.fs
  have hstate : DataFile.state ≠ .backup := by decide
  have hdisk : tornSave.disk .state = savedSite.disk .state :=
    (runAll_of_untouched (hrefresh.untouched hstate) servingSite.disk).trans
      (runAll_of_untouched (hload.untouched hstate) savedSite.disk)
  have hfound : tornSave.fs.state = some (.json firstState.toJson) :=
    congrArg (Option.map File.content) hdisk
  obtain ⟨st, hst, hnew⟩ := (state_after_stop tornSave_reachable).1 _ hfound
  obtain rfl : firstState = st := by
    have hjson := congrArg StateFile.ofJson (Text.json.inj hst)
    rw [StateFile.ofJson_toJson, StateFile.ofJson_toJson] at hjson
    exact Option.some.inj hjson
  refine ⟨hfound, (hnew (.quiet 220) rfl).trans (if_pos ?_)⟩
  decide +kernel

end Ningshi
