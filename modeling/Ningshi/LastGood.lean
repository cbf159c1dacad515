import Ningshi.Daemon

/-!
# The last known good rules

A load that parses the live file takes the rules from it and copies it to the
backup; a load that cannot parse it falls back to the backup.  A run of the
daemon is followed here together with its history: the content of `rules.json`
that was last parsed, whatever has happened to the file since.

`active_of_lastGood` says that the active rules are those of that content, in
every run in which copies succeed and nothing but the daemon touches the
backup.
-/

namespace Ningshi

open FiniteMap JsonDoc Transition

/-! ## What an event parses -/

/-- The content, if it is a rules file. -/
def parsed (content : Option Text) : Option Text :=
  content.filter fun text => (Rules.load (some text)).isSome

/-- The content of the live file that `loadRules` parses. -/
def parsedByLoad (env : Env) (fs : Fs) : Option Text := parsed (fs.readRules env .loadRules)

/-- The content of the live file that a reload parses, at its first read or at
the second. -/
def parsedByReload (env : Env) (s : Sys) : Option Text :=
  (parsed (s.fs.readRules env .reloadRules)).or
    (if s.eng.rulesSource = .file then none else parsedByLoad env s.fs)

/-- The rules an apply writes, when it gets that far. -/
def writtenByApply (env : Env) (candidate : Option Text) : Option Rules :=
  (candidate.bind Rules.fromStr).filter fun rules =>
    !(rulesVersionMax < rules.version || env.fails .writeRules)

/-- The content of the live file that an operation parses. -/
def Op.parses : Op → Sys → Option Text
  | .tick env, s =>
      match s.fs.statRules env .statRules with
      | none => none
      | some mtime => if s.eng.lastMtime = some mtime then none else parsedByReload env s
  | .reload env, s => parsedByReload env s
  | .apply env candidate, s =>
      (writtenByApply env candidate).bind fun rules => parsedByReload env (s.writeRules env rules)
  | _, _ => none

def Daemon.parses : Daemon → Event → Option Text
  | .down fs, .start env => parsedByLoad env fs
  | .up s, .run op => op.parses s
  | _, _ => none

/-! ## Histories -/

/-- A daemon and the content of `rules.json` it has last parsed. -/
structure History where
  daemon : Daemon
  lastGood : Option Text

def History.next (h : History) (event : Event) : Option History :=
  (h.daemon.next event).map fun d => ⟨d, (h.daemon.parses event).or h.lastGood⟩

def history : System History Event :=
  .ofNext (fun h => (∃ fs, h.daemon = .down fs) ∧ h.lastGood = none) History.next

def Daemon.fs : Daemon → Fs
  | .down fs => fs
  | .up s => s.fs

/-- Copies to the backup succeed, and what is there can be read. -/
structure BackupWorks (env : Env) : Prop where
  copied : env.fails .copyBackup = false
  read : env.fails .loadBackup = false

/-- What is known of a step: other programs leave the backup alone. -/
def KeepsBackup (h : History) : Event → Prop
  | .start env => BackupWorks env
  | .run (.tick env) => BackupWorks env
  | .run (.reload env) => BackupWorks env
  | .run (.apply env _) => BackupWorks env
  | .files fs => fs.backup = h.daemon.fs.backup
  | _ => True

/-- The rules of the last parsed content are active, from the live file or the
backup, and the backup has them. -/
structure Follows (good : Option Text) (s : Sys) : Prop where
  rules : ∀ content, good = some content → Rules.load (some content) = some s.eng.rules
  source : good.isSome → s.eng.rulesSource ≠ .default
  backup : good.isSome → Rules.load s.fs.backup = some s.eng.rules

/-- Without a running daemon only the backup has them. -/
def Kept (good : Option Text) (fs : Fs) : Prop :=
  ∀ content, good = some content →
    (Rules.load (some content)).isSome ∧ Rules.load fs.backup = Rules.load (some content)

/-! ## Loading -/

theorem parsed_eq_some_iff {content : Option Text} {text : Text} :
    parsed content = some text ↔ content = some text ∧ (Rules.load (some text)).isSome :=
  Option.filter_eq_some_iff

theorem parsed_eq_none_iff {content : Option Text} :
    parsed content = none ↔ Rules.load content = none := by
  cases content with
  | none => exact iff_of_true rfl rfl
  | some text =>
      rw [parsed, Option.filter_eq_none_iff]
      constructor
      · intro h
        simpa using h text rfl
      · intro h text' htext
        obtain rfl := Option.some.inj htext
        rw [h]
        simp

/-- The copy that follows a successful read has the content that was read. -/
theorem backup_refreshBackup {env : Env} {fs : Fs} {call : FsCall} {text : Text}
    (hcopied : env.fails .copyBackup = false) (hread : fs.readRules env call = some text) :
    (fs.refreshBackup env).backup = some text := by
  unfold Fs.readRules at hread
  split_ifs at hread
  obtain ⟨file, hfile, rfl⟩ := Option.map_eq_some_iff.mp hread
  simp only [Fs.refreshBackup, hfile, hcopied, Bool.false_eq_true, if_false]

theorem follows_of_parsed {env : Env} {s : Sys} {call : FsCall} {text : Text} {rules : Rules}
    (hcopied : env.fails .copyBackup = false) (hread : s.fs.readRules env call = some text)
    (hload : Rules.load (some text) = some rules) :
    Follows (some text)
      ⟨{ s.eng with rules := rules, rulesSource := .file }, s.fs.refreshBackup env⟩ := by
  refine ⟨fun content hcontent => ?_, fun _ => by simp, fun _ => ?_⟩
  · obtain rfl := Option.some.inj hcontent
    exact hload
  · show Rules.load (s.fs.refreshBackup env).backup = some rules
    rw [backup_refreshBackup hcopied hread, hload]

/-- **A load follows what it parses, and else what the backup has.** -/
theorem follows_loadRules {env : Env} {s : Sys} {good : Option Text} (henv : BackupWorks env)
    (hkept : Kept good s.fs) : Follows ((parsedByLoad env s.fs).or good) (loadRules env s) := by
  unfold parsedByLoad
  cases hparsed : parsed (s.fs.readRules env .loadRules) with
  | some text =>
      obtain ⟨hread, hsome⟩ := parsed_eq_some_iff.mp hparsed
      obtain ⟨rules, hload⟩ := Option.isSome_iff_exists.mp hsome
      rw [Option.some_or, loadRules_of_loads (hread ▸ hload)]
      exact follows_of_parsed henv.copied hread hload
  | none =>
      rw [Option.none_or, loadRules_of_unusable (parsed_eq_none_iff.mp hparsed), Fs.readBackup,
        henv.read, if_neg Bool.false_ne_true]
      cases good with
      | none => exact ⟨by simp, by simp, by simp⟩
      | some content =>
          obtain ⟨hsome, hbackup⟩ := hkept content rfl
          obtain ⟨rules, hload⟩ := Option.isSome_iff_exists.mp hsome
          have hfall : s.eng.fallBack s.fs.backup =
              { s.eng with rules := rules, rulesSource := .backup } := by
            simp only [Engine.fallBack, Engine.loadFrom, hbackup, hload, Option.map_some,
              Option.getD_some]
          rw [hfall]
          refine ⟨fun content' hcontent => ?_, fun _ => by simp, fun _ => hbackup.trans hload⟩
          obtain rfl := Option.some.inj hcontent
          exact hload

theorem Follows.kept {good : Option Text} {s : Sys} (hs : Follows good s) : Kept good s.fs := by
  intro content hcontent
  have hload := hs.rules content hcontent
  rw [hload, hs.backup (by rw [hcontent]; rfl)]
  exact ⟨rfl, rfl⟩

/-- Only rules, source and backup matter. -/
theorem Follows.congr {good : Option Text} {s s' : Sys} (hs : Follows good s)
    (hrules : s'.eng.rules = s.eng.rules) (hsource : s'.eng.rulesSource = s.eng.rulesSource)
    (hbackup : s'.fs.backup = s.fs.backup) : Follows good s' := by
  refine ⟨fun content hcontent => ?_, fun hsome => ?_, fun hsome => ?_⟩
  · rw [hrules]
    exact hs.rules content hcontent
  · rw [hsource]
    exact hs.source hsome
  · rw [hrules, hbackup]
    exact hs.backup hsome

theorem follows_reloadRules {env : Env} {s : Sys} {good : Option Text} (henv : BackupWorks env)
    (hs : Follows good s) : Follows ((parsedByReload env s).or good) (reloadRules env s) := by
  unfold parsedByReload
  cases hparsed : parsed (s.fs.readRules env .reloadRules) with
  | some text =>
      obtain ⟨hread, hsome⟩ := parsed_eq_some_iff.mp hparsed
      obtain ⟨rules, hload⟩ := Option.isSome_iff_exists.mp hsome
      rw [Option.some_or, Option.some_or, reloadRules_of_loads (hread ▸ hload)]
      exact follows_of_parsed henv.copied hread hload
  | none =>
      rw [Option.none_or, reloadRules_of_unusable (parsed_eq_none_iff.mp hparsed)]
      split_ifs with hsource
      · -- rules from the live file are kept, although it is unusable now
        exact hs
      · exact follows_loadRules henv hs.kept

theorem follows_reload {env : Env} {s : Sys} {good : Option Text} (henv : BackupWorks env)
    (hs : Follows good s) : Follows ((parsedByReload env s).or good) (reload env s).state := by
  obtain ⟨hrules, hsource, hfs⟩ := reload_loaded env s
  exact (follows_reloadRules henv hs).congr hrules hsource (by rw [hfs])

/-! ## Operations -/

theorem writtenByApply_eq_some_iff {env : Env} {candidate : Option Text} {rules : Rules} :
    writtenByApply env candidate = some rules ↔ Accepts env candidate rules := by
  rw [writtenByApply, Option.filter_eq_some_iff]
  constructor
  · rintro ⟨hparsed, hpasses⟩
    simp only [Bool.not_eq_true', Bool.or_eq_false_iff, decide_eq_false_iff_not] at hpasses
    exact ⟨hparsed, UInt32.not_lt.mp hpasses.1, hpasses.2⟩
  · rintro ⟨hparsed, hknown, hwritten⟩
    simp [hparsed, hwritten, hknown]

theorem follows_apply {env : Env} {candidate : Option Text} {s : Sys} {good : Option Text}
    (henv : BackupWorks env) (hs : Follows good s) :
    Follows (((Op.apply env candidate).parses s).or good)
      (applyRulesFile env candidate s).state := by
  rw [Op.parses]
  cases hwritten : writtenByApply env candidate with
  | some rules =>
      have haccepts := writtenByApply_eq_some_iff.mp hwritten
      rw [applyRulesFile_of_accepts haccepts, state_bind_checkSource]
      -- the written file is live now, the backup as before
      exact follows_reload (s := s.writeRules env rules) henv (hs.congr rfl rfl rfl)
  | none =>
      have hrefused (rules : Rules) : ¬ Accepts env candidate rules := fun haccepts => by
        rw [writtenByApply_eq_some_iff.mpr haccepts] at hwritten
        cases hwritten
      rw [applyRulesFile_of_refused hrefused]
      exact hs

theorem follows_sync {env : Env} {s : Sys} {good : Option Text} (hs : Follows good s) :
    Follows good (syncPackages env s).state := by
  have hkeeps := keepsRules_syncPackages env s
  exact hs.congr hkeeps.rules hkeeps.rulesSource (by rw [hkeeps.fs])

theorem follows_tick {env : Env} {s : Sys} {good : Option Text} (henv : BackupWorks env)
    (hs : Follows good s) :
    Follows (((Op.tick env).parses s).or good) (tick env s).state := by
  have hchanged : Follows (((Op.tick env).parses s).or good) (reloadIfChanged env s).state := by
    simp only [reloadIfChanged, Op.parses]
    cases s.fs.statRules env .statRules with
    | none => exact hs
    | some mtime =>
        by_cases hsame : s.eng.lastMtime = some mtime
        · simp only [if_pos hsame]
          exact hs
        · simp only [if_neg hsame]
          exact follows_reload henv hs
  refine Outcome.bind_state (Outcome.bind_state hchanged fun _ _ hs' => follows_sync hs') ?_
  intro mid _ hmid
  have hkeeps := keepsConfig_tickVerdicts env mid
  obtain ⟨state, hfs⟩ := tickVerdicts_fs env mid
  exact hmid.congr hkeeps.rules hkeeps.rulesSource (by rw [hfs])

/-- **One operation**: what it parses becomes the content to follow. -/
theorem follows_perform {h : History} {op : Op} {s : Sys} (hs : Follows h.lastGood s)
    (hop : KeepsBackup h (.run op)) : Follows ((op.parses s).or h.lastGood) (op.perform s) := by
  cases op with
  | tick env => exact follows_tick hop hs
  | reload env => exact follows_reload hop hs
  | apply env candidate => exact follows_apply hop hs
  | extension env key minutes =>
      obtain ⟨eng, hperform, hkeeps⟩ := perform_extension env key minutes s
      rw [hperform]
      exact hs.congr hkeeps.rules hkeeps.rulesSource rfl
  | sync env => exact follows_sync hs
  | killed uid => exact hs.congr rfl rfl rfl

/-! ## Runs -/

/-- The history of a daemon that is up or down. -/
def History.Followed (h : History) : Prop :=
  match h.daemon with
  | .down fs => Kept h.lastGood fs
  | .up s => Follows h.lastGood s

/-- **Every step keeps the history followed.** -/
theorem followed_next {h h' : History} {event : Event} (hh : h.Followed)
    (hkeeps : KeepsBackup h event) (hstep : h.next event = some h') : h'.Followed := by
  obtain ⟨d, hd, rfl⟩ := Option.map_eq_some_iff.mp hstep
  obtain ⟨daemon, good⟩ := h
  cases daemon with
  | down fs =>
      cases event with
      | start env =>
          obtain rfl := Option.some.inj hd
          obtain ⟨hrules, hsource, hfs⟩ := new_loaded env fs
          have hloaded := @follows_loadRules env
            ⟨{ Engine.blank .start with started := env.epoch }, fs⟩ good hkeeps hh
          exact hloaded.congr hrules hsource (by rw [hfs])
      | files fs' =>
          obtain rfl := Option.some.inj hd
          have hsame : fs'.backup = fs.backup := hkeeps
          intro content hcontent
          rw [hsame]
          exact hh content hcontent
      | stop => cases hd
      | run op => cases hd
  | up s =>
      cases event with
      | start env => cases hd
      | stop =>
          obtain rfl := Option.some.inj hd
          exact Follows.kept hh
      | run op =>
          obtain rfl := Option.some.inj hd
          exact follows_perform hh hkeeps
      | files fs =>
          obtain rfl := Option.some.inj hd
          exact Follows.congr hh rfl rfl hkeeps

theorem followed_of_reachable {h : History} (hh : history.ReachableWhen KeepsBackup h) :
    h.Followed := by
  refine System.ReachableWhen.invariant (?_ : ∀ h, history.init h → h.Followed)
    (fun h event h' hh hkeeps hstep => followed_next hh hkeeps hstep) hh
  rintro ⟨daemon, good⟩ ⟨⟨fs, rfl⟩, rfl⟩
  intro content hcontent
  cases hcontent

/-- **The last known good rules survive.**  As soon as some content has been
parsed, the active rules are those of the content parsed last and never the
built-in default; and a restart takes the live file exactly when it parses. -/
theorem active_of_lastGood {h : History} (hh : history.ReachableWhen KeepsBackup h) :
    (∀ content, h.lastGood = some content → h.daemon.Holds fun s =>
      Rules.load (some content) = some s.eng.rules ∧ s.eng.rulesSource ≠ .default) ∧
    ∀ fs env, h.daemon = .down fs → env.fails .loadRules = false →
      ((Engine.new env fs).eng.rulesSource = .file ↔
        (Rules.load (fs.rules.map File.content)).isSome) := by
  refine ⟨fun content hcontent => ?_, fun fs env _ hread => ?_⟩
  · have hfollowed := followed_of_reachable hh
    obtain ⟨daemon, good⟩ := h
    cases daemon with
    | down fs => trivial
    | up s =>
        have hs : Follows good s := hfollowed
        have hgood := Option.isSome_iff_exists.mpr ⟨content, hcontent⟩
        exact ⟨hs.rules content hcontent, hs.source hgood⟩
  · have hcontent : fs.readRules env .loadRules = fs.rules.map File.content := by
      rw [Fs.readRules, hread, if_neg Bool.false_ne_true]
    rw [(new_loaded env fs).2.1, ← hcontent]
    cases hload : Rules.load (fs.readRules env .loadRules) with
    | some rules =>
        rw [loadRules_of_loads hload]
        exact iff_of_true rfl rfl
    | none =>
        obtain ⟨rules, source, hne, hfall⟩ := Engine.fallBack_frame (fs.readBackup env)
        rw [loadRules_of_unusable hload, hfall]
        exact iff_of_false hne Bool.false_ne_true

/-- A rules file that blocks a game. -/
def goodFiles : Fs where
  rules := some ⟨.json (Rules.blocking "0:com.game").toJson, 1⟩
  backup := none
  state := none
  packages := none

/-- The files a daemon leaves behind that was started with them, with the rules
file overwritten afterwards. -/
def overwrittenFiles : Fs :=
  { (Engine.new (.quiet 100) goodFiles).fs with rules := some ⟨.other "not a rules file", 2⟩ }

def restartedHistory : History :=
  ⟨.up (Engine.new (.quiet 200) overwrittenFiles),
    (parsedByLoad (.quiet 200) overwrittenFiles).or
      ((parsedByLoad (.quiet 100) goodFiles).or none)⟩

theorem reachable_event {h h' : History} (event : Event)
    (hh : history.ReachableWhen KeepsBackup h) (hkeeps : KeepsBackup h event)
    (hstep : h.next event = some h') : history.ReachableWhen KeepsBackup h' :=
  .step hh hkeeps hstep

theorem restartedHistory_reachable : history.ReachableWhen KeepsBackup restartedHistory := by
  have hworks (epoch : Nat) : BackupWorks (.quiet epoch) := ⟨rfl, rfl⟩
  have hdown : history.ReachableWhen KeepsBackup ⟨.down goodFiles, none⟩ :=
    .init ⟨⟨goodFiles, rfl⟩, rfl⟩
  have hfirst : history.ReachableWhen KeepsBackup
      ⟨.up (Engine.new (.quiet 100) goodFiles), (parsedByLoad (.quiet 100) goodFiles).or none⟩ :=
    reachable_event (.start (.quiet 100)) hdown (hworks 100) rfl
  have hstopped : history.ReachableWhen KeepsBackup
      ⟨.down (Engine.new (.quiet 100) goodFiles).fs,
        (parsedByLoad (.quiet 100) goodFiles).or none⟩ :=
    reachable_event .stop hfirst trivial rfl
  have hoverwritten : history.ReachableWhen KeepsBackup
      ⟨.down overwrittenFiles, (parsedByLoad (.quiet 100) goodFiles).or none⟩ :=
    reachable_event (.files overwrittenFiles) hstopped rfl rfl
  exact reachable_event (.start (.quiet 200)) hoverwritten (hworks 200) rfl

theorem active_of_lastGood_restartedHistory :
    restartedHistory.daemon.Holds fun s =>
      Rules.load (goodFiles.rules.map File.content) = some s.eng.rules ∧
        s.eng.rulesSource ≠ .default := by
  have hloads : (Rules.load (goodFiles.rules.map File.content)).isSome = true := by
    decide +kernel
  have hgood : restartedHistory.lastGood = goodFiles.rules.map File.content :=
    congrArg (fun first : Option Text => (none : Option Text).or (first.or none))
      (parsed_eq_some_iff.mpr ⟨rfl, hloads⟩)
  exact (active_of_lastGood restartedHistory_reachable).1 _ hgood

end Ningshi
