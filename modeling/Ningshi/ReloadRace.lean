import Ningshi.Daemon

/-!
# Replacements of the rules file during a reload

A tick looks for a changed rules file by its time, reads the file, copies it to
the backup, asks helper binaries and the package list, and only then reads the
time it records.  Another process may replace the file between any two of these
steps.  Each replacement gives it a time it has not had before, and content that
parses.

`Race.advance` takes these steps one by one; without a replacement they make up
the tick (`settles_tick`).  `rules_of_quiet` says that two successful ticks
after the last replacement the rules in use are those of the file, in every run
in which a recorded time belongs to the content that was read.
-/

namespace Ningshi

open Std FiniteMap JsonDoc Transition

/-! ## The steps of a tick -/

/-- What comes next in a tick.  `content` is what the reload has read; the
flags are those of the rules before it. -/
inductive Phase where
  | idle
  /-- `Rules::load` in `reload` -/
  | reading (env : Env)
  /-- `Rules::load` in `load_rules` -/
  | loading (env : Env) (oldShared : KeyMap Bool)
  /-- `refresh_backup` -/
  | copying (env : Env) (oldShared : KeyMap Bool) (content : Option Text)
  /-- timezone, protected packages, uid map -/
  | resolving (env : Env) (oldShared : KeyMap Bool) (content : Option Text)
  /-- the second `metadata`, and the rest of `reload` -/
  | recording (env : Env) (oldShared : KeyMap Bool) (content : Option Text) (uidOf : UidOf)
  /-- the tick after `reload_if_changed` -/
  | syncing (env : Env)

structure Race where
  sys : Sys
  phase : Phase
  /-- ticks that succeeded since the last replacement -/
  quiet : Nat
  /-- the times the rules file has had -/
  times : List Nat

/-- A tick after `reload_if_changed`. -/
def tickRest (env : Env) (s : Sys) : Outcome Sys :=
  (syncPackages env s).bind (tickVerdicts env)

def Race.goto (phase : Phase) (s : Sys) (r : Race) : Race := { r with sys := s, phase := phase }

/-- The tick ends. -/
def Race.finish (result : Outcome Sys) (r : Race) : Race :=
  { r with
    sys := result.state
    phase := .idle
    quiet := if result.isOk then r.quiet + 1 else r.quiet }

/-- A tick begins with the look at the file time. -/
def Race.start (env : Env) (r : Race) : Race :=
  match r.sys.fs.statRules env .statRules with
  | none => r.goto (.syncing env) r.sys
  | some mtime =>
      if r.sys.eng.lastMtime = some mtime then r.goto (.syncing env) r.sys
      else r.goto (.reading env) r.sys

/-- The next step of the tick that is going on. -/
def Race.advance (r : Race) : Race :=
  match r.phase with
  | .idle => r
  | .reading env =>
      let content := r.sys.fs.readRules env .reloadRules
      let oldShared := r.sys.eng.rules.sharedFlags
      match r.sys.eng.loadFrom content .file with
      | some eng => r.goto (.copying env oldShared content) { r.sys with eng := eng }
      | none =>
          if r.sys.eng.rulesSource = .file then r.goto (.resolving env oldShared content) r.sys
          else r.goto (.loading env oldShared) r.sys
  | .loading env oldShared =>
      let content := r.sys.fs.readRules env .loadRules
      match r.sys.eng.loadFrom content .file with
      | some eng => r.goto (.copying env oldShared content) { r.sys with eng := eng }
      | none =>
          r.goto (.resolving env oldShared content)
            { r.sys with eng := r.sys.eng.fallBack (r.sys.fs.readBackup env) }
  -- the copy is of the file as it is now
  | .copying env oldShared content =>
      r.goto (.resolving env oldShared content) { r.sys with fs := r.sys.fs.refreshBackup env }
  | .resolving env oldShared content =>
      let s := { r.sys with eng := r.sys.eng.deriveSettings env }
      match r.sys.fs.resolveUids env .reloadPackages with
      | none => r.finish (.err s)
      | some uidOf => r.goto (.recording env oldShared content uidOf) s
  -- so is the time that goes on record
  | .recording env oldShared _ uidOf =>
      let mtime := r.sys.fs.statRules env .restatRules
      r.goto (.syncing env) { r.sys with eng := r.sys.eng.finishReload oldShared uidOf mtime }
  | .syncing env => r.finish (tickRest env r.sys)

inductive RaceStep where
  | start (env : Env)
  | advance
  /-- another process moves a new file into place -/
  | replace (file : File Text)

/-- A new time and content that parses. -/
def Race.Allows (r : Race) (file : File Text) : Prop :=
  file.mtime ∉ r.times ∧ (Rules.load (some file.content)).isSome

instance (r : Race) (file : File Text) : Decidable (r.Allows file) :=
  inferInstanceAs (Decidable (_ ∧ _))

def Race.next (r : Race) : RaceStep → Option Race
  | .start env =>
      match r.phase with
      | .idle => some (r.start env)
      | _ => none
  | .advance => some r.advance
  | .replace file =>
      if r.Allows file then
        some { r with
          sys := { r.sys with fs.rules := some file }
          quiet := 0
          times := file.mtime :: r.times }
      else none

/-- A daemon that has just been started. -/
def Race.fresh (env : Env) (fs : Fs) : Race where
  sys := Engine.new env fs
  phase := .idle
  quiet := 0
  times := (fs.rules.map File.mtime).toList

def reloadRace : System Race RaceStep :=
  .ofNext (fun r => ∃ env fs, r = .fresh env fs) Race.next

/-! ## Without a replacement the steps make up the tick -/

/-- Left alone, the daemon ends the tick with this result. -/
def Settles (r : Race) (result : Outcome Sys) : Prop :=
  ∃ n, Race.advance^[n] r = r.finish result

@[simp] theorem Race.finish_goto (phase : Phase) (s : Sys) (result : Outcome Sys) (r : Race) :
    (r.goto phase s).finish result = r.finish result := rfl

theorem Race.finish_quiet (result : Outcome Sys) (r : Race) :
    (r.finish result).quiet = if result.isOk then r.quiet + 1 else r.quiet := rfl

theorem settles_of_advance {phase phase' : Phase} {s s' : Sys} {r : Race} {result : Outcome Sys}
    (h : (r.goto phase s).advance = r.goto phase' s')
    (hr : Settles (r.goto phase' s') result) : Settles (r.goto phase s) result := by
  obtain ⟨n, hn⟩ := hr
  exact ⟨n + 1, by rw [Function.iterate_succ_apply, h, hn, Race.finish_goto, Race.finish_goto]⟩

/-- The part of a reload after the rules have been read. -/
def reloadRest (env : Env) (oldShared : KeyMap Bool) (s : Sys) : Outcome Sys :=
  let eng := s.eng.deriveSettings env
  match s.fs.resolveUids env .reloadPackages with
  | none => .err { s with eng := eng }
  | some uidOf =>
      .ok { s with eng := eng.finishReload oldShared uidOf (s.fs.statRules env .restatRules) }

theorem reload_eq (env : Env) (s : Sys) :
    reload env s = reloadRest env s.eng.rules.sharedFlags (reloadRules env s) := rfl

section Settles

variable (r : Race) (env : Env) (oldShared : KeyMap Bool) (content : Option Text) (s : Sys)

theorem settles_syncing : Settles (r.goto (.syncing env) s) (tickRest env s) := ⟨1, rfl⟩

theorem settles_recording (uidOf : UidOf) :
    Settles (r.goto (.recording env oldShared content uidOf) s)
      (tickRest env { s with
        eng := s.eng.finishReload oldShared uidOf (s.fs.statRules env .restatRules) }) :=
  settles_of_advance rfl (settles_syncing r env _)

theorem settles_resolving :
    Settles (r.goto (.resolving env oldShared content) s)
      ((reloadRest env oldShared s).bind (tickRest env)) := by
  cases hres : s.fs.resolveUids env .reloadPackages with
  | none =>
      refine ⟨1, ?_⟩
      simp only [Function.iterate_one, Race.advance, Race.goto, reloadRest, hres, Outcome.bind_err]
  | some uidOf =>
      have hadvance : (r.goto (.resolving env oldShared content) s).advance =
          r.goto (.recording env oldShared content uidOf)
            { s with eng := s.eng.deriveSettings env } := by
        simp only [Race.advance, Race.goto, hres]
      refine settles_of_advance hadvance ?_
      simp only [reloadRest, hres, Outcome.bind_ok]
      exact settles_recording r env oldShared content _ uidOf

theorem settles_copying :
    Settles (r.goto (.copying env oldShared content) s)
      ((reloadRest env oldShared { s with fs := s.fs.refreshBackup env }).bind (tickRest env)) :=
  settles_of_advance rfl (settles_resolving r env oldShared content _)

theorem settles_loading :
    Settles (r.goto (.loading env oldShared) s)
      ((reloadRest env oldShared (loadRules env s)).bind (tickRest env)) := by
  cases hload : s.eng.loadFrom (s.fs.readRules env .loadRules) .file with
  | some eng =>
      have hadvance : (r.goto (.loading env oldShared) s).advance =
          r.goto (.copying env oldShared (s.fs.readRules env .loadRules))
            { s with eng := eng } := by
        simp only [Race.advance, Race.goto, hload]
      simp only [loadRules, hload]
      exact settles_of_advance hadvance (settles_copying r env oldShared _ _)
  | none =>
      have hadvance : (r.goto (.loading env oldShared) s).advance =
          r.goto (.resolving env oldShared (s.fs.readRules env .loadRules))
            { s with eng := s.eng.fallBack (s.fs.readBackup env) } := by
        simp only [Race.advance, Race.goto, hload]
      simp only [loadRules, hload]
      exact settles_of_advance hadvance (settles_resolving r env oldShared _ _)

theorem settles_reading :
    Settles (r.goto (.reading env) s) ((reload env s).bind (tickRest env)) := by
  rw [reload_eq]
  cases hload : s.eng.loadFrom (s.fs.readRules env .reloadRules) .file with
  | some eng =>
      have hadvance : (r.goto (.reading env) s).advance =
          r.goto (.copying env s.eng.rules.sharedFlags (s.fs.readRules env .reloadRules))
            { s with eng := eng } := by
        simp only [Race.advance, Race.goto, hload]
      simp only [reloadRules, hload]
      exact settles_of_advance hadvance (settles_copying r env _ _ _)
  | none =>
      by_cases hsource : s.eng.rulesSource = .file
      · have hadvance : (r.goto (.reading env) s).advance =
            r.goto (.resolving env s.eng.rules.sharedFlags (s.fs.readRules env .reloadRules))
              s := by
          simp only [Race.advance, Race.goto, hload]
          exact if_pos hsource
        simp only [reloadRules, hload, if_pos hsource]
        exact settles_of_advance hadvance (settles_resolving r env _ _ s)
      · have hadvance : (r.goto (.reading env) s).advance =
            r.goto (.loading env s.eng.rules.sharedFlags) s := by
          simp only [Race.advance, Race.goto, hload]
          exact if_neg hsource
        simp only [reloadRules, hload, if_neg hsource]
        exact settles_of_advance hadvance (settles_loading r env _ s)

end Settles

/-- **Uninterrupted, the steps make up the tick.** -/
theorem settles_tick (r : Race) (env : Env) : Settles (r.start env) (tick env r.sys) := by
  have htick : tick env r.sys = (reloadIfChanged env r.sys).bind (tickRest env) := by
    rw [tick, refresh, Outcome.bind_assoc]
    rfl
  rw [htick]
  unfold Race.start reloadIfChanged
  cases hstat : r.sys.fs.statRules env .statRules with
  | none => exact settles_syncing r env r.sys
  | some mtime =>
      by_cases hsame : r.sys.eng.lastMtime = some mtime
      · simp only [if_pos hsame, Outcome.bind_ok]
        exact settles_syncing r env r.sys
      · simp only [if_neg hsame]
        exact settles_reading r env r.sys

/-! ## Runs -/

/-- The file is looked at and read, and where a reload records a time, the file
still has the content the reload has read. -/
def RecordsWhatItRead : Race → RaceStep → Prop
  | _, .start env => env.fails .statRules = false ∧ env.fails .reloadRules = false
  | r, .advance =>
      match r.phase with
      | .recording env _ content _ =>
          (r.sys.fs.statRules env .restatRules).isSome →
            r.sys.fs.rules.map File.content = content
      | _ => True
  | _, .replace _ => True

/-- The rules in use are those of the file. -/
def UpToDate (s : Sys) : Prop :=
  ∀ file rules, s.fs.rules = some file → Rules.load (some file.content) = some rules →
    s.eng.rules = rules

/-- The file cannot be parsed. -/
def Unusable (s : Sys) : Prop :=
  ∀ file, s.fs.rules = some file → Rules.load (some file.content) = none

/-- The time on record is that of the file. -/
def Recorded (s : Sys) : Prop := ∃ file, s.fs.rules = some file ∧ s.eng.lastMtime = some file.mtime

/-- A reload is going on. -/
def Phase.Reloading : Phase → Prop
  | .idle => False
  | .syncing _ => False
  | _ => True

/-- The tick knows the file, as it was then. -/
def Phase.PastRead : Phase → Prop
  | .idle => False
  | .reading _ => False
  | _ => True

/-- The read that comes next fails. -/
def Phase.ReadFails : Phase → Prop
  | .reading env => env.fails .reloadRules = true
  | _ => False

/-- The reload has found no usable file. -/
def Phase.FoundNone : Phase → Prop
  | .loading _ _ => True
  | _ => False

/-- What the reload has read. -/
def Phase.content : Phase → Option Text
  | .copying _ _ content => content
  | .resolving _ _ content => content
  | .recording _ _ content _ => content
  | _ => none

/-- What a run keeps. -/
structure Caught (r : Race) : Prop where
  /-- times the file has had: its own, and the one on record -/
  fileTime : ∀ file, r.sys.fs.rules = some file → file.mtime ∈ r.times
  recordTime : ∀ mtime, r.sys.eng.lastMtime = some mtime → mtime ∈ r.times
  /-- a time on record vouches for the rules in use -/
  recorded : Recorded r.sys → UpToDate r.sys
  /-- a reload runs only while the time on record is another one -/
  reloading : r.phase.Reloading → ¬ Recorded r.sys
  /-- what has been read is in use -/
  content : ∀ rules, Rules.load r.phase.content = some rules → r.sys.eng.rules = rules
  readable : ¬ r.phase.ReadFails
  unusable : 1 ≤ r.quiet → r.phase.FoundNone → Unusable r.sys
  /-- a tick that began after the last replacement has seen it -/
  upToDate : 2 ≤ r.quiet ∨ (1 ≤ r.quiet ∧ r.phase.PastRead) → UpToDate r.sys

theorem upToDate_of_unusable {s : Sys} (h : Unusable s) : UpToDate s := by
  intro file rules hfile hload
  rw [h file hfile] at hload
  cases hload

theorem upToDate_congr {s s' : Sys} (hrules : s'.eng.rules = s.eng.rules)
    (hfile : s'.fs.rules = s.fs.rules) : UpToDate s' ↔ UpToDate s := by
  rw [UpToDate, UpToDate, hrules, hfile]

/-- What a read without failure has to do with the file. -/
theorem readRules_eq {env : Env} {call : FsCall} {fs : Fs} (h : env.fails call = false) :
    fs.readRules env call = fs.rules.map File.content := if_neg (by simp [h])

theorem readRules_of_loads {env : Env} {call : FsCall} {fs : Fs} {rules : Rules}
    (h : Rules.load (fs.readRules env call) = some rules) :
    fs.readRules env call = fs.rules.map File.content := by
  refine readRules_eq (eq_false_of_ne_true fun hfail => ?_)
  rw [Fs.readRules, if_pos hfail] at h
  cases h

theorem exists_file_of_statRules {env : Env} {call : FsCall} {fs : Fs} {mtime : Nat}
    (h : fs.statRules env call = some mtime) :
    ∃ file, fs.rules = some file ∧ file.mtime = mtime := by
  unfold Fs.statRules at h
  split_ifs at h
  exact Option.map_eq_some_iff.mp h

/-- Rules that were read from the file as it stands. -/
theorem upToDate_of_read {s : Sys}
    (h : Rules.load (s.fs.rules.map File.content) = some s.eng.rules) : UpToDate s := by
  intro file rules hfile hload
  rw [hfile, Option.map_some] at h
  exact Option.some.inj (h.symm.trans hload)

theorem unusable_of_read {s : Sys} (h : Rules.load (s.fs.rules.map File.content) = none) :
    Unusable s := by
  intro file hfile
  rw [hfile, Option.map_some] at h
  exact h

section Steps

variable {r : Race}

/-- A step that leaves the rules, the file and the record alone. -/
theorem caught_goto {phase : Phase} {s : Sys} (hr : Caught r)
    (hrules : s.eng.rules = r.sys.eng.rules) (hfile : s.fs.rules = r.sys.fs.rules)
    (hmtime : s.eng.lastMtime = r.sys.eng.lastMtime)
    (hreloading : phase.Reloading → ¬ Recorded r.sys)
    (hcontent : ∀ rules, Rules.load phase.content = some rules → r.sys.eng.rules = rules)
    (hreadable : ¬ phase.ReadFails)
    (hunusable : 1 ≤ r.quiet → phase.FoundNone → Unusable r.sys)
    (hpast : 1 ≤ r.quiet → phase.PastRead → UpToDate r.sys) : Caught (r.goto phase s) := by
  have hrecorded : Recorded s ↔ Recorded r.sys := by rw [Recorded, Recorded, hfile, hmtime]
  have hsame := upToDate_congr hrules hfile
  exact
    { fileTime := fun file h => hr.fileTime file (hfile ▸ h)
      recordTime := fun mtime h => hr.recordTime mtime (hmtime ▸ h)
      recorded := fun h => hsame.mpr (hr.recorded (hrecorded.mp h))
      reloading := fun h hrec => hreloading h (hrecorded.mp hrec)
      content := fun rules h => hrules.trans (hcontent rules h)
      readable := hreadable
      unusable := fun hquiet h file hf => hunusable hquiet h file (hfile ▸ hf)
      upToDate := fun h => hsame.mpr
        (h.elim (fun hquiet => hr.upToDate (.inl hquiet)) fun h => hpast h.1 h.2) }

/-- The end of a tick. -/
theorem caught_finish {result : Outcome Sys} (hr : Caught r)
    (hrules : result.state.eng.rules = r.sys.eng.rules)
    (hfile : result.state.fs.rules = r.sys.fs.rules)
    (hmtime : result.state.eng.lastMtime = r.sys.eng.lastMtime)
    (hup : result.isOk = true → 1 ≤ r.quiet → UpToDate r.sys) : Caught (r.finish result) := by
  have hrecorded : Recorded result.state ↔ Recorded r.sys := by
    rw [Recorded, Recorded, hfile, hmtime]
  have hsame := upToDate_congr hrules hfile
  exact
    { fileTime := fun file h => hr.fileTime file (hfile ▸ h)
      recordTime := fun mtime h => hr.recordTime mtime (hmtime ▸ h)
      recorded := fun h => hsame.mpr (hr.recorded (hrecorded.mp h))
      reloading := fun h => h.elim
      content := fun rules h => by cases h
      readable := id
      unusable := fun _ h => h.elim
      upToDate := fun h => hsame.mpr <| by
        rcases h with h | ⟨-, h⟩
        · by_cases hok : result.isOk = true
          · rw [Race.finish_quiet, if_pos hok] at h
            exact hup hok (by omega)
          · rw [Race.finish_quiet, if_neg hok] at h
            exact hr.upToDate (.inl h)
        · exact h.elim }

/-- A reload adopts what it has read from the file as it stands. -/
theorem caught_adopt {env : Env} {oldShared : KeyMap Bool} {content : Option Text} {rules : Rules}
    (hr : Caught r) (hphase : r.phase.Reloading) (hload : Rules.load content = some rules)
    (hread : content = r.sys.fs.rules.map File.content) :
    Caught (r.goto (.copying env oldShared content)
      { r.sys with eng := { r.sys.eng with rules := rules, rulesSource := .file } }) where
  fileTime := hr.fileTime
  recordTime := hr.recordTime
  recorded := fun h => (hr.reloading hphase h).elim
  reloading := fun _ => hr.reloading hphase
  content := fun rules' h => Option.some.inj (hload.symm.trans h)
  readable := id
  unusable := fun _ h => h.elim
  upToDate := fun _ => by
    have hfile : Rules.load (r.sys.fs.rules.map File.content) = some rules := hread ▸ hload
    exact upToDate_of_read hfile

theorem caught_reading {env : Env} (hr : Caught r) (hphase : r.phase = .reading env) :
    Caught r.advance := by
  have hreloading : r.phase.Reloading := by rw [hphase]; trivial
  have hread : r.sys.fs.readRules env .reloadRules = r.sys.fs.rules.map File.content :=
    readRules_eq (eq_false_of_ne_true fun h => hr.readable (by rw [hphase]; exact h))
  simp only [Race.advance, hphase, Engine.loadFrom]
  cases hload : Rules.load (r.sys.fs.readRules env .reloadRules) with
  | some rules => exact caught_adopt hr hreloading hload hread
  | none =>
      have hnone : Unusable r.sys := unusable_of_read (hread ▸ hload)
      have hcontent : ∀ rules, Rules.load (r.sys.fs.readRules env .reloadRules) = some rules →
          r.sys.eng.rules = rules := fun rules h => by rw [hload] at h; cases h
      rw [Option.map_none]
      dsimp only
      split_ifs
      · exact caught_goto hr rfl rfl rfl (fun _ => hr.reloading hreloading) hcontent id
          (fun _ h => h.elim) fun _ _ => upToDate_of_unusable hnone
      · exact caught_goto hr rfl rfl rfl (fun _ => hr.reloading hreloading)
          (fun rules h => by cases h) id (fun _ _ => hnone)
          fun _ _ => upToDate_of_unusable hnone

theorem caught_loading {env : Env} {oldShared : KeyMap Bool} (hr : Caught r)
    (hphase : r.phase = .loading env oldShared) : Caught r.advance := by
  have hreloading : r.phase.Reloading := by rw [hphase]; trivial
  simp only [Race.advance, hphase, Engine.loadFrom]
  cases hload : Rules.load (r.sys.fs.readRules env .loadRules) with
  | some rules => exact caught_adopt hr hreloading hload (readRules_of_loads hload)
  | none =>
      -- The file has not been replaced since the failed read, so the backup may stand in.
      have hunusable : 1 ≤ r.quiet → Unusable r.sys :=
        fun hquiet => hr.unusable hquiet (by rw [hphase]; trivial)
      obtain ⟨rules, source, -, hfallBack⟩ := Engine.fallBack_frame (r.sys.fs.readBackup env)
      rw [Option.map_none, hfallBack]
      exact
        { fileTime := hr.fileTime
          recordTime := hr.recordTime
          recorded := fun h => (hr.reloading hreloading h).elim
          reloading := fun _ => hr.reloading hreloading
          content := fun rules' h => by
            change Rules.load (r.sys.fs.readRules env .loadRules) = some rules' at h
            rw [hload] at h
            cases h
          readable := id
          unusable := fun _ h => h.elim
          upToDate := fun h => upToDate_of_unusable (hunusable (h.elim (by
            intro hquiet
            change 2 ≤ r.quiet at hquiet
            omega) And.left)) }

theorem caught_copying {env : Env} {oldShared : KeyMap Bool} {content : Option Text}
    (hr : Caught r) (hphase : r.phase = .copying env oldShared content) : Caught r.advance := by
  have hreloading : r.phase.Reloading := by rw [hphase]; trivial
  obtain ⟨backup, hfs⟩ := Fs.refreshBackup_frame env r.sys.fs
  simp only [Race.advance, hphase]
  refine caught_goto hr rfl (by rw [hfs]) rfl (fun _ => hr.reloading hreloading) (fun rules h => ?_)
    id (fun _ h => h.elim) fun hquiet _ => hr.upToDate (.inr ⟨hquiet, by rw [hphase]; trivial⟩)
  exact hr.content rules (by rw [hphase]; exact h)

theorem caught_resolving {env : Env} {oldShared : KeyMap Bool} {content : Option Text}
    (hr : Caught r) (hphase : r.phase = .resolving env oldShared content) : Caught r.advance := by
  have hreloading : r.phase.Reloading := by rw [hphase]; trivial
  simp only [Race.advance, hphase]
  cases hres : r.sys.fs.resolveUids env .reloadPackages with
  | none => exact caught_finish hr rfl rfl rfl fun h => by cases h
  | some uidOf =>
      refine caught_goto hr rfl rfl rfl (fun _ => hr.reloading hreloading) (fun rules h => ?_)
        id (fun _ h => h.elim) fun hquiet _ => hr.upToDate (.inr ⟨hquiet, by rw [hphase]; trivial⟩)
      exact hr.content rules (by rw [hphase]; exact h)

/-- Recording a time is where the condition is needed. -/
theorem caught_recording {env : Env} {oldShared : KeyMap Bool} {content : Option Text}
    {uidOf : UidOf} (hr : Caught r) (hphase : r.phase = .recording env oldShared content uidOf)
    (hcond : (r.sys.fs.statRules env .restatRules).isSome →
      r.sys.fs.rules.map File.content = content) : Caught r.advance := by
  have hreloading : r.phase.Reloading := by rw [hphase]; trivial
  have hpast : 1 ≤ r.quiet → UpToDate r.sys :=
    fun hquiet => hr.upToDate (.inr ⟨hquiet, by rw [hphase]; trivial⟩)
  have hrules : ∀ rules, Rules.load content = some rules → r.sys.eng.rules = rules :=
    fun rules h => hr.content rules (by rw [hphase]; exact h)
  obtain ⟨_, _, hfinish⟩ := Engine.finishReload_frame oldShared uidOf
    (r.sys.fs.statRules env .restatRules) r.sys.eng
  simp only [Race.advance, hphase, hfinish]
  cases hstat : r.sys.fs.statRules env .restatRules with
  | none =>
      exact caught_goto hr rfl rfl rfl (fun h => h.elim) (fun rules h => by cases h) id
        (fun _ h => h.elim) fun hquiet _ => hpast hquiet
  | some mtime =>
      rw [hstat] at hcond
      obtain ⟨file, hfile, hmtime⟩ := exists_file_of_statRules hstat
      -- By the condition the file still has the content that is in use.
      have hnow : UpToDate r.sys := by
        intro file' rules hfile' hload
        have hcontent := hcond rfl
        rw [hfile', Option.map_some] at hcontent
        exact hrules rules (hcontent ▸ hload)
      exact
        { fileTime := hr.fileTime
          recordTime := fun mtime' h => by
            obtain rfl : mtime = mtime' := Option.some.inj h
            exact hmtime ▸ hr.fileTime file hfile
          recorded := fun _ => hnow
          reloading := fun h => h.elim
          content := fun rules h => by cases h
          readable := id
          unusable := fun _ h => h.elim
          upToDate := fun _ => hnow }

/-- The rest of a tick leaves the rules, the file and the record alone. -/
theorem tickRest_frame (env : Env) (s : Sys) :
    (tickRest env s).state.eng.rules = s.eng.rules ∧
      (tickRest env s).state.fs.rules = s.fs.rules ∧
      (tickRest env s).state.eng.lastMtime = s.eng.lastMtime := by
  have hkeeps := keepsRules_syncPackages env s
  rw [tickRest]
  cases hsync : syncPackages env s with
  | err s' =>
      rw [hsync, Outcome.state_err] at hkeeps
      exact ⟨hkeeps.rules, by rw [Outcome.bind_err, Outcome.state_err, hkeeps.fs], hkeeps.lastMtime⟩
  | ok s' =>
      rw [hsync, Outcome.state_ok] at hkeeps
      obtain ⟨state, hfs⟩ := tickVerdicts_fs env s'
      have hconfig := keepsConfig_tickVerdicts env s'
      rw [Outcome.bind_ok, hconfig.rules, hconfig.lastMtime, hfs, hkeeps.fs]
      exact ⟨hkeeps.rules, rfl, hkeeps.lastMtime⟩

theorem caught_syncing {env : Env} (hr : Caught r) (hphase : r.phase = .syncing env) :
    Caught r.advance := by
  obtain ⟨hrules, hfile, hmtime⟩ := tickRest_frame env r.sys
  simp only [Race.advance, hphase]
  exact caught_finish hr hrules hfile hmtime
    fun _ hquiet => hr.upToDate (.inr ⟨hquiet, by rw [hphase]; trivial⟩)

/-- A tick goes on without a reload only when the rules in use are up to date. -/
theorem caught_start {env : Env} (hr : Caught r) (hstat : env.fails .statRules = false)
    (hread : env.fails .reloadRules = false) : Caught (r.start env) := by
  have htime : r.sys.fs.statRules env .statRules = r.sys.fs.rules.map File.mtime :=
    if_neg (by simp [hstat])
  have hsyncing (hup : UpToDate r.sys) : Caught (r.goto (.syncing env) r.sys) :=
    caught_goto hr rfl rfl rfl (fun h => h.elim) (fun rules h => by cases h) id
      (fun _ h => h.elim) fun _ _ => hup
  unfold Race.start
  rw [htime]
  cases hfile : r.sys.fs.rules with
  | none => exact hsyncing fun file rules h => by rw [hfile] at h; cases h
  | some file =>
      rw [Option.map_some]
      dsimp only
      split_ifs with hsame
      · -- The time on record is the file's, so its rules are in use.
        exact hsyncing (hr.recorded ⟨file, hfile, hsame⟩)
      · refine caught_goto hr rfl rfl rfl (fun _ => ?_) (fun rules h => by cases h)
          (fun h => ?_) (fun _ h => h.elim) (fun _ h => h.elim)
        · rintro ⟨file', hfile', hmtime⟩
          obtain rfl := Option.some.inj (hfile.symm.trans hfile')
          exact hsame hmtime
        · rw [Phase.ReadFails, hread] at h
          cases h

/-- A new file is not the one on record. -/
theorem caught_replace {file : File Text} (hr : Caught r) (hnew : file.mtime ∉ r.times) :
    Caught { r with
      sys := { r.sys with fs.rules := some file }
      quiet := 0
      times := file.mtime :: r.times } := by
  have hunrecorded : ¬ Recorded { r.sys with fs.rules := some file } := by
    rintro ⟨file', hfile', hmtime⟩
    obtain rfl := Option.some.inj hfile'
    exact hnew (hr.recordTime file.mtime hmtime)
  exact
    { fileTime := fun file' h => by
        obtain rfl := Option.some.inj h
        exact List.mem_cons_self
      recordTime := fun mtime h => List.mem_cons_of_mem _ (hr.recordTime mtime h)
      recorded := fun h => (hunrecorded h).elim
      reloading := fun _ => hunrecorded
      content := hr.content
      readable := hr.readable
      unusable := fun h => absurd h (Nat.not_succ_le_zero 0)
      upToDate := fun h => by
        rcases h with h | ⟨h, -⟩
        · cases h
        · cases h }

theorem caught_advance (hr : Caught r) (hcond : RecordsWhatItRead r .advance) :
    Caught r.advance := by
  cases hphase : r.phase with
  | idle =>
      simp only [Race.advance, hphase]
      exact hr
  | reading env => exact caught_reading hr hphase
  | loading env oldShared => exact caught_loading hr hphase
  | copying env oldShared content => exact caught_copying hr hphase
  | resolving env oldShared content => exact caught_resolving hr hphase
  | recording env oldShared content uidOf =>
      simp only [RecordsWhatItRead, hphase] at hcond
      exact caught_recording hr hphase hcond
  | syncing env => exact caught_syncing hr hphase

/-- **Every step that meets the condition keeps the invariant.** -/
theorem caught_next {r' : Race} {step : RaceStep} (hr : Caught r)
    (hcond : RecordsWhatItRead r step) (hstep : r.next step = some r') : Caught r' := by
  cases step with
  | start env =>
      simp only [Race.next] at hstep
      split at hstep
      next =>
        obtain rfl := Option.some.inj hstep
        exact caught_start hr hcond.1 hcond.2
      next => cases hstep
  | advance =>
      obtain rfl := Option.some.inj hstep
      exact caught_advance hr hcond
  | replace file =>
      simp only [Race.next] at hstep
      split_ifs at hstep with hallows
      obtain rfl := Option.some.inj hstep
      exact caught_replace hr hallows.1

end Steps

/-- A daemon that has just been started has no time on record. -/
theorem caught_fresh (env : Env) (fs : Fs) : Caught (.fresh env fs) := by
  have hmtime : (Engine.new env fs).eng.lastMtime = none := (new_frame env fs).2.2.1
  exact
    { fileTime := fun file h => by
        rw [Race.fresh, new_rulesFile] at h
        simp [Race.fresh, h]
      recordTime := fun mtime h => by
        rw [Race.fresh, hmtime] at h
        cases h
      recorded := by
        rintro ⟨file, -, h⟩
        rw [Race.fresh, hmtime] at h
        cases h
      reloading := fun h => h.elim
      content := fun rules h => by cases h
      readable := id
      unusable := fun h => absurd h (Nat.not_succ_le_zero 0)
      upToDate := fun h => by
        rcases h with h | ⟨h, -⟩
        · cases h
        · cases h }

/-- **No edit is missed**: two successful ticks after the last replacement the
rules in use are those of the file. -/
theorem rules_of_quiet {r : Race} (hr : reloadRace.ReachableWhen RecordsWhatItRead r)
    (hquiet : 2 ≤ r.quiet) : UpToDate r.sys := by
  have hcaught : Caught r := by
    refine System.ReachableWhen.invariant ?_
      (fun s step s' (hs : Caught s) hcond (hstep : s.next step = some s') =>
        caught_next hs hcond hstep) hr
    rintro s ⟨env, fs, rfl⟩
    exact caught_fresh env fs
  exact hcaught.upToDate (.inl hquiet)

/-- **A missed edit is missed for good**: once the time of a file that was not
read is on record, no tick reads it. -/
theorem missed_tick {s : Sys} (env : Env) (hrecorded : Recorded s) (hmissed : ¬ UpToDate s) :
    Recorded (tick env s).state ∧ ¬ UpToDate (tick env s).state := by
  obtain ⟨file, hfile, hmtime⟩ := hrecorded
  have hchanged : reloadIfChanged env s = .ok s := by
    unfold reloadIfChanged
    split
    next => rfl
    next mtime hstat =>
      obtain ⟨file', hfile', rfl⟩ := exists_file_of_statRules hstat
      obtain rfl := Option.some.inj (hfile.symm.trans hfile')
      exact if_pos hmtime
  have htick : tick env s = tickRest env s := by
    rw [tick, refresh, hchanged, Outcome.bind_ok]
    rfl
  obtain ⟨hrules, hfiles, hlast⟩ := tickRest_frame env s
  rw [htick]
  exact ⟨⟨file, hfiles.trans hfile, hlast.trans hmtime⟩,
    fun hup => hmissed ((upToDate_congr hrules hfiles).mp hup)⟩

/-! ## A replacement before the second look at the time -/

theorem Race.reachable_start {cond : Race → RaceStep → Prop} {r : Race} {env : Env}
    (hidle : r.phase = .idle) (hr : reloadRace.ReachableWhen cond r) (hcond : cond r (.start env)) :
    reloadRace.ReachableWhen cond (r.start env) := by
  have hstep : r.next (.start env) = some (r.start env) := by simp only [Race.next, hidle]
  exact .step hr hcond hstep

theorem Race.reachable_advance {cond : Race → RaceStep → Prop} {r : Race}
    (hr : reloadRace.ReachableWhen cond r) (hcond : cond r .advance) :
    reloadRace.ReachableWhen cond r.advance :=
  .step hr hcond (rfl : r.next .advance = some r.advance)

/-- A daemon whose rules file blocks one of two apps. -/
def oneBlocked : Race :=
  .fresh (.quiet 100) ⟨some ⟨.json (Rules.blocking "0:com.a").toJson, 1⟩, none, none,
    some ⟨"com.a 10001\ncom.b 10002", 1⟩⟩

/-- It reads its file in one tick and sees no change in the next. -/
theorem rules_of_quiet_oneBlocked :
    UpToDate ((oneBlocked.start (.quiet 100)).advance.advance.advance.advance.advance.start
      (.quiet 110)).advance.sys := by
  have hstarted : reloadRace.ReachableWhen RecordsWhatItRead (oneBlocked.start (.quiet 100)) :=
    Race.reachable_start rfl (.init ⟨_, _, rfl⟩) ⟨rfl, rfl⟩
  have hresolved : reloadRace.ReachableWhen RecordsWhatItRead
      (oneBlocked.start (.quiet 100)).advance.advance.advance :=
    Race.reachable_advance (Race.reachable_advance (Race.reachable_advance hstarted trivial)
      trivial) trivial
  have hticked : reloadRace.ReachableWhen RecordsWhatItRead
      (oneBlocked.start (.quiet 100)).advance.advance.advance.advance.advance :=
    Race.reachable_advance (Race.reachable_advance hresolved fun _ => rfl) trivial
  exact rules_of_quiet (Race.reachable_advance (Race.reachable_start rfl hticked ⟨rfl, rfl⟩)
    trivial) (by decide +kernel)

/-- While the first tick copies the file, it is replaced by one that blocks the
other app; two ticks go by. -/
def replacedWhileCopying : Option Race :=
  runFrom Race.next [.start (.quiet 100), .advance,
    .replace ⟨.json (Rules.blocking "0:com.b").toJson, 2⟩, .advance, .advance, .advance, .advance,
    .start (.quiet 110), .advance] oneBlocked

/-- The new file is not read: its time is on record. -/
theorem not_rules_of_quiet : ¬ ∀ r, reloadRace.Reachable r → 2 ≤ r.quiet → UpToDate r.sys := by
  intro h
  have hsome : replacedWhileCopying.isSome = true := by decide +kernel
  have hquiet : replacedWhileCopying.map Race.quiet = some 2 := by decide +kernel
  have hused : replacedWhileCopying.map (fun r => r.sys.eng.rules.apps.contains "0:com.a") =
      some true := by decide +kernel
  have hfile : (replacedWhileCopying.bind fun r => Rules.load (r.sys.fs.rules.map File.content)).map
      (fun rules => rules.apps.contains "0:com.a") = some false := by decide +kernel
  obtain ⟨r, hrun⟩ := Option.isSome_iff_exists.mp hsome
  rw [hrun] at hquiet hused hfile
  have hreached : reloadRace.Reachable r := System.reachable_runFrom (.init ⟨_, _, rfl⟩) hrun
  have hup := h r hreached (Option.some.inj hquiet).ge
  obtain ⟨rules, hload, hrules⟩ := Option.map_eq_some_iff.mp hfile
  rw [Option.bind_some] at hload
  cases hcontent : r.sys.fs.rules with
  | none =>
      rw [hcontent] at hload
      cases hload
  | some file =>
      rw [hcontent] at hload
      obtain rfl := hup file rules hcontent hload
      exact absurd ((Option.some.inj hused).symm.trans hrules) (by decide)

end Ningshi
