import Ningshi.SchemaVersion

/-!
# What the answer of an apply says

An apply writes the sanitized candidate over `rules.json` and reloads.  That
the reload has read the file back is inferred from the source of the rules
afterwards.  A reload that cannot read the file keeps rules that came from it
earlier, with their source, so the answer can be a success with the old rules
in force; `truthful_iff` says exactly when it is not.
-/

namespace Ningshi

open FiniteMap JsonDoc Transition

/-- An apply that succeeds has put the candidate in force and in the file; a
candidate that cannot be read or parsed, or is of a newer version, changes
nothing. -/
structure Truthful (env : Env) (candidate : Option Text) (s : Sys) : Prop where
  applied : ∀ s', applyRulesFile env candidate s = .ok s' →
    Rules.load candidate = some s'.eng.rules ∧
      Rules.load (s'.fs.rules.map File.content) = some s'.eng.rules
  refused : (∀ rules, candidate.bind Rules.fromStr = some rules →
    rulesVersionMax < rules.version) → applyRulesFile env candidate s = .err s

/-- Where the rules in force came from the live file, the written file can be
read back, or it has the same rules; unless the reload fails in any case. -/
def ReadsBack (env : Env) (candidate : Option Text) (s : Sys) : Prop :=
  ∀ rules, Accepts env candidate rules → s.eng.rulesSource = .file →
    env.fails .reloadRules = true → (s.fs.resolveUids env .reloadPackages).isSome →
      s.eng.rules = rules.sanitize

section

variable {env : Env} {candidate : Option Text} {rules : Rules} {s s' : Sys}

theorem Accepts.load (h : Accepts env candidate rules) :
    Rules.load candidate = some rules.sanitize := by
  rw [Rules.load, h.parsed, Option.map_some]

/-- What reading the written file returns. -/
theorem readRules_writeRules (env : Env) (rules : Rules) (s : Sys) (call : FsCall) :
    Rules.load ((s.writeRules env rules).fs.readRules env call) =
      if env.fails call then none else some rules.sanitize := by
  have hread : (s.writeRules env rules).fs.readRules env call =
      if env.fails call then none else some (.json rules.sanitize.toJson) := rfl
  rw [hread]
  split_ifs
  · rfl
  · exact Rules.load_written rules

/-- **The rules after the write.**  They are the written ones with the live
file as their source; or the file could not be read back, and they are the old
ones, or have another source. -/
theorem reloadRules_writeRules (env : Env) (rules : Rules) (s : Sys) :
    ((reloadRules env (s.writeRules env rules)).eng.rulesSource = .file ∧
      (reloadRules env (s.writeRules env rules)).eng.rules = rules.sanitize) ∨
    (env.fails .reloadRules = true ∧ s.eng.rulesSource = .file ∧
      reloadRules env (s.writeRules env rules) = s.writeRules env rules) ∨
    (reloadRules env (s.writeRules env rules)).eng.rulesSource ≠ .file := by
  by_cases hfirst : env.fails .reloadRules = true
  · have hunusable := (readRules_writeRules env rules s .reloadRules).trans (if_pos hfirst)
    rw [reloadRules_of_unusable hunusable]
    by_cases hsource : (s.writeRules env rules).eng.rulesSource = .file
    · exact .inr (.inl ⟨hfirst, hsource, if_pos hsource⟩)
    rw [if_neg hsource]
    -- the second read decides
    by_cases hsecond : env.fails .loadRules = true
    · have hunusable := (readRules_writeRules env rules s .loadRules).trans (if_pos hsecond)
      obtain ⟨_, source, hne, hfall⟩ :=
        Engine.fallBack_frame ((s.writeRules env rules).fs.readBackup env)
      rw [loadRules_of_unusable hunusable, hfall]
      exact .inr (.inr hne)
    · have hloads := (readRules_writeRules env rules s .loadRules).trans (if_neg hsecond)
      rw [loadRules_of_loads hloads]
      exact .inl ⟨rfl, rfl⟩
  · have hloads := (readRules_writeRules env rules s .reloadRules).trans (if_neg hfirst)
    rw [reloadRules_of_loads hloads]
    exact .inl ⟨rfl, rfl⟩

/-- The reload at the end succeeds when the package list can be read. -/
theorem reload_isOk_iff (env : Env) (s : Sys) :
    (reload env s).isOk = true ↔ (s.fs.resolveUids env .reloadPackages).isSome := by
  rw [← resolveUids_reloadRules env env s]
  cases hres : (reloadRules env s).fs.resolveUids env .reloadPackages with
  | none => rw [reload_of_unresolved hres]; rfl
  | some uidOf => rw [reload_of_resolved hres]; exact iff_of_true rfl rfl

/-- **When an apply succeeds**, and with which state. -/
theorem applyRulesFile_eq_ok_iff (h : Accepts env candidate rules) :
    applyRulesFile env candidate s = .ok s' ↔
      (s.fs.resolveUids env .reloadPackages).isSome ∧
        (reloadRules env (s.writeRules env rules)).eng.rulesSource = .file ∧
        s' = (reload env (s.writeRules env rules)).state := by
  obtain ⟨-, hsource, -⟩ := reload_loaded env (s.writeRules env rules)
  rw [applyRulesFile_of_accepts h, ← hsource,
    show s.fs.resolveUids env .reloadPackages =
      (s.writeRules env rules).fs.resolveUids env .reloadPackages from rfl,
    ← reload_isOk_iff]
  cases reload env (s.writeRules env rules) with
  | err mid => simp
  | ok mid =>
      by_cases hfile : mid.eng.rulesSource = .file
      · simp [checkSource, hfile, eq_comm]
      · simp [checkSource, hfile]

/-- The rules file is the written one when an apply ends. -/
theorem rulesFile_reload (env : Env) (s : Sys) : (reload env s).state.fs.rules = s.fs.rules := by
  obtain ⟨backup, hfs⟩ := reload_fs env s
  rw [hfs]

end

/-- **Exactly when an apply tells the truth.** -/
theorem truthful_iff (env : Env) (candidate : Option Text) (s : Sys) :
    Truthful env candidate s ↔ ReadsBack env candidate s := by
  constructor
  · intro htruth rules haccepts hsource hfails hres
    -- here the old rules are kept, and the apply succeeds
    have hunusable := (readRules_writeRules env rules s .reloadRules).trans (if_pos hfails)
    have hkept : reloadRules env (s.writeRules env rules) = s.writeRules env rules := by
      rw [reloadRules_of_unusable hunusable]
      exact if_pos hsource
    have hok := (applyRulesFile_eq_ok_iff haccepts).mpr ⟨hres, by rw [hkept]; exact hsource, rfl⟩
    have hloaded := (htruth.applied _ hok).1
    rw [haccepts.load, (reload_loaded env _).1, hkept] at hloaded
    exact (Option.some.inj hloaded).symm
  · intro hreads
    refine ⟨fun s' hok => ?_, fun hrefused => ?_⟩
    · obtain ⟨rules, haccepts⟩ : ∃ rules, Accepts env candidate rules := by
        by_contra hnone
        rw [applyRulesFile_of_refused (not_exists.mp hnone)] at hok
        cases hok
      obtain ⟨hres, hsource, rfl⟩ := (applyRulesFile_eq_ok_iff haccepts).mp hok
      have hrules : (reload env (s.writeRules env rules)).state.eng.rules = rules.sanitize := by
        rw [(reload_loaded env _).1]
        rcases reloadRules_writeRules env rules s with ⟨-, h⟩ | ⟨hfails, hfile, h⟩ | h
        · exact h
        · rw [h]
          exact hreads rules haccepts hfile hfails hres
        · exact absurd hsource h
      rw [hrules, rulesFile_reload]
      exact ⟨haccepts.load, Rules.load_written rules⟩
    · exact applyRulesFile_of_refused
        (fun rules haccepts =>
          absurd (hrefused rules haccepts.parsed) (UInt32.not_lt.mpr haccepts.known)) s

/-- A daemon that runs on rules for one app. -/
def runningOnFile : Sys :=
  Engine.new (.quiet 100) ⟨some ⟨.json (Rules.blocking "0:com.old").toJson, 1⟩, none, none,
    some ⟨"com.old 10001\ncom.new 10002", 1⟩⟩

/-- The live file cannot be read back after it has been replaced. -/
def readBackFails : Env := { Env.quiet 200 with fails := fun call => call = .reloadRules }

/-- The apply of rules for another app succeeds with the old rules in force. -/
theorem not_truthful : ¬ ∀ env candidate s, Truthful env candidate s := by
  intro h
  have hok : (applyRulesFile readBackFails (some (.json (Rules.blocking "0:com.new").toJson))
      runningOnFile).isOk = true := by decide +kernel
  have happlied := ((h _ _ _).applied _ (Outcome.eq_ok_of_isOk hok)).1
  revert happlied
  decide +kernel

end Ningshi
