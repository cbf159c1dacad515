import Ningshi.Daemon

/-!
# Replacements of the package list during a tick

A tick looks at the time of the package list, reads the list, and records the
time it has seen before the read.  The package manager may move a new list into
place between any two of these steps; it gives the list a time it has not had
before.  Requests are answered between ticks, other programs change the other
files, and the daemon may be started anew.

`ListRace.advance` takes the steps one by one; without a replacement they make
up the tick (`ends_tick`).  `uids_of_quiet` says that one successful tick that
began after the last replacement is enough for the uid map to be that of the
list, whatever happened before and between.
-/

namespace Ningshi

open Std FiniteMap Transition

/-! ## The steps of a tick -/

/-- What comes next in a tick. -/
inductive ListPhase where
  | idle
  /-- `reload_if_changed` -/
  | checking (env : Env)
  /-- `metadata` in `sync_packages` -/
  | looking (env : Env)
  /-- `resolve_uids` in `sync_packages`, and what follows from it -/
  | reading (env : Env) (mtime : Nat)
  /-- the tick after `sync_packages` -/
  | judging (env : Env)

structure ListRace where
  sys : Sys
  phase : ListPhase
  /-- the last tick to begin began after the last replacement -/
  current : Bool
  /-- ticks that began and succeeded since the last replacement -/
  quiet : Nat
  /-- the times the list has had -/
  times : List Nat

namespace ListRace

def goto (phase : ListPhase) (s : Sys) (r : ListRace) : ListRace :=
  { r with sys := s, phase := phase }

/-- The tick ends. -/
def finish (result : Outcome Sys) (r : ListRace) : ListRace :=
  { r with
    sys := result.state
    phase := .idle
    quiet := if result.isOk && r.current then r.quiet + 1 else r.quiet }

def start (env : Env) (r : ListRace) : ListRace :=
  { r with phase := .checking env, current := true }

/-- The next step of the tick that is going on. -/
def advance (r : ListRace) : ListRace :=
  match r.phase with
  | .idle => r
  | .checking env =>
      match reloadIfChanged env r.sys with
      | .err s => r.finish (.err s)
      | .ok s => r.goto (.looking env) s
  | .looking env =>
      match r.sys.fs.statPackages env with
      | none => r.goto (.judging env) r.sys
      | some mtime =>
          if r.sys.eng.lastPkgMtime = some mtime then r.goto (.judging env) r.sys
          else r.goto (.reading env mtime) r.sys
  -- the list is read as it is now, the time is the one seen before
  | .reading env mtime =>
      match r.sys.fs.resolveUids env .syncPackages with
      | none => r.finish (.err r.sys)
      | some uids =>
          r.goto (.judging env) { r.sys with
            eng := r.sys.eng.resync mtime uids (env.uidOrder.arrange uids.toList) }
  | .judging env => r.finish (tickVerdicts env r.sys)

end ListRace

inductive ListStep where
  | start (env : Env)
  | advance
  /-- a request is answered, or a kill is counted -/
  | request (op : Op)
  /-- the package manager moves a new list into place -/
  | replace (file : File String)
  /-- the other files are changed -/
  | others (fs : Fs)
  /-- the daemon is stopped and started again -/
  | restart (env : Env)

def Op.isTick : Op → Bool
  | .tick _ => true
  | _ => false

def ListRace.next (r : ListRace) : ListStep → Option ListRace
  | .start env =>
      match r.phase with
      | .idle => some (r.start env)
      | _ => none
  | .advance => some r.advance
  | .request op =>
      match r.phase with
      | .idle => if op.isTick then none else some { r with sys := op.perform r.sys }
      | _ => none
  | .replace file =>
      if file.mtime ∈ r.times then none
      else
        some { r with
          sys := { r.sys with fs.packages := some file }
          current := false
          quiet := 0
          times := file.mtime :: r.times }
  | .others fs =>
      some { r with sys := { r.sys with fs := { fs with packages := r.sys.fs.packages } } }
  | .restart env =>
      some { r with sys := Engine.new env r.sys.fs, phase := .idle, current := false, quiet := 0 }

/-- A daemon that has just been started. -/
def ListRace.fresh (env : Env) (fs : Fs) : ListRace where
  sys := Engine.new env fs
  phase := .idle
  current := false
  quiet := 0
  times := (fs.packages.map File.mtime).toList

def listRace : System ListRace ListStep :=
  .ofNext (fun r => ∃ env fs, r = .fresh env fs) ListRace.next

/-! ## Without a replacement the steps make up the tick -/

section Ends

variable (r : ListRace) (env : Env) (s : Sys)

/-- Left alone, the daemon ends the tick with this result. -/
def Ends (r : ListRace) (result : Outcome Sys) : Prop :=
  ∃ n, ListRace.advance^[n] r = r.finish result

theorem ends_of_advance {phase phase' : ListPhase} {s s' : Sys} {r : ListRace}
    {result : Outcome Sys} (h : (r.goto phase s).advance = r.goto phase' s')
    (hr : Ends (r.goto phase' s') result) : Ends (r.goto phase s) result := by
  obtain ⟨n, hn⟩ := hr
  exact ⟨n + 1, by rw [Function.iterate_succ_apply, h, hn]; rfl⟩

theorem ends_judging : Ends (r.goto (.judging env) s) (tickVerdicts env s) := ⟨1, rfl⟩

theorem ends_looking :
    Ends (r.goto (.looking env) s) ((syncPackages env s).bind (tickVerdicts env)) := by
  cases hstat : s.fs.statPackages env with
  | none =>
      have hadvance : (r.goto (.looking env) s).advance = r.goto (.judging env) s := by
        simp only [ListRace.advance, ListRace.goto, hstat]
      simp only [syncPackages, hstat]
      exact ends_of_advance hadvance (ends_judging r env s)
  | some mtime =>
      by_cases hsame : s.eng.lastPkgMtime = some mtime
      · have hadvance : (r.goto (.looking env) s).advance = r.goto (.judging env) s := by
          simp only [ListRace.advance, ListRace.goto, hstat]
          exact if_pos hsame
        simp only [syncPackages, hstat, if_pos hsame]
        exact ends_of_advance hadvance (ends_judging r env s)
      · have hadvance : (r.goto (.looking env) s).advance = r.goto (.reading env mtime) s := by
          simp only [ListRace.advance, ListRace.goto, hstat]
          exact if_neg hsame
        refine ends_of_advance hadvance ?_
        simp only [syncPackages, hstat, if_neg hsame]
        cases hres : s.fs.resolveUids env .syncPackages with
        | none =>
            refine ⟨1, ?_⟩
            simp only [Function.iterate_one, ListRace.advance, ListRace.goto, hres,
              Outcome.bind_err]
        | some uids =>
            have hread : (r.goto (.reading env mtime) s).advance = r.goto (.judging env) { s with
                eng := s.eng.resync mtime uids (env.uidOrder.arrange uids.toList) } := by
              simp only [ListRace.advance, ListRace.goto, hres]
            exact ends_of_advance hread (ends_judging r env _)

/-- **Uninterrupted, the steps make up the tick.** -/
theorem ends_tick : Ends (r.start env) (tick env r.sys) := by
  have htick : tick env r.sys = (reloadIfChanged env r.sys).bind fun s =>
      (syncPackages env s).bind (tickVerdicts env) := by
    rw [tick, refresh, Outcome.bind_assoc]
  have hstart : r.start env = (r.start env).goto (.checking env) r.sys := rfl
  rw [htick, hstart]
  cases hchanged : reloadIfChanged env r.sys with
  | err s =>
      refine ⟨1, ?_⟩
      simp only [Function.iterate_one, ListRace.advance, ListRace.goto, hchanged, Outcome.bind_err]
  | ok s =>
      have hadvance : ((r.start env).goto (.checking env) r.sys).advance =
          (r.start env).goto (.looking env) s := by
        simp only [ListRace.advance, ListRace.goto, hchanged]
      exact ends_of_advance hadvance (ends_looking _ env s)

end Ends

/-! ## Runs -/

/-- The user directories are always the same, and the list is found where a tick
looks for it. -/
def SeesList (dirs : List String) (_ : ListRace) : ListStep → Prop
  | .start env => env.userDirs = dirs ∧ env.fails .statPackages = false
  | .request (.reload env) => env.userDirs = dirs
  | .request (.apply env _) => env.userDirs = dirs
  | .request (.sync env) => env.userDirs = dirs
  | _ => True

instance (dirs : List String) (r : ListRace) : (step : ListStep) → Decidable (SeesList dirs r step)
  | .start env =>
      inferInstanceAs (Decidable (env.userDirs = dirs ∧ env.fails .statPackages = false))
  | .request (.reload env) => inferInstanceAs (Decidable (env.userDirs = dirs))
  | .request (.apply env _) => inferInstanceAs (Decidable (env.userDirs = dirs))
  | .request (.sync env) => inferInstanceAs (Decidable (env.userDirs = dirs))
  | .request (.tick _) => isTrue trivial
  | .request (.extension _ _ _) => isTrue trivial
  | .request (.killed _) => isTrue trivial
  | .advance => isTrue trivial
  | .replace _ => isTrue trivial
  | .others _ => isTrue trivial
  | .restart _ => isTrue trivial

/-- The package list stays, and a new uid map is taken from it. -/
structure TakesUids (dirs : List String) (s s' : Sys) : Prop where
  packages : s'.fs.packages = s.fs.packages
  /-- the time on record stays, or becomes that of the list together with the map -/
  taken : (s'.eng.lastPkgMtime = s.eng.lastPkgMtime ∧ s'.eng.uidOf = s.eng.uidOf) ∨
    ((s'.eng.lastPkgMtime = s.eng.lastPkgMtime ∨
        s'.eng.lastPkgMtime = s.fs.packages.map File.mtime) ∧
      resolveUids (s.fs.packages.map File.content) dirs = some s'.eng.uidOf)

theorem TakesUids.refl (dirs : List String) (s : Sys) : TakesUids dirs s s :=
  ⟨rfl, .inl ⟨rfl, rfl⟩⟩

theorem TakesUids.trans {dirs : List String} {s s' s'' : Sys} (h : TakesUids dirs s s')
    (h' : TakesUids dirs s' s'') : TakesUids dirs s s'' := by
  refine ⟨h'.packages.trans h.packages, ?_⟩
  have htaken' := h'.taken
  rw [h.packages] at htaken'
  rcases htaken' with ⟨hsame', huids'⟩ | ⟨hmtime', hread'⟩
  · rw [hsame', huids']
    exact h.taken
  · refine .inr ⟨?_, hread'⟩
    rcases hmtime' with hsame' | hlist
    · rw [hsame']
      exact h.taken.elim (fun hkept => .inl hkept.1) And.left
    · exact .inr hlist

theorem resolveUids_of_reads {env : Env} {call : FsCall} {fs : Fs} {uids : UidOf}
    (h : fs.resolveUids env call = some uids) :
    resolveUids (fs.packages.map File.content) env.userDirs = some uids := by
  unfold Fs.resolveUids at h
  split_ifs at h
  · cases h
  · exact h

/-- A reload reads the list once. -/
theorem takesUids_reload (env : Env) (s : Sys) :
    TakesUids env.userDirs s (reload env s).state := by
  obtain ⟨backup, hfs⟩ := reload_fs env s
  have hpkgMtime : (reload env s).state.eng.lastPkgMtime = s.eng.lastPkgMtime := by
    obtain ⟨_, _, _, _, _, _, heng⟩ := reload_frame env s
    rw [heng]
  refine ⟨by rw [hfs], ?_⟩
  rcases reload_uidOf env s with hsame | hread
  · exact .inl ⟨hpkgMtime, hsame⟩
  · exact .inr ⟨.inl hpkgMtime, resolveUids_of_reads hread⟩

theorem takesUids_reloadIfChanged (env : Env) (s : Sys) :
    TakesUids env.userDirs s (reloadIfChanged env s).state := by
  unfold reloadIfChanged
  split
  next => exact .refl _ s
  next =>
    split_ifs
    · exact .refl _ s
    · exact takesUids_reload env s

theorem takesUids_syncPackages (env : Env) (s : Sys) :
    TakesUids env.userDirs s (syncPackages env s).state := by
  rcases syncPackages_cases env s with h | ⟨mtime, uids, hpending, h⟩
  · rw [h]
    exact .refl _ s
  · rw [h, Engine.resync_eq]
    have hstat : s.fs.packages.map File.mtime = some mtime := by
      have hseen := hpending.stat
      unfold Fs.statPackages at hseen
      split_ifs at hseen
      exact hseen
    exact ⟨rfl, .inr ⟨.inr hstat.symm, resolveUids_of_reads hpending.resolved⟩⟩

theorem takesUids_tickVerdicts (dirs : List String) (env : Env) (s : Sys) :
    TakesUids dirs s (tickVerdicts env s).state := by
  obtain ⟨state, hfs⟩ := tickVerdicts_fs env s
  obtain ⟨prepared, hkeeps, _, _, _, _, _, _, h⟩ := tickVerdicts_frame env s
  refine ⟨by rw [hfs], .inl ⟨?_, ?_⟩⟩
  · rw [h]
    exact hkeeps.lastPkgMtime
  · rw [h]
    exact hkeeps.uidOf

theorem takesUids_tick (env : Env) (s : Sys) : TakesUids env.userDirs s (tick env s).state := by
  refine Outcome.bind_state (Outcome.bind_state (takesUids_reloadIfChanged env s) ?_) ?_
  · exact fun mid _ hmid => hmid.trans (takesUids_syncPackages env mid)
  · exact fun mid _ hmid => hmid.trans (takesUids_tickVerdicts env.userDirs env mid)

/-- What is answered between ticks. -/
theorem takesUids_request {dirs : List String} {r : ListRace} {op : Op}
    (hop : op.isTick = false) (hsees : SeesList dirs r (.request op)) (s : Sys) :
    TakesUids dirs s (op.perform s) := by
  cases op with
  | tick env => cases hop
  | reload env =>
      obtain rfl : env.userDirs = dirs := hsees
      exact takesUids_reload env s
  | apply env candidate =>
      obtain rfl : env.userDirs = dirs := hsees
      rcases applyRulesFile_cases env candidate s with hrefused | ⟨rules, -, hreload⟩
      · rw [Op.perform, Op.outcome, hrefused]
        exact .refl _ s
      · -- the rules file that is written first is not the list
        have htakes := takesUids_reload env (s.writeRules env rules)
        rw [Op.perform, Op.outcome, hreload]
        exact ⟨htakes.packages, htakes.taken⟩
  | extension env key minutes =>
      obtain ⟨eng, h, hkeeps⟩ := perform_extension env key minutes s
      rw [h]
      exact ⟨rfl, .inl ⟨hkeeps.lastPkgMtime, hkeeps.uidOf⟩⟩
  | sync env =>
      obtain rfl : env.userDirs = dirs := hsees
      exact takesUids_syncPackages env s
  | killed uid => exact ⟨rfl, .inl ⟨rfl, rfl⟩⟩

/-- The time on record is that of the list. -/
def OnRecord (s : Sys) : Prop :=
  ∀ file, s.fs.packages = some file → s.eng.lastPkgMtime = some file.mtime

/-- The uid map is that of the list. -/
def Mapped (dirs : List String) (s : Sys) : Prop :=
  ∀ file, s.fs.packages = some file →
    resolveUids (some file.content) dirs = some s.eng.uidOf

def ListPhase.env : ListPhase → Option Env
  | .idle => none
  | .checking env => some env
  | .looking env => some env
  | .reading env _ => some env
  | .judging env => some env

/-- What a run keeps. -/
structure Tracked (dirs : List String) (r : ListRace) : Prop where
  /-- times the list has had: its own, the one on record, and the one seen -/
  listTime : ∀ file, r.sys.fs.packages = some file → file.mtime ∈ r.times
  recordTime : ∀ mtime, r.sys.eng.lastPkgMtime = some mtime → mtime ∈ r.times
  seenTime : ∀ env mtime, r.phase = .reading env mtime → mtime ∈ r.times
  sees : ∀ env, r.phase.env = some env → env.userDirs = dirs ∧ env.fails .statPackages = false
  /-- a time on record vouches for the uid map -/
  recorded : (∃ file, r.sys.fs.packages = some file ∧
    r.sys.eng.lastPkgMtime = some file.mtime) → Mapped dirs r.sys
  /-- a tick that began after the last replacement has seen the list as it is -/
  seen : r.current = true → ∀ env mtime, r.phase = .reading env mtime →
    r.sys.fs.packages.map File.mtime = some mtime
  caught : (1 ≤ r.quiet ∨ (r.current = true ∧ ∃ env, r.phase = .judging env)) → OnRecord r.sys
  ongoing : 1 ≤ r.quiet → r.current = true

section Keep

variable {dirs : List String} {r : ListRace} {s s' : Sys}

theorem TakesUids.onRecord (h : TakesUids dirs s s') (hs : OnRecord s) : OnRecord s' := by
  intro file hfile
  rw [h.packages] at hfile
  rcases h.taken with ⟨hsame, -⟩ | ⟨hsame | htaken, -⟩
  · rw [hsame]
    exact hs file hfile
  · rw [hsame]
    exact hs file hfile
  · rw [htaken, hfile, Option.map_some]

theorem TakesUids.mapped (h : TakesUids dirs s s')
    (hs : (∃ file, s.fs.packages = some file ∧ s.eng.lastPkgMtime = some file.mtime) →
      Mapped dirs s)
    (hs' : ∃ file, s'.fs.packages = some file ∧ s'.eng.lastPkgMtime = some file.mtime) :
    Mapped dirs s' := by
  obtain ⟨file, hfile, hmtime⟩ := hs'
  rw [h.packages] at hfile
  intro file' hfile'
  rw [h.packages] at hfile'
  rcases h.taken with ⟨hsame, huids⟩ | ⟨-, huids⟩
  · rw [huids]
    exact hs ⟨file, hfile, hsame ▸ hmtime⟩ file' hfile'
  · rw [← huids, hfile', Option.map_some]

theorem TakesUids.recordTime {times : List Nat} (h : TakesUids dirs s s')
    (hlist : ∀ file, s.fs.packages = some file → file.mtime ∈ times)
    (hs : ∀ mtime, s.eng.lastPkgMtime = some mtime → mtime ∈ times) :
    ∀ mtime, s'.eng.lastPkgMtime = some mtime → mtime ∈ times := by
  intro mtime hmtime
  rcases h.taken with ⟨hsame, -⟩ | ⟨hsame | htaken, -⟩
  · exact hs mtime (hsame ▸ hmtime)
  · exact hs mtime (hsame ▸ hmtime)
  · rw [htaken] at hmtime
    obtain ⟨file, hfile, rfl⟩ := Option.map_eq_some_iff.mp hmtime
    exact hlist file hfile

/-- A step on the way through a tick. -/
theorem Tracked.goto (hr : Tracked dirs r) {phase : ListPhase} (htakes : TakesUids dirs r.sys s)
    (hsees : phase.env = r.phase.env)
    (hseen : ∀ env mtime, phase = .reading env mtime →
      r.sys.fs.packages.map File.mtime = some mtime)
    (hcaught : r.current = true → (∃ env, phase = .judging env) → OnRecord s) :
    Tracked dirs (r.goto phase s) where
  listTime file hfile := hr.listTime file (htakes.packages ▸ hfile)
  recordTime := htakes.recordTime hr.listTime hr.recordTime
  seenTime env mtime hphase := by
    obtain ⟨file, hfile, rfl⟩ := Option.map_eq_some_iff.mp (hseen env mtime hphase)
    exact hr.listTime file hfile
  sees env henv := hr.sees env (hsees ▸ henv)
  recorded := htakes.mapped hr.recorded
  seen _ env mtime hphase := by
    rw [← hseen env mtime hphase]
    exact congrArg (Option.map File.mtime) htakes.packages
  caught h := by
    rcases h with hquiet | ⟨hcurrent, hjudging⟩
    · exact htakes.onRecord (hr.caught (.inl hquiet))
    · exact hcaught hcurrent hjudging
  ongoing := hr.ongoing

/-- The end of a tick. -/
theorem Tracked.finish (hr : Tracked dirs r) {result : Outcome Sys}
    (htakes : TakesUids dirs r.sys result.state)
    (hok : result.isOk = true → r.current = true → OnRecord r.sys) :
    Tracked dirs (r.finish result) where
  listTime file hfile := hr.listTime file (htakes.packages ▸ hfile)
  recordTime := htakes.recordTime hr.listTime hr.recordTime
  seenTime env mtime hphase := by cases hphase
  sees env henv := by cases henv
  recorded := htakes.mapped hr.recorded
  seen _ env mtime hphase := by cases hphase
  caught h := by
    rcases h with hquiet | ⟨-, env, hphase⟩
    · refine htakes.onRecord ?_
      by_cases hdone : result.isOk && r.current
      · rw [Bool.and_eq_true] at hdone
        exact hok hdone.1 hdone.2
      · refine hr.caught (.inl ?_)
        simpa only [ListRace.finish, if_neg hdone] using hquiet
    · cases hphase
  ongoing hquiet := by
    by_cases hdone : result.isOk && r.current
    · exact (Bool.and_eq_true _ _ ▸ hdone).2
    · refine hr.ongoing ?_
      simpa only [ListRace.finish, if_neg hdone] using hquiet

/-- **One step of a tick.** -/
theorem Tracked.advance (hr : Tracked dirs r) : Tracked dirs r.advance := by
  cases hphase : r.phase with
  | idle =>
      simp only [ListRace.advance, hphase]
      exact hr
  | checking env =>
      obtain ⟨rfl, -⟩ := hr.sees env (by rw [hphase]; rfl)
      have htakes := takesUids_reloadIfChanged env r.sys
      simp only [ListRace.advance, hphase]
      cases hchanged : reloadIfChanged env r.sys with
      | err s =>
          rw [hchanged] at htakes
          exact hr.finish htakes fun hok => by cases hok
      | ok s =>
          rw [hchanged] at htakes
          refine hr.goto htakes (by rw [hphase]; rfl) (fun _ _ h => by cases h) ?_
          rintro - ⟨env', h⟩
          cases h
  | looking env =>
      obtain ⟨-, hfound⟩ := hr.sees env (by rw [hphase]; rfl)
      have hstat : r.sys.fs.statPackages env = r.sys.fs.packages.map File.mtime := by
        rw [Fs.statPackages, hfound, if_neg Bool.false_ne_true]
      simp only [ListRace.advance, hphase, hstat]
      cases hlist : r.sys.fs.packages with
      | none =>
          refine hr.goto (.refl dirs r.sys) (by rw [hphase]; rfl) (fun _ _ h => by cases h) ?_
          rintro - - file hfile
          rw [hlist] at hfile
          cases hfile
      | some file =>
          rw [Option.map_some]
          dsimp only
          split_ifs with hsame
          · refine hr.goto (.refl dirs r.sys) (by rw [hphase]; rfl) (fun _ _ h => by cases h) ?_
            rintro - - file' hfile'
            obtain rfl := Option.some.inj (hlist.symm.trans hfile')
            exact hsame
          · refine hr.goto (.refl dirs r.sys) (by rw [hphase]; rfl) ?_ ?_
            · intro env' mtime h
              obtain ⟨rfl, rfl⟩ := ListPhase.reading.inj h
              rw [hlist, Option.map_some]
            · rintro - ⟨env', h⟩
              cases h
  | reading env mtime =>
      obtain ⟨rfl, -⟩ := hr.sees env (by rw [hphase]; rfl)
      simp only [ListRace.advance, hphase]
      cases hres : r.sys.fs.resolveUids env .syncPackages with
      | none => exact hr.finish (.refl _ r.sys) fun hok => by cases hok
      | some uids =>
          -- the map is that of the list as it is now, whatever time goes on record
          have hmapped := resolveUids_of_reads hres
          dsimp only
          rw [Engine.resync_eq]
          have honRecord (hcurrent : r.current = true) (file : File String)
              (hfile : r.sys.fs.packages = some file) : some mtime = some file.mtime := by
            rw [← hr.seen hcurrent env mtime hphase, hfile, Option.map_some]
          exact
            { listTime := hr.listTime
              recordTime := fun m hm => by
                obtain rfl := Option.some.inj hm
                exact hr.seenTime env mtime hphase
              seenTime := fun env' m h => by cases h
              sees := fun env' h => hr.sees env' (by rw [hphase]; exact h)
              recorded := fun _ file hfile => by
                have hlist : r.sys.fs.packages = some file := hfile
                rw [hlist, Option.map_some] at hmapped
                exact hmapped
              seen := fun _ env' m h => by cases h
              caught := fun h file hfile =>
                honRecord (h.elim hr.ongoing And.left) file hfile
              ongoing := hr.ongoing }
  | judging env =>
      simp only [ListRace.advance, hphase]
      exact hr.finish (takesUids_tickVerdicts dirs env r.sys) fun _ hcurrent =>
        hr.caught (.inr ⟨hcurrent, env, hphase⟩)

end Keep

/-- A sync that goes through has the time of the list on record. -/
theorem onRecord_of_syncPackages {env : Env} {s s' : Sys} (hfound : env.fails .statPackages = false)
    (hsync : syncPackages env s = .ok s') : OnRecord s' := by
  have hfs := (keepsRules_syncPackages env s).fs
  rw [hsync, Outcome.state_ok] at hfs
  intro file hfile
  rw [hfs] at hfile
  have hstat : s.fs.statPackages env = some file.mtime := by
    rw [Fs.statPackages, hfound, if_neg Bool.false_ne_true, hfile, Option.map_some]
  simp only [syncPackages, hstat] at hsync
  split_ifs at hsync with hsame
  · obtain rfl := Outcome.ok.inj hsync
    exact hsame
  · split at hsync
    next => cases hsync
    next uids _ =>
      obtain rfl := Outcome.ok.inj hsync
      rw [Engine.resync_eq]

theorem onRecord_of_tick {env : Env} {s : Sys} (hfound : env.fails .statPackages = false)
    (hok : (tick env s).isOk = true) : OnRecord (tick env s).state := by
  obtain ⟨mid, hmid, hverdicts⟩ := Outcome.bind_eq_ok_iff.mp (Outcome.eq_ok_of_isOk hok)
  obtain ⟨changed, -, hsync⟩ := Outcome.bind_eq_ok_iff.mp hmid
  have htakes := takesUids_tickVerdicts env.userDirs env mid
  rw [hverdicts] at htakes
  exact htakes.onRecord (onRecord_of_syncPackages hfound hsync)

theorem new_lastPkgMtime (env : Env) (fs : Fs) : (Engine.new env fs).eng.lastPkgMtime = none := by
  obtain ⟨rules, source, heng⟩ :=
    loadRules_frame env ⟨{ Engine.blank .start with started := env.epoch }, fs⟩
  simp only [Engine.new, Engine.loadState, heng, Engine.restore]
  split
  next => rfl
  next => split_ifs <;> rfl

theorem new_packages (env : Env) (fs : Fs) : (Engine.new env fs).fs.packages = fs.packages := by
  obtain ⟨backup, hfs⟩ :=
    loadRules_fs env ⟨{ Engine.blank .start with started := env.epoch }, fs⟩
  simp only [Engine.new, hfs]

/-- A daemon that has just been started has nothing on record. -/
theorem tracked_new {dirs : List String} {env : Env} {fs : Fs} {times : List Nat}
    (htimes : ∀ file, fs.packages = some file → file.mtime ∈ times) :
    Tracked dirs ⟨Engine.new env fs, .idle, false, 0, times⟩ where
  listTime file hfile := htimes file (new_packages env fs ▸ hfile)
  recordTime mtime h := by
    rw [new_lastPkgMtime] at h
    cases h
  seenTime env' mtime h := by cases h
  sees env' h := by cases h
  recorded := by
    rintro ⟨file, -, h⟩
    rw [new_lastPkgMtime] at h
    cases h
  seen h := by cases h
  caught h := by
    rcases h with h | ⟨h, -⟩
    · exact absurd h (Nat.not_succ_le_zero 0)
    · cases h
  ongoing h := absurd h (Nat.not_succ_le_zero 0)

/-- **Every step keeps it.** -/
theorem Tracked.next {dirs : List String} {r r' : ListRace} {step : ListStep}
    (hr : Tracked dirs r) (hsees : SeesList dirs r step) (hnext : r.next step = some r') :
    Tracked dirs r' := by
  cases step with
  | start env =>
      rw [ListRace.next] at hnext
      split at hnext
      next hphase =>
        obtain rfl := Option.some.inj hnext
        exact
          { hr with
            seenTime := fun env' m h => by cases h
            sees := fun env' h => by
              obtain rfl := Option.some.inj h
              exact hsees
            seen := fun _ env' m h => by cases h
            caught := fun h => by
              rcases h with hquiet | ⟨-, env', h⟩
              · exact hr.caught (.inl hquiet)
              · cases h
            ongoing := fun _ => rfl }
      next => cases hnext
  | advance =>
      obtain rfl := Option.some.inj hnext
      exact hr.advance
  | request op =>
      rw [ListRace.next] at hnext
      split at hnext
      next hphase =>
        split_ifs at hnext with htick
        obtain rfl := Option.some.inj hnext
        have htakes := takesUids_request (by simpa using htick) hsees r.sys
        have hkept : Tracked dirs (r.goto r.phase (op.perform r.sys)) := by
          refine hr.goto htakes rfl (fun env m h => ?_) ?_
          · cases hphase.symm.trans h
          · rintro - ⟨env, h⟩
            cases hphase.symm.trans h
        exact hkept
      next => cases hnext
  | replace file =>
      rw [ListRace.next] at hnext
      split_ifs at hnext with hfresh
      obtain rfl := Option.some.inj hnext
      exact
        { listTime := fun file' h => by
            obtain rfl := Option.some.inj h
            exact List.mem_cons_self
          recordTime := fun m h => List.mem_cons_of_mem _ (hr.recordTime m h)
          seenTime := fun env m h => List.mem_cons_of_mem _ (hr.seenTime env m h)
          sees := hr.sees
          recorded := by
            -- the new time is not the one on record
            rintro ⟨file', hfile', hmtime⟩
            obtain rfl := Option.some.inj hfile'
            exact absurd (hr.recordTime _ hmtime) hfresh
          seen := fun h => by cases h
          caught := fun h => by
            rcases h with h | ⟨h, -⟩
            · exact absurd h (Nat.not_succ_le_zero 0)
            · cases h
          ongoing := fun h => absurd h (Nat.not_succ_le_zero 0) }
  | others fs =>
      obtain rfl := Option.some.inj hnext
      exact ⟨hr.listTime, hr.recordTime, hr.seenTime, hr.sees, hr.recorded, hr.seen, hr.caught,
        hr.ongoing⟩
  | restart env =>
      obtain rfl := Option.some.inj hnext
      exact tracked_new hr.listTime

/-- **No replacement of the package list is missed.**  However replacements fall
between the steps of ticks, requests and restarts: as soon as one tick that began
after the last of them has succeeded, the uid map is that of the list, and its
time is on record. -/
theorem uids_of_quiet {dirs : List String} {r : ListRace}
    (hr : listRace.ReachableWhen (SeesList dirs) r) (hquiet : 1 ≤ r.quiet) :
    ∀ file, r.sys.fs.packages = some file →
      resolveUids (some file.content) dirs = some r.sys.eng.uidOf ∧
        r.sys.eng.lastPkgMtime = some file.mtime := by
  have htracked : Tracked dirs r := by
    refine System.ReachableWhen.invariant (?_ : ∀ r, listRace.init r → Tracked dirs r)
      (fun r step r' hr hsees hnext => hr.next hsees hnext) hr
    rintro r ⟨env, fs, rfl⟩
    refine tracked_new fun file hfile => ?_
    rw [hfile]
    simp
  intro file hfile
  have hrecord := htracked.caught (.inl hquiet) file hfile
  exact ⟨htracked.recorded ⟨file, hfile, hrecord⟩ file hfile, hrecord⟩

/-- The list is replaced after a tick has looked at its time and before the tick
reads it; another tick follows. -/
def replacedBeforeRead : Option ListRace :=
  runWhen ListRace.next (SeesList []) [.start (.quiet 100), .advance, .advance,
      .replace ⟨"com.game 10002", 2⟩, .advance, .advance, .start (.quiet 110), .advance, .advance,
      .advance, .advance]
    (.fresh (.quiet 100) ⟨none, none, none, some ⟨"com.game 10001", 1⟩⟩)

theorem uids_of_quiet_replacedBeforeRead :
    ∃ r, replacedBeforeRead = some r ∧ ∀ file, r.sys.fs.packages = some file →
      resolveUids (some file.content) [] = some r.sys.eng.uidOf ∧
        r.sys.eng.lastPkgMtime = some file.mtime := by
  have hsome : replacedBeforeRead.isSome = true := by decide +kernel
  have hquiet : replacedBeforeRead.map ListRace.quiet = some 1 := by decide +kernel
  obtain ⟨r, hrun⟩ := Option.isSome_iff_exists.mp hsome
  rw [hrun] at hquiet
  have hreached : listRace.ReachableWhen (SeesList []) r :=
    System.reachableWhen_runWhen (.init ⟨_, _, rfl⟩) hrun
  exact ⟨r, hrun, uids_of_quiet hreached (Option.some.inj hquiet).ge⟩

end Ningshi
