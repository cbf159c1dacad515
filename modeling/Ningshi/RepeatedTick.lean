import Ningshi.Engine.Cooldowns
import Ningshi.Engine.Refresh
import Ningshi.KillAgreement
import Ningshi.ReloadRetry

/-!
# A tick that is repeated

A second tick with the same inputs finds everything settled: the rules and
packages are those it would read, no time has passed, every cooldown job leaves
its timer alone, and the blocked uids are those the verdicts want.  Each step
of the tick has its own lemma here, and `tick_again` puts them together: the
second tick succeeds, calls the gate for no uid, kills nothing and changes
nothing but the time of the last save and the interval.
-/

namespace Ningshi

open Std FiniteMap JsonDoc Transition

/-- The same clock reading, answers and processes.  The orders in which maps
are listed, the kernel's answers and the clock at the end of the tick are
free, and so is the fate of what the tick writes. -/
structure SameInputs (env env' : Env) : Prop where
  epoch : env'.epoch = env.epoch
  reads : ∀ call, call ≠ .copyBackup → call ≠ .writeState → env'.fails call = env.fails call
  userDirs : env'.userDirs = env.userDirs
  imeLine : env'.imeLine = env.imeLine
  homeLine : env'.homeLine = env.homeLine
  procs : env'.procs = env.procs

/-! ## The calls of a tick -/

/-- The updates of the gate the loop over the wanted state asks for. -/
def transitionCalls (env : Env) : List (Uid × Bool) → Engine → List (Uid × Bool)
  | [], _ => []
  | entry :: rest, eng =>
      let here := if entry.2 != eng.blocked.contains entry.1 then [entry] else []
      match eng.transition env entry with
      | .ok eng => here ++ transitionCalls env rest eng
      | .err _ => here

/-- Those of the loop over the blocked uids. -/
def releaseCalls (env : Env) (wanted : UidMap Bool) : List Uid → Engine → List (Uid × Bool)
  | [], _ => []
  | uid :: rest, eng =>
      let here := if wanted.contains uid then [] else [(uid, false)]
      match eng.release env wanted uid with
      | .ok eng => here ++ releaseCalls env wanted rest eng
      | .err _ => here

/-- The calls of a tick that has come to these verdicts. -/
def Engine.enforceCalls (env : Env) (vs : List Verdict) (eng : Engine) : List (Uid × Bool) :=
  let listing := env.wantOrder.arrange (want vs).toList
  let eng := { eng with gate := eng.gate.setBlockIndex (blockedNames vs) }
  transitionCalls env listing eng ++
    match Outcome.forEach (Engine.transition env) listing eng with
    | .ok eng => releaseCalls env (want vs) eng.blocked.toList eng
    | .err _ => []

/-- The `set_blocked` calls of a tick, the refused ones included. -/
def tickCalls (env : Env) (s : Sys) : List (Uid × Bool) :=
  match refresh env s with
  | .ok mid => (mid.eng.prepare env).enforceCalls env ((mid.eng.prepare env).judge env)
  | .err _ => []

/-- What the second tick does when nothing changes. -/
structure ChangesNothing (env : Env) (s s' : Sys) : Prop where
  calls : tickCalls env s = []
  kills : tickKills env s = []
  kept : ∃ lastInterval lastSave, s'.eng =
    { s.eng with lastInterval := lastInterval, lastSave := lastSave }

/-! ## The refresh -/

/-- The same rules, and the same derived from them. -/
structure SameRules (eng eng' : Engine) : Prop where
  rules : eng'.rules = eng.rules
  rulesSource : eng'.rulesSource = eng.rulesSource
  tzSecs : eng'.tzSecs = eng.tzSecs
  protectedPkgs : eng'.protectedPkgs = eng.protectedPkgs
  lastMtime : eng'.lastMtime = eng.lastMtime

/-- The same in everything the refresh looks at. -/
structure SameConfig (eng eng' : Engine) : Prop extends SameRules eng eng' where
  uidOf : eng'.uidOf = eng.uidOf
  lastPkgMtime : eng'.lastPkgMtime = eng.lastPkgMtime

section Refresh

variable {env env' : Env} {s mid s' : Sys}

theorem SameInputs.sameReads (h : SameInputs env env') : SameReads env' env :=
  ⟨(h.reads _ (by decide) (by decide)).symm, (h.reads _ (by decide) (by decide)).symm,
    (h.reads _ (by decide) (by decide)).symm⟩

theorem SameInputs.statRules (h : SameInputs env env') {fs fs' : Fs} (hfs : fs'.rules = fs.rules)
    {call : FsCall} (hcopy : call ≠ .copyBackup) (hwrite : call ≠ .writeState) :
    fs'.statRules env' call = fs.statRules env call := by
  rw [Fs.statRules, Fs.statRules, h.reads call hcopy hwrite, hfs]

theorem SameInputs.statPackages (h : SameInputs env env') {fs fs' : Fs}
    (hfs : fs'.packages = fs.packages) : fs'.statPackages env' = fs.statPackages env := by
  rw [Fs.statPackages, Fs.statPackages, h.reads _ (by decide) (by decide), hfs]

theorem SameInputs.resolveUids (h : SameInputs env env') {fs fs' : Fs}
    (hfs : fs'.packages = fs.packages) {call : FsCall} (hcopy : call ≠ .copyBackup)
    (hwrite : call ≠ .writeState) : fs'.resolveUids env' call = fs.resolveUids env call := by
  rw [Fs.resolveUids, Fs.resolveUids, h.reads call hcopy hwrite, hfs, h.userDirs]

theorem SameInputs.resolveProtected (h : SameInputs env env') :
    Ningshi.resolveProtected env' = Ningshi.resolveProtected env := by
  rw [Ningshi.resolveProtected, Ningshi.resolveProtected, h.imeLine, h.homeLine]

/-- The state file does not matter for the rules. -/
theorem reloadRules_state (env : Env) (s : Sys) (state : Option Text) :
    (reloadRules env { s with fs := { s.fs with state := state } }).eng =
      (reloadRules env s).eng := by
  have hload (call : FsCall) : Rules.load (Fs.readRules { s.fs with state := state } env call) =
      Rules.load (s.fs.readRules env call) := rfl
  simp only [reloadRules, loadRules, Engine.loadFrom, hload]
  cases Rules.load (s.fs.readRules env .reloadRules) with
  | some rules => rfl
  | none =>
      dsimp only [Option.map_none]
      split_ifs
      · rfl
      · cases Rules.load (s.fs.readRules env .loadRules) <;> rfl

/-- **A reload that finds the rules and the uid map as they are** changes no
field of the engine. -/
theorem reload_of_settled {uids : UidOf} (hsettled : RulesSettled env s)
    (hresolved : s.fs.resolveUids env .reloadPackages = some uids) (huidOf : s.eng.uidOf = uids)
    (htz : s.eng.tzSecs = parseTz s.eng.rules.settings.timezone)
    (hprotected : s.eng.protectedPkgs = resolveProtected env)
    (hmtime : s.fs.statRules env .restatRules = none) :
    ∃ backup, reload env s = .ok ⟨s.eng, { s.fs with backup := backup }⟩ := by
  obtain ⟨backup, hfs⟩ := reloadRules_fs env s
  have hres := (resolveUids_reloadRules env env s .reloadPackages).trans hresolved
  have hsame : (s.eng.deriveSettings env).rules = s.eng.rules := rfl
  have hstat : Fs.statRules { s.fs with backup := backup } env .restatRules = none := hmtime
  refine ⟨backup, ?_⟩
  rw [reload_of_resolved hres, hsettled, Engine.finishReload_of_same hsame, hfs, hstat,
    Engine.deriveSettings, ← htz, ← hprotected, ← huidOf]
  rfl

/-- Reloaded rules are settled, whatever becomes of the state file. -/
theorem settled_of_reload (h : SameInputs env env') (hreload : reload env s = .ok mid)
    (hrules : s'.eng.rules = mid.eng.rules) (hsource : s'.eng.rulesSource = mid.eng.rulesSource)
    {state : Option Text} (hfs : s'.fs = { mid.fs with state := state }) :
    RulesSettled env' s' := by
  obtain ⟨hloaded, hloadedSource, hloadedFs⟩ := reload_loaded env s
  rw [hreload, Outcome.state_ok] at hloaded hloadedSource hloadedFs
  have hsettled : RulesSettled env' ⟨s'.eng, mid.fs⟩ :=
    rulesSettled_of_reloadRules h.sameReads (hrules.trans hloaded)
      (hsource.trans hloadedSource) hloadedFs
  have hsame := reloadRules_state env' ⟨s'.eng, mid.fs⟩ state
  rw [← hfs] at hsame
  exact hsame.trans hsettled

/-- The second tick reloads nothing, or what it has. -/
theorem reloadIfChanged_again (h : SameInputs env env') (hfirst : reloadIfChanged env s = .ok mid)
    (hsame : SameRules mid.eng s'.eng)
    (huidOf : s'.eng.uidOf = mid.eng.uidOf ∨
      ∃ call, s.fs.resolveUids env call = some s'.eng.uidOf)
    {state : Option Text} (hfs : s'.fs = { mid.fs with state := state }) :
    ∃ backup, reloadIfChanged env' s' = .ok ⟨s'.eng, { s'.fs with backup := backup }⟩ := by
  obtain ⟨before, hbefore⟩ := reloadIfChanged_fs env s
  rw [hfirst, Outcome.state_ok] at hbefore
  have hstat (call : FsCall) (hcopy : call ≠ .copyBackup) (hwrite : call ≠ .writeState) :
      s'.fs.statRules env' call = s.fs.statRules env call :=
    h.statRules (by rw [hfs, hbefore]) hcopy hwrite
  rcases reloadIfChanged_cases env' s' with ⟨hquiet, -⟩ | ⟨mtime, hread, hchanged, heq⟩
  · exact ⟨s'.fs.backup, hquiet⟩
  rw [hstat _ (by decide) (by decide)] at hread
  rw [hsame.lastMtime] at hchanged
  rcases reloadIfChanged_cases env s with ⟨hquiet, hrecorded⟩ | ⟨-, -, -, hreload⟩
  · obtain rfl := Outcome.ok.inj (hquiet.symm.trans hfirst)
    exact absurd (hrecorded mtime hread) hchanged
  rw [hreload] at hfirst
  obtain ⟨uids, hresolved, huids, hzone, hprotected, hstored⟩ := reload_eq_ok hfirst
  -- The first tick could not read the time of the file it had reloaded.
  have hunread : s.fs.statRules env .restatRules = none := by
    cases hrestat : s.fs.statRules env .restatRules with
    | none => rfl
    | some restat =>
        rw [hrestat, Option.some_or, statRules_unique hread hrestat] at hstored
        exact absurd hstored hchanged
  have hresolved' : s'.fs.resolveUids env' .reloadPackages = some uids := by
    rw [h.resolveUids (by rw [hfs, hbefore]) (by decide) (by decide)]
    exact hresolved
  rw [heq]
  refine reload_of_settled (settled_of_reload h hfirst hsame.rules hsame.rulesSource hfs)
    hresolved' ?_ ?_ ?_ ?_
  · rcases huidOf with hkept | ⟨call, hread⟩
    · exact hkept.trans huids
    · exact resolveUids_unique hresolved hread
  · rw [hsame.tzSecs, hzone, hsame.rules]
  · rw [hsame.protectedPkgs, hprotected, h.resolveProtected]
  · rw [hstat _ (by decide) (by decide)]
    exact hunread

/-- The second tick takes over no package list. -/
theorem syncPackages_again (h : SameInputs env env') (hfirst : syncPackages env s = .ok mid)
    (hrecorded : s'.eng.lastPkgMtime = mid.eng.lastPkgMtime)
    (hfs : s'.fs.packages = s.fs.packages) : syncPackages env' s' = .ok s' := by
  unfold syncPackages at hfirst ⊢
  rw [h.statPackages hfs]
  cases hread : s.fs.statPackages env with
  | none => rfl
  | some mtime =>
      rw [hread] at hfirst
      dsimp only at hfirst ⊢
      have hstored : mid.eng.lastPkgMtime = some mtime := by
        split_ifs at hfirst with hsame
        · rw [← Outcome.ok.inj hfirst]
          exact hsame
        · split at hfirst
          next => cases hfirst
          next => rw [← Outcome.ok.inj hfirst, Engine.resync_eq]
      exact if_pos (hrecorded.trans hstored)

/-- **The refresh of the second tick changes no field of the engine.** -/
theorem refresh_again (h : SameInputs env env') (hrefresh : refresh env s = .ok mid)
    (hconfig : SameConfig mid.eng s'.eng)
    (hfs : ∃ state, s'.fs = { mid.fs with state := state }) :
    ∃ backup, refresh env' s' = .ok ⟨s'.eng, { s'.fs with backup := backup }⟩ := by
  obtain ⟨loaded, hreload, hsync⟩ := Outcome.bind_eq_ok_iff.mp hrefresh
  have hkeeps := keepsRules_syncPackages env loaded
  have hsynced := syncPackages_cases env loaded
  rw [hsync, Outcome.state_ok] at hkeeps hsynced
  obtain ⟨state, hstate⟩ := hfs
  have hfiles : s'.fs = { loaded.fs with state := state } := by rw [hstate, hkeeps.fs]
  have huidOf : s'.eng.uidOf = loaded.eng.uidOf ∨
      ∃ call, s.fs.resolveUids env call = some s'.eng.uidOf := by
    rw [hconfig.uidOf]
    rcases hsynced with hsame | ⟨mtime, uids, hpending, hsame⟩
    · exact .inl (by rw [hsame])
    · obtain ⟨before, hbefore⟩ := reloadIfChanged_fs env s
      rw [hreload, Outcome.state_ok] at hbefore
      refine .inr ⟨.syncPackages, ?_⟩
      rw [hsame, Engine.resync_eq, ← hpending.resolved, hbefore]
      rfl
  obtain ⟨backup, hagain⟩ := reloadIfChanged_again h hreload
    ⟨hconfig.rules.trans hkeeps.rules, hconfig.rulesSource.trans hkeeps.rulesSource,
      hconfig.tzSecs.trans hkeeps.tzSecs, hconfig.protectedPkgs.trans hkeeps.protectedPkgs,
      hconfig.lastMtime.trans hkeeps.lastMtime⟩ huidOf hfiles
  refine ⟨backup, ?_⟩
  have hsecond : syncPackages env' ⟨s'.eng, { s'.fs with backup := backup }⟩ =
      .ok ⟨s'.eng, { s'.fs with backup := backup }⟩ :=
    syncPackages_again h hsync hconfig.lastPkgMtime (by rw [hfiles])
  rw [refresh, hagain, Outcome.bind_ok, hsecond]

end Refresh

/-! ## The verdicts -/

section Prepare

variable {env env' : Env} {eng eng' : Engine}

/-- A clock reading that has been seen resets no day and counts no time. -/
theorem count_of_seen (hday : eng.lastDay = some (eng.nowParts env.epoch).date)
    (htick : eng.lastTick = some env.epoch) : eng.count env = eng := by
  have hreset : eng.dailyReset (eng.nowParts env.epoch).date = eng := if_pos hday
  have htick' : { eng with lastTick := some env.epoch } = eng := by rw [← htick]
  rw [Engine.count, hreset, Engine.accrue, htick, Option.elim_some, Nat.sub_self, Nat.zero_min,
    htick']
  rfl

theorem pollScreen_of_seen
    (h : eng.rules.needsScreen = true → eng.screenOff = some (Ningshi.screenOff env.procs)) :
    eng.pollScreen env = eng := by
  unfold Engine.pollScreen
  split_ifs with hneeds
  · rw [← h hneeds]
  · rfl

/-- Everything a tick prepares has been seen and is settled. -/
structure Prepared (env : Env) (eng : Engine) : Prop where
  day : eng.lastDay = some (eng.nowParts env.epoch).date
  tick : eng.lastTick = some env.epoch
  timers : ∀ timer ∈ eng.timers, timer.Settled env.epoch eng
  screen : eng.rules.needsScreen = true → eng.screenOff = some (Ningshi.screenOff env.procs)

theorem prepare_of_prepared (h : Prepared env eng) : eng.prepare env = eng := by
  rw [Engine.prepare, count_of_seen h.day h.tick, maintainCooldowns_of_settled h.timers,
    pollScreen_of_seen h.screen]

theorem SameButEnforced.sameConfig {prepared : Engine} (heng : SameButEnforced prepared eng')
    (hkeeps : KeepsSetup eng prepared) : SameConfig eng eng' := by
  obtain ⟨_, _, _, _, _, _, rfl⟩ := heng
  exact ⟨⟨hkeeps.rules, hkeeps.rulesSource, hkeeps.tzSecs, hkeeps.protectedPkgs,
    hkeeps.lastMtime⟩, hkeeps.uidOf, hkeeps.lastPkgMtime⟩

/-- **What a tick prepares is prepared**, also after the verdicts are enforced. -/
theorem prepared_prepare (heng : SameButEnforced (eng.prepare env) eng') : Prepared env eng' := by
  obtain ⟨hday, htick⟩ := seen_count env eng
  have htz := (keepsSetup_prepare env eng).tzSecs
  obtain ⟨_, _, _, _, _, _, rfl⟩ := heng
  have hsettled (timer : Timer) (htimer : timer ∈ (eng.count env).timers) :
      timer.Settled env.epoch ((eng.count env).maintainCooldowns env.epoch) :=
    settled_maintainCooldowns htimer
  obtain ⟨_, _, _, _, hmaintained⟩ := sameButUsage_maintainCooldowns env.epoch (eng.count env)
  obtain ⟨_, hscreen, hseen⟩ := pollScreen_eq env ((eng.count env).maintainCooldowns env.epoch)
  rw [Engine.prepare] at htz ⊢
  rw [hscreen] at htz ⊢
  rw [hmaintained] at hsettled hseen htz ⊢
  refine ⟨?_, htick, fun timer htimer => ?_, hseen⟩
  · rw [Engine.nowParts]
    dsimp only at htz ⊢
    rw [htz, hday]
    rfl
  · have hmem : timer ∈ (eng.count env).timers := timers_congr rfl rfl ▸ htimer
    exact (hsettled timer hmem).congr rfl rfl rfl rfl rfl

theorem Prepared.of_sameInputs (h : SameInputs env env') (heng : Prepared env eng) :
    Prepared env' eng :=
  ⟨by rw [h.epoch]; exact heng.day, by rw [h.epoch]; exact heng.tick,
    by rw [h.epoch]; exact heng.timers, by rw [h.procs]; exact heng.screen⟩

theorem judge_of_sameButEnforced (heng : SameButEnforced eng eng') :
    eng'.judge env = eng.judge env := by
  obtain ⟨gate, blocked, killCount, lastInterval, lastSave, lastSweep, rfl⟩ := heng
  rfl

theorem judge_of_sameInputs (h : SameInputs env env') (eng : Engine) :
    eng.judge env' = eng.judge env := by
  rw [Engine.judge, Engine.judge, Engine.screenFlag, Engine.screenFlag, h.epoch, h.procs]

end Prepare

/-! ## The transitions -/

section Enforce

variable {env : Env} {vs : List Verdict} {eng : Engine}

/-- An entry that says what is blocked already needs nothing. -/
theorem transition_of_agreeing (env : Env) {entry : Uid × Bool}
    (h : entry.2 = eng.blocked.contains entry.1) : eng.transition env entry = .ok eng := by
  rw [Engine.transition, ← h, Bool.and_not_self, bne_self_eq_false]
  rfl

/-- The loop over a wanted state that is reached already. -/
theorem transitions_of_agreeing (env : Env) {l : List (Uid × Bool)}
    (h : ∀ entry ∈ l, entry.2 = eng.blocked.contains entry.1) :
    Outcome.forEach (Engine.transition env) l eng = .ok eng ∧ transitionCalls env l eng = [] ∧
      transitionKills env l eng = [] := by
  induction l with
  | nil => exact ⟨rfl, rfl, rfl⟩
  | cons entry l ih =>
      obtain ⟨hentry, hrest⟩ := List.forall_mem_cons.mp h
      obtain ⟨hloop, hcalls, hkills⟩ := ih hrest
      have hstep := transition_of_agreeing env hentry
      refine ⟨by rw [Outcome.forEach_cons, hstep, Outcome.bind_ok, hloop], ?_, ?_⟩
      · simp only [transitionCalls, hstep, hcalls, ← hentry]
        simp
      · simp only [transitionKills, hstep, hkills, ← hentry]
        simp

/-- The loop over blocked uids that are all mentioned. -/
theorem releases_of_mentioned (env : Env) (eng : Engine) {wanted : UidMap Bool} {l : List Uid}
    (h : ∀ uid ∈ l, uid ∈ wanted) :
    Outcome.forEach (Engine.release env wanted) l eng = .ok eng ∧
      releaseCalls env wanted l eng = [] := by
  induction l with
  | nil => exact ⟨rfl, rfl⟩
  | cons uid l ih =>
      obtain ⟨huid, hrest⟩ := List.forall_mem_cons.mp h
      obtain ⟨hloop, hcalls⟩ := ih hrest
      have hstep : eng.release env wanted uid = .ok eng := if_pos huid
      refine ⟨by rw [Outcome.forEach_cons, hstep, Outcome.bind_ok, hloop], ?_⟩
      have hmentioned : wanted.contains uid = true := huid
      simp only [releaseCalls, hstep, hcalls, hmentioned]
      rfl

/-- **Verdicts that are carried out already** lead to no call, no kill and no
change. -/
theorem enforce_again (env : Env) (hblocked : ∀ u, u ∈ eng.blocked ↔ (want vs)[u]? = some true)
    (hindex : eng.gate.identity = blockedNames vs) :
    eng.enforce env vs = .ok eng ∧ eng.enforceCalls env vs = [] ∧
      eng.enforceKills env vs = eng.sweepKills env := by
  have hgate : eng.gate.setBlockIndex (blockedNames vs) = eng.gate := by
    rw [← hindex]
    rfl
  have hagree : ∀ entry ∈ env.wantOrder.arrange (want vs).toList,
      entry.2 = eng.blocked.contains entry.1 := by
    intro entry hentry
    have hwant := (mem_arrange_toList_iff env.wantOrder (want vs) entry).mp hentry
    rw [Bool.eq_iff_iff, ExtTreeSet.contains_iff_mem, hblocked, hwant, Option.some.injEq]
  have hmentioned : ∀ uid ∈ eng.blocked.toList, uid ∈ want vs := by
    intro uid huid
    have hwant := (hblocked uid).mp (ExtTreeSet.mem_toList.mp huid)
    exact ExtTreeMap.mem_iff_isSome_getElem?.mpr (by rw [hwant]; rfl)
  obtain ⟨hloop, hcalls, hkills⟩ := transitions_of_agreeing env hagree
  obtain ⟨hreleased, hreleases⟩ := releases_of_mentioned env eng hmentioned
  have hsame : eng.enforce env vs = .ok eng := by
    simp only [Engine.enforce, hgate, hloop, Outcome.bind_ok, hreleased]
  refine ⟨hsame, ?_, ?_⟩
  · simp only [Engine.enforceCalls, hgate, hcalls, hloop, hreleases, List.append_nil]
  · simp only [Engine.enforceKills, hgate, hkills, hsame, List.nil_append]

/-- After a tick no sweep is due at the same clock reading. -/
theorem not_due_finishTick (env : Env) (s : Sys) :
    ¬ sweepSecs ≤ env.epoch - (finishTick env s).eng.lastSweep := by
  have hswept : (finishTick env s).eng.lastSweep = (s.eng.sweep env).lastSweep := by
    simp only [finishTick]
    split_ifs <;> rfl
  rw [hswept, Engine.sweep]
  split_ifs with hdue
  · rw [Nat.sub_self]
    decide
  · exact hdue

/-- Without a sweep the last part of a tick saves and computes the interval. -/
theorem finishTick_of_not_due {s : Sys} (h : ¬ sweepSecs ≤ env.epoch - s.eng.lastSweep) :
    ∃ lastInterval lastSave, (finishTick env s).eng =
      { s.eng with lastInterval := lastInterval, lastSave := lastSave } := by
  have hsweep : s.eng.sweep env = s.eng := if_neg h
  simp only [finishTick, hsweep]
  split_ifs
  · exact ⟨_, _, rfl⟩
  · exact ⟨_, s.eng.lastSave, rfl⟩

end Enforce

/-- **A repeated tick changes nothing.**  It succeeds, calls the gate for no
uid, kills nothing, and leaves the engine as it was but for the time of the last
save and the interval. -/
theorem tick_again {env env' : Env} {s s' : Sys} (h : SameInputs env env')
    (hfirst : tick env s = .ok s') :
    ∃ s'', tick env' s' = .ok s'' ∧ ChangesNothing env' s' s'' := by
  obtain ⟨mid, eng, hrefresh, henforce, rfl⟩ := tick_eq_ok_iff.mp hfirst
  have hkeeps := keepsSetup_prepare env mid.eng
  have hblocked := mem_blocked_of_enforce henforce
  have hindex := identity_enforce env ((mid.eng.prepare env).judge env) (mid.eng.prepare env)
  have hframe := sameButBlocks_enforce env ((mid.eng.prepare env).judge env) (mid.eng.prepare env)
  rw [henforce, Outcome.state_ok] at hindex hframe
  obtain ⟨gate, blocked, killCount, -, heng⟩ := hframe
  obtain ⟨lastInterval, lastSave, lastSweep, hfinish⟩ :=
    finishTick_frame env { mid with eng := eng }
  have hleft : SameButEnforced (mid.eng.prepare env) (finishTick env { mid with eng := eng }).eng :=
    ⟨gate, blocked, killCount, lastInterval, lastSave, lastSweep, by rw [hfinish, heng]⟩
  have hconfig := hleft.sameConfig hkeeps
  have hfiles := finishTick_fs env { mid with eng := eng }
  have hdue := not_due_finishTick env { mid with eng := eng }
  generalize hs' : finishTick env { mid with eng := eng } = s' at *
  obtain ⟨backup, hagain⟩ := refresh_again h hrefresh hconfig hfiles
  have hprepare : s'.eng.prepare env' = s'.eng :=
    prepare_of_prepared ((prepared_prepare hleft).of_sameInputs h)
  have hjudge : s'.eng.judge env' = (mid.eng.prepare env).judge env :=
    (judge_of_sameInputs h s'.eng).trans (judge_of_sameButEnforced hleft)
  have hwanted : ∀ u, u ∈ s'.eng.blocked ↔
      (want ((mid.eng.prepare env).judge env))[u]? = some true := by
    rw [hfinish]
    exact hblocked
  have hnames : s'.eng.gate.identity = blockedNames ((mid.eng.prepare env).judge env) := by
    rw [hfinish]
    exact hindex
  obtain ⟨hsame, hcalls, hkills⟩ := enforce_again env' hwanted hnames
  rw [← h.epoch] at hdue
  have hswept : s'.eng.sweepKills env' = [] := if_neg hdue
  refine ⟨_, tick_eq_ok_iff.mpr ⟨_, s'.eng, hagain, ?_, rfl⟩, ?_, ?_, ?_⟩
  · rw [hprepare, hjudge, hsame]
  · simp only [tickCalls, hagain, hprepare, hjudge, hcalls]
  · simp only [tickKills, hagain, hprepare, hjudge, hkills, hswept]
  · exact finishTick_of_not_due hdue

theorem SameInputs.refl (env : Env) : SameInputs env env :=
  ⟨rfl, fun _ _ _ => rfl, rfl, rfl, rfl, rfl⟩

/-- Two packages share a uid, and the first tick kills what runs under it. -/
theorem tick_again_sharedByTwo :
    ∃ s'', tick oneRunning (tick oneRunning sharedByTwo).state = .ok s'' ∧
      ChangesNothing oneRunning (tick oneRunning sharedByTwo).state s'' :=
  tick_again (.refl oneRunning) (Outcome.eq_ok_of_isOk (by decide +kernel))

end Ningshi
