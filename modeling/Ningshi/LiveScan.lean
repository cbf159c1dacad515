import Ningshi.Daemon
import Ningshi.Engine.Cooldowns
import Ningshi.Engine.Refresh
import Ningshi.StaleCooldown

/-!
# Counting without the live scan

As long as every limit counts foreground time a tick looks at the top-app pids
only, and of the two usage counters it moves one.  `tickLive` is the tick that
always walks over `/proc`.

A tick that skips the walk leaves both counters as `tickLive` does exactly if no
process of a limited uid is listed (`accrue_eq_accrueLive_iff`); otherwise some
counter of running time stays behind, to be read when the scope of a limit is
changed.  `agrees_of_scanNeedless` says that a run without such ticks cannot be
told from a run that always scans.
-/

namespace Ningshi

open Std FiniteMap Transition

/-! ## The engine that always scans -/

/-- The time a tick counts for the uids it sees. -/
def Engine.elapsedAt (env : Env) (eng : Engine) : Nat :=
  min (eng.lastTick.elim 0 fun t => env.epoch - t) maxTickSecs

/-- `accrue`, with the need for the live scan given. -/
def Engine.accrueWith (needLive : Bool) (env : Env) (eng : Engine) : Engine :=
  let elapsed := eng.elapsedAt env
  let eng := { eng with lastTick := some env.epoch }
  if 0 < elapsed && eng.rules.needsUsage then
    let targets := eng.durationTargets
    let topPids := topAppPids env.procs.topApp
    let seen := uidsSnapshot env.procs topPids needLive targets
    targets.toList.foldl (Engine.addUsage elapsed seen.1 seen.2) eng
  else eng

theorem accrue_eq_accrueWith (env : Env) (eng : Engine) :
    eng.accrue env = eng.accrueWith eng.rules.needsLiveScan env := rfl

/-- `Engine.count` of the engine that always scans. -/
def Engine.countLive (env : Env) (eng : Engine) : Engine :=
  (eng.dailyReset (eng.nowParts env.epoch).date).accrueWith true env

/-- `Engine.prepare` of the engine that always scans. -/
def Engine.prepareLive (env : Env) (eng : Engine) : Engine :=
  ((eng.countLive env).maintainCooldowns env.epoch).pollScreen env

/-- `tickVerdicts` of the engine that always scans. -/
def tickVerdictsLive (env : Env) (s : Sys) : Outcome Sys :=
  let eng := s.eng.prepareLive env
  ((eng.enforce env (eng.judge env)).map fun eng => { s with eng := eng }).bind fun s =>
    .ok (finishTick env s)

/-- `tick` of the engine that always scans. -/
def tickLive (env : Env) (s : Sys) : Outcome Sys := (refresh env s).bind (tickVerdictsLive env)

/-! ## What there is to see -/

/-- Every top-app pid is listed in `/proc` as well. -/
def ProcView.TopAppListed (view : ProcView) : Prop :=
  ∀ pid ∈ topAppPids view.topApp, pid ∈ view.pids.getD []

/-- A process listed in `/proc` belongs to the uid. -/
def ProcView.Lists (view : ProcView) (uid : Uid) : Prop :=
  ∃ pid ∈ view.pids.getD [], 1 < pid ∧ view.pidUid pid = some uid

/-- Time is counted, and without the live scan. -/
def Engine.SkipsScan (env : Env) (eng : Engine) : Prop :=
  0 < eng.elapsedAt env ∧ eng.rules.needsUsage = true ∧ eng.rules.needsLiveScan = false

/-- If the scan is skipped, it would have found nothing. -/
def Engine.ScanNeedless (env : Env) (eng : Engine) : Prop :=
  eng.SkipsScan env → ∀ uid ∈ eng.durationTargets, ¬ env.procs.Lists uid

section Snapshot

variable {view : ProcView} {targets : UidSet} {topPids : List Int} {uid : Uid}

theorem one_lt_of_mem_topAppPids {files : List (Option (List Int))} {pid : Int}
    (h : pid ∈ topAppPids files) : 1 < pid := by
  induction files with
  | nil => cases h
  | cons content files ih =>
      cases content with
      | none => exact ih h
      | some content =>
          simp only [topAppPids] at h
          split_ifs at h
          · exact ih h
          · exact of_decide_eq_true (List.mem_filter.mp h).2

/-- The uids found by looking up the owners of some pids. -/
theorem mem_owners_iff {pids : List Int} :
    uid ∈ (.ofList (pids.filterMap fun pid =>
        (view.pidUid pid).filter fun uid => uid ∈ targets) compare : UidSet) ↔
      uid ∈ targets ∧ ∃ pid ∈ pids, view.pidUid pid = some uid := by
  rw [ExtTreeSet.mem_ofList, List.contains_iff_mem, List.mem_filterMap]
  constructor
  · rintro ⟨pid, hpid, howner⟩
    obtain ⟨huid, htarget⟩ := Option.filter_eq_some_iff.mp howner
    exact ⟨of_decide_eq_true htarget, pid, hpid, huid⟩
  · rintro ⟨htarget, pid, hpid, huid⟩
    exact ⟨pid, hpid, Option.filter_eq_some_iff.mpr ⟨huid, decide_eq_true htarget⟩⟩

/-- The live uids of a scan. -/
theorem mem_live_iff :
    uid ∈ (uidsSnapshot view topPids true targets).1 ↔ uid ∈ targets ∧ view.Lists uid := by
  have h := @mem_owners_iff view targets uid ((view.pids.getD []).filter fun pid => 1 < pid)
  simpa [uidsSnapshot, ProcView.Lists, and_assoc] using h

theorem mem_fg_of_scan_iff :
    uid ∈ (uidsSnapshot view topPids true targets).2 ↔
      uid ∈ targets ∧ ∃ pid ∈ view.pids.getD [], pid ∈ topPids ∧ 1 < pid ∧
        view.pidUid pid = some uid := by
  have h := @mem_owners_iff view targets uid
    (((view.pids.getD []).filter fun pid => 1 < pid).filter fun pid => pid ∈ topPids)
  simpa [uidsSnapshot, and_assoc] using h

theorem mem_fg_of_skip_iff :
    uid ∈ (uidsSnapshot view topPids false targets).2 ↔
      uid ∈ targets ∧ ∃ pid ∈ topPids, view.pidUid pid = some uid :=
  mem_owners_iff

/-- A scan finds the foreground uids among the live ones. -/
theorem live_of_fg (h : uid ∈ (uidsSnapshot view topPids true targets).2) :
    uid ∈ (uidsSnapshot view topPids true targets).1 := by
  obtain ⟨htarget, pid, hpid, -, hlt, huid⟩ := mem_fg_of_scan_iff.mp h
  exact mem_live_iff.mpr ⟨htarget, pid, hpid, hlt, huid⟩

/-- **A needless scan**: without a listed process of a target both ways of
looking see nothing. -/
theorem uidsSnapshot_needless (hlisted : view.TopAppListed)
    (hnone : ∀ uid ∈ targets, ¬ view.Lists uid) :
    uidsSnapshot view (topAppPids view.topApp) false targets =
      uidsSnapshot view (topAppPids view.topApp) true targets := by
  refine Prod.ext (ExtTreeSet.ext_mem fun uid => ?_) (ExtTreeSet.ext_mem fun uid => ?_)
  · rw [mem_live_iff]
    refine iff_of_false (ExtTreeSet.not_mem_empty) ?_
    rintro ⟨htarget, hlists⟩
    exact hnone uid htarget hlists
  · rw [mem_fg_of_skip_iff, mem_fg_of_scan_iff]
    refine iff_of_false ?_ ?_
    · rintro ⟨htarget, pid, hpid, huid⟩
      exact hnone uid htarget ⟨pid, hlisted pid hpid, one_lt_of_mem_topAppPids hpid, huid⟩
    · rintro ⟨htarget, pid, hpid, -, hlt, huid⟩
      exact hnone uid htarget ⟨pid, hpid, hlt, huid⟩

end Snapshot

/-! ## What is counted -/

/-- No counter of foreground time is ahead of the counter of all time. -/
def Engine.FgWithin (eng : Engine) : Prop := ∀ uid, eng.fgOf uid ≤ eng.usageOf uid

/-- The uids a tick sees, the live ones and those in the foreground. -/
def Engine.seenUids (needLive : Bool) (env : Env) (eng : Engine) : UidSet × UidSet :=
  uidsSnapshot env.procs (topAppPids env.procs.topApp) needLive eng.durationTargets

/-- The time that is added to the counters. -/
def Engine.countedTime (env : Env) (eng : Engine) : Nat :=
  if eng.rules.needsUsage then eng.elapsedAt env else 0

section Counters

variable {env : Env} {eng : Engine} {uid : Uid}

theorem nodup_toList (targets : UidSet) : targets.toList.Nodup :=
  ExtTreeSet.distinct_toList.imp fun h => ReflCmp.ne_of_cmp_ne_eq h

theorem counters_addUsage (elapsed : Nat) (live fg : UidSet) (eng : Engine) (u uid : Uid) :
    (eng.addUsage elapsed live fg u).usageOf uid =
        eng.usageOf uid + (if u = uid ∧ uid ∈ live then elapsed else 0) ∧
      (eng.addUsage elapsed live fg u).fgOf uid =
        eng.fgOf uid + (if u = uid ∧ uid ∈ fg then elapsed else 0) := by
  by_cases hu : u = uid
  · subst hu
    by_cases hlive : u ∈ live <;> by_cases hfg : u ∈ fg <;>
      simp [Engine.addUsage, Engine.usageOf, Engine.fgOf, hlive, hfg]
  · by_cases hlive : u ∈ live <;> by_cases hfg : u ∈ fg <;>
      simp [Engine.addUsage, Engine.usageOf, Engine.fgOf, hlive, hfg, hu]

/-- The loop of a tick adds the time once to the counters of each uid it has seen. -/
theorem counters_foldl_addUsage (elapsed : Nat) (live fg : UidSet) (uid : Uid) {l : List Uid}
    (hl : l.Nodup) (eng : Engine) :
    (l.foldl (Engine.addUsage elapsed live fg) eng).usageOf uid =
        eng.usageOf uid + (if uid ∈ l ∧ uid ∈ live then elapsed else 0) ∧
      (l.foldl (Engine.addUsage elapsed live fg) eng).fgOf uid =
        eng.fgOf uid + (if uid ∈ l ∧ uid ∈ fg then elapsed else 0) := by
  induction l generalizing eng with
  | nil => simp
  | cons u l ih =>
      obtain ⟨hu, hl⟩ := List.nodup_cons.mp hl
      obtain ⟨husage, hfg⟩ := ih hl (eng.addUsage elapsed live fg u)
      obtain ⟨husage', hfg'⟩ := counters_addUsage elapsed live fg eng u uid
      rw [List.foldl_cons, husage, hfg, husage', hfg']
      by_cases heq : u = uid
      · subst heq
        simp [hu]
      · simp [heq, Ne.symm heq]

/-- **What the accounting of a tick adds**, with and without the scan. -/
theorem counters_accrueWith (needLive : Bool) (env : Env) (eng : Engine) (uid : Uid) :
    (eng.accrueWith needLive env).usageOf uid =
        eng.usageOf uid +
          (if uid ∈ eng.durationTargets ∧ uid ∈ (eng.seenUids needLive env).1
            then eng.countedTime env else 0) ∧
      (eng.accrueWith needLive env).fgOf uid =
        eng.fgOf uid +
          (if uid ∈ eng.durationTargets ∧ uid ∈ (eng.seenUids needLive env).2
            then eng.countedTime env else 0) := by
  have hloop := counters_foldl_addUsage (eng.elapsedAt env) (eng.seenUids needLive env).1
    (eng.seenUids needLive env).2 uid (nodup_toList eng.durationTargets)
    { eng with lastTick := some env.epoch }
  simp only [ExtTreeSet.mem_toList] at hloop
  by_cases hcounts : (0 < eng.elapsedAt env && eng.rules.needsUsage) = true
  · have hneeds := (Bool.and_eq_true_iff.mp hcounts).2
    have haccrue : eng.accrueWith needLive env = eng.durationTargets.toList.foldl
        (Engine.addUsage (eng.elapsedAt env) (eng.seenUids needLive env).1
          (eng.seenUids needLive env).2) { eng with lastTick := some env.epoch } := if_pos hcounts
    rw [haccrue, Engine.countedTime, if_pos hneeds]
    exact hloop
  · have haccrue : eng.accrueWith needLive env = { eng with lastTick := some env.epoch } :=
      if_neg hcounts
    have hzero : eng.countedTime env = 0 := by
      unfold Engine.countedTime
      split_ifs with hneeds
      · simpa [hneeds] using hcounts
      · rfl
    rw [haccrue, hzero, ite_self, ite_self]
    exact ⟨rfl, rfl⟩

/-- A tick that need not scan counts like one that does. -/
theorem accrue_eq_accrueLive (hlisted : env.procs.TopAppListed) (h : eng.ScanNeedless env) :
    eng.accrue env = eng.accrueWith true env := by
  rw [accrue_eq_accrueWith]
  cases hscan : eng.rules.needsLiveScan with
  | true => rfl
  | false =>
      by_cases hcounts : (0 < eng.elapsedAt env && eng.rules.needsUsage) = true
      · obtain ⟨helapsed, hneeds⟩ := Bool.and_eq_true_iff.mp hcounts
        have hnone := h ⟨of_decide_eq_true helapsed, hneeds, hscan⟩
        have hseen : uidsSnapshot env.procs (topAppPids env.procs.topApp) false
            eng.durationTargets = uidsSnapshot env.procs (topAppPids env.procs.topApp) true
            eng.durationTargets := uidsSnapshot_needless hlisted hnone
        calc eng.accrueWith false env
            = eng.durationTargets.toList.foldl (Engine.addUsage (eng.elapsedAt env)
                (eng.seenUids false env).1 (eng.seenUids false env).2)
                { eng with lastTick := some env.epoch } := if_pos hcounts
          _ = eng.durationTargets.toList.foldl (Engine.addUsage (eng.elapsedAt env)
                (eng.seenUids true env).1 (eng.seenUids true env).2)
                { eng with lastTick := some env.epoch } := by
              simp only [Engine.seenUids, hseen]
          _ = eng.accrueWith true env := (if_pos hcounts).symm
      · exact (if_neg hcounts).trans (if_neg hcounts).symm

/-- A tick that skips a scan it needs leaves a counter behind. -/
theorem usageOf_accrue_lt (h : ¬ eng.ScanNeedless env) :
    ∃ uid ∈ eng.durationTargets,
      (eng.accrue env).usageOf uid < (eng.accrueWith true env).usageOf uid := by
  unfold Engine.ScanNeedless at h
  push Not at h
  obtain ⟨⟨helapsed, hneeds, hscan⟩, uid, htarget, hlists⟩ := h
  refine ⟨uid, htarget, ?_⟩
  have hseen : uid ∈ (eng.seenUids true env).1 := mem_live_iff.mpr ⟨htarget, hlists⟩
  have hunseen : uid ∉ (eng.seenUids false env).1 := ExtTreeSet.not_mem_empty
  rw [accrue_eq_accrueWith, hscan, (counters_accrueWith false env eng uid).1,
    (counters_accrueWith true env eng uid).1, if_neg fun hmem => hunseen hmem.2,
    if_pos ⟨htarget, hseen⟩, Engine.countedTime, if_pos hneeds]
  omega

/-- **Exactly when skipping the scan makes no difference** to what a tick counts. -/
theorem accrue_eq_accrueLive_iff (hlisted : env.procs.TopAppListed) :
    eng.accrue env = eng.accrueWith true env ↔ eng.ScanNeedless env := by
  refine ⟨fun hsame => ?_, accrue_eq_accrueLive hlisted⟩
  by_contra hneeded
  obtain ⟨uid, -, hlt⟩ := usageOf_accrue_lt hneeded
  rw [hsame] at hlt
  exact lt_irrefl _ hlt

/-- With the scan foreground time is counted as running time as well. -/
theorem fgWithin_accrueLive (h : eng.FgWithin) : (eng.accrueWith true env).FgWithin := by
  intro uid
  obtain ⟨husage, hfg⟩ := counters_accrueWith true env eng uid
  rw [husage, hfg]
  refine Nat.add_le_add (h uid) ?_
  split_ifs with hseen hlive
  · exact le_rfl
  · exact absurd ⟨hseen.1, live_of_fg hseen.2⟩ hlive
  · exact Nat.zero_le _
  · exact le_rfl

end Counters

/-! ## One tick -/

section Tick

variable {env : Env} {s mid : Sys} {eng eng' : Engine}

theorem Engine.ScanNeedless.congr (h : eng.ScanNeedless env) (hrules : eng'.rules = eng.rules)
    (huidOf : eng'.uidOf = eng.uidOf) (htick : eng'.lastTick = eng.lastTick) :
    eng'.ScanNeedless env := by
  unfold Engine.ScanNeedless Engine.SkipsScan Engine.elapsedAt Engine.durationTargets
    Engine.uidsOf at h ⊢
  rw [hrules, huidOf, htick]
  exact h

theorem prepare_eq_prepareLive (hlisted : env.procs.TopAppListed) (h : eng.ScanNeedless env) :
    eng.prepare env = eng.prepareLive env := by
  have hkeeps := keepsSetup_dailyReset (eng.nowParts env.epoch).date eng
  have htick : (eng.dailyReset (eng.nowParts env.epoch).date).lastTick = eng.lastTick := by
    unfold Engine.dailyReset
    split_ifs <;> rfl
  rw [Engine.prepare, Engine.prepareLive, Engine.count, Engine.countLive,
    accrue_eq_accrueLive hlisted (h.congr hkeeps.rules hkeeps.uidOf htick)]

/-- A tick that need not scan is a tick of the engine that always does. -/
theorem tick_eq_tickLive (hlisted : env.procs.TopAppListed)
    (h : ∀ mid, refresh env s = .ok mid → mid.eng.ScanNeedless env) :
    tick env s = tickLive env s := by
  rw [tick, tickLive]
  cases hrefresh : refresh env s with
  | err mid => rw [Outcome.bind_err, Outcome.bind_err]
  | ok mid =>
      have hprepare := prepare_eq_prepareLive hlisted (h mid hrefresh)
      rw [Outcome.bind_ok, Outcome.bind_ok]
      simp only [tickVerdicts, tickVerdictsLive, hprepare]

theorem fgWithin_dailyReset (today : Int) (h : eng.FgWithin) : (eng.dailyReset today).FgWithin := by
  unfold Engine.dailyReset
  split_ifs
  · exact h
  · intro uid
    simp [Engine.fgOf, Engine.usageOf]

/-- Counters are reset in pairs. -/
theorem fgWithin_of_resets {uids : List Uid} (h : Resets uids eng eng') (heng : eng.FgWithin) :
    eng'.FgWithin := by
  intro uid
  by_cases huid : uid ∈ uids
  · rw [(h.inside uid huid).2]
    exact Nat.zero_le _
  · obtain ⟨husage, hfg⟩ := h.outside uid huid
    rw [husage, hfg]
    exact heng uid

theorem fgWithin_maintainCooldowns (now : Nat) (h : eng.FgWithin) :
    (eng.maintainCooldowns now).FgWithin := by
  have hloop (l : List Timer) (hl : ∀ timer ∈ l, 0 < timer.limit) (eng : Engine)
      (h : eng.FgWithin) : (l.foldl (Timer.maintain now) eng).FgWithin := by
    induction l generalizing eng with
    | nil => exact h
    | cons timer l ih =>
        obtain ⟨hlimit, hl⟩ := List.forall_mem_cons.mp hl
        have hmaintained := maintained now eng hlimit
        refine ih hl _ ?_
        cases hmaintained with
        | settled _ hsame =>
            rw [hsame]
            exact h
        | started _ _ _ hcounts => exact fgWithin_of_resets hcounts h
        | ended _ _ _ hcounts => exact fgWithin_of_resets hcounts h
  rw [maintainCooldowns_eq]
  exact hloop _ (fun timer htimer => (cools_of_mem_timers htimer).1) eng h

theorem fgWithin_prepareLive (env : Env) (h : eng.FgWithin) : (eng.prepareLive env).FgWithin := by
  obtain ⟨screenOff, hpoll, -⟩ :=
    pollScreen_eq env ((eng.countLive env).maintainCooldowns env.epoch)
  rw [Engine.prepareLive, hpoll]
  exact fgWithin_maintainCooldowns env.epoch (fgWithin_accrueLive (fgWithin_dailyReset _ h))

theorem fgWithin_reload (env : Env) (h : s.eng.FgWithin) : (reload env s).state.eng.FgWithin := by
  obtain ⟨_, _, _, _, _, _, hframe⟩ := reload_frame env s
  rw [hframe]
  exact h

/-- No app that is still there has another uid. -/
def UidsKept (uidOf uidOf' : UidOf) : Prop :=
  ∀ (key : String) (u u' : Uid), uidOf[key]? = some u → uidOf'[key]? = some u' → u' = u

/-- Then a sync moves no counter, it only drops counters in pairs. -/
theorem fgWithin_resync {mtime : Nat} {uids : UidOf} (order : IterOrder (String × Uid))
    (h : eng.FgWithin) (hkept : UidsKept eng.uidOf uids) :
    (eng.resync mtime uids (order.arrange uids.toList)).FgWithin := by
  have hmoves : movesOf eng.uidOf (order.arrange uids.toList) = [] := by
    refine List.eq_nil_iff_forall_not_mem.mpr fun move hmove => ?_
    obtain ⟨hne, key, hold, hnew⟩ := (mem_movesOf_iff order).mp hmove
    exact hne (hkept key _ _ hold hnew).symm
  rw [Engine.resync_eq, hmoves]
  intro uid
  show ((restrictLive uids eng.usageFg)[uid]?).getD 0 ≤
    ((restrictLive uids eng.usageSeconds)[uid]?).getD 0
  by_cases hlive : Live uids uid
  · rw [getElem?_restrictLive_of_live hlive, getElem?_restrictLive_of_live hlive]
    exact h uid
  · rw [getElem?_restrictLive_of_not_live hlive, getElem?_restrictLive_of_not_live hlive]

theorem fgWithin_refresh (h : s.eng.FgWithin)
    (hkept : UidsKept s.eng.uidOf (refresh env s).state.eng.uidOf) :
    (refresh env s).state.eng.FgWithin := by
  have hloaded : (reloadIfChanged env s).state.eng.FgWithin := by
    rcases reloadIfChanged_cases env s with ⟨hquiet, -⟩ | ⟨-, -, -, hchanged⟩
    · rw [hquiet]
      exact h
    · rw [hchanged]
      exact fgWithin_reload env h
  cases hreload : reloadIfChanged env s with
  | err loaded =>
      rw [hreload, Outcome.state_err] at hloaded
      rw [refresh, hreload, Outcome.bind_err]
      exact hloaded
  | ok loaded =>
      rw [hreload, Outcome.state_ok] at hloaded
      rw [refresh, hreload, Outcome.bind_ok] at hkept ⊢
      rcases syncPackages_cases env loaded with hsame | ⟨mtime, uids, hpending, hsync⟩
      · rw [hsame]
        exact hloaded
      · rw [hsync, Engine.resync_eq] at hkept
        rw [hsync]
        refine fgWithin_resync env.uidOrder hloaded ?_
        rcases reloadIfChanged_cases env s with ⟨hquiet, -⟩ | ⟨-, -, -, hchanged⟩
        · obtain rfl := Outcome.ok.inj (hquiet.symm.trans hreload)
          exact hkept
        · -- the sync reads the package list the reload has read
          obtain ⟨read, hread, huids, -⟩ := reload_eq_ok (hchanged.symm.trans hreload)
          obtain ⟨backup, hfs⟩ := reloadIfChanged_fs env s
          rw [hreload, Outcome.state_ok] at hfs
          have hresolved : s.fs.resolveUids env .syncPackages = some uids := by
            rw [← hpending.resolved, hfs]
            rfl
          obtain rfl := (resolveUids_unique hread hresolved).trans huids.symm
          exact fun key u u' hold hnew => Option.some.inj (hnew.symm.trans hold)

/-- **One tick that need not scan** keeps foreground time within running time. -/
theorem fgWithin_tick (h : s.eng.FgWithin) (hlisted : env.procs.TopAppListed)
    (hkept : UidsKept s.eng.uidOf (refresh env s).state.eng.uidOf)
    (hneedless : ∀ mid, refresh env s = .ok mid → mid.eng.ScanNeedless env) :
    (tick env s).state.eng.FgWithin := by
  have hrefreshed := fgWithin_refresh h hkept
  rw [tick]
  cases hrefresh : refresh env s with
  | err mid =>
      rw [hrefresh, Outcome.state_err] at hrefreshed
      rw [Outcome.bind_err]
      exact hrefreshed
  | ok mid =>
      rw [hrefresh, Outcome.state_ok] at hrefreshed
      have hprepared := fgWithin_prepareLive env hrefreshed
      have hleft := tickVerdicts_enforced env mid
      rw [prepare_eq_prepareLive hlisted (hneedless mid hrefresh)] at hleft
      generalize mid.eng.prepareLive env = prepared at hprepared hleft
      obtain ⟨_, _, _, _, _, _, hleft⟩ := hleft
      rw [Outcome.bind_ok, hleft]
      exact hprepared

end Tick

/-! ## Two engines side by side -/

/-- The engine and the one that always scans, in the same surroundings. -/
structure Paired where
  code : Sys
  live : Sys
  /-- for each tick so far, what the two had prepared for their verdicts -/
  judged : List (Env × Engine × Engine)

def Paired.tick (env : Env) (p : Paired) : Paired where
  code := (Ningshi.tick env p.code).state
  live := (tickLive env p.live).state
  judged :=
    if (refresh env p.code).isOk then
      (env, (refresh env p.code).state.eng.prepare env,
        (refresh env p.live).state.eng.prepareLive env) :: p.judged
    -- a tick that fails before takes no verdict
    else p.judged

def Paired.reload (env : Env) (p : Paired) : Paired :=
  { p with code := (Ningshi.reload env p.code).state, live := (Ningshi.reload env p.live).state }

def Paired.setFiles (fs : Fs) (p : Paired) : Paired :=
  { p with code := { p.code with fs := fs }, live := { p.live with fs := fs } }

/-- What a tick finds on one local day with always the same limited uids, in a
process table that lists the top-app pids. -/
structure Admitted (date : Int) (targets : UidSet) (env : Env) (s : Sys) : Prop where
  topApp : env.procs.TopAppListed
  day : ((refresh env s).state.eng.nowParts env.epoch).date = date
  limited : (refresh env s).state.eng.durationTargets = targets
  uids : UidsKept s.eng.uidOf (refresh env s).state.eng.uidOf

/-- Ticks, reloads and changes of the files on one local day. -/
def twoEngines (date : Int) (targets : UidSet) : System Paired Event where
  init p := p.code = p.live ∧ p.code.eng.FgWithin ∧ p.judged = []
  step p event p' :=
    match event with
    | .run (.tick env) => Admitted date targets env p.code ∧ p' = p.tick env
    | .run (.reload env) =>
        (Ningshi.reload env p.code).state.eng.durationTargets = targets ∧ p' = p.reload env
    | .files fs => p' = p.setFiles fs
    | _ => False

/-- The limits, the cooldowns and the verdicts of two engines are the same. -/
structure SameJudgement (env : Env) (eng eng' : Engine) : Prop where
  limits : ∀ entry ∈ eng.rules.entries, ∀ uid, entry.overLimit uid eng = entry.overLimit uid eng'
  cooldowns : ∀ entry ∈ eng.rules.entries, ∀ uid,
    entry.cooling env.epoch uid eng = entry.cooling env.epoch uid eng'
  verdicts : eng.judge env = eng'.judge env

/-- All verdicts so far agree, and foreground time is within running time. -/
structure Agrees (p : Paired) : Prop where
  judgements : ∀ j ∈ p.judged, SameJudgement j.1 j.2.1 j.2.2
  fgWithin : p.code.eng.FgWithin

/-- If the event is a tick, it need not scan what it does not scan. -/
def Paired.ScanNeedless (p : Paired) : Event → Prop
  | .run (.tick env) => ∀ mid, refresh env p.code = .ok mid → mid.eng.ScanNeedless env
  | _ => True

theorem SameJudgement.refl (env : Env) (eng : Engine) : SameJudgement env eng eng :=
  ⟨fun _ _ _ => rfl, fun _ _ _ => rfl, rfl⟩

/-- The two engines are in the same state and have prepared the same. -/
structure SameSteps (p : Paired) : Prop where
  same : p.code = p.live
  fgWithin : p.code.eng.FgWithin
  prepared : ∀ j ∈ p.judged, j.2.1 = j.2.2

section Steps

variable {date : Int} {targets : UidSet} {env : Env} {p : Paired}

/-- **A tick that need not scan** keeps the engines in step. -/
theorem sameSteps_tick (h : SameSteps p) (hadmitted : Admitted date targets env p.code)
    (hneedless : p.ScanNeedless (.run (.tick env))) : SameSteps (p.tick env) := by
  have htick : Ningshi.tick env p.code = tickLive env p.code :=
    tick_eq_tickLive hadmitted.topApp hneedless
  refine ⟨?_, fgWithin_tick h.fgWithin hadmitted.topApp hadmitted.uids hneedless, ?_⟩
  · rw [Paired.tick, htick, h.same]
  · intro j hj
    simp only [Paired.tick] at hj
    split_ifs at hj with hok
    · rcases List.mem_cons.mp hj with rfl | hj
      · have hrefresh := Outcome.eq_ok_of_isOk hok
        have hprepare := prepare_eq_prepareLive hadmitted.topApp (hneedless _ hrefresh)
        rw [hprepare, h.same]
      · exact h.prepared j hj
    · exact h.prepared j hj

theorem sameSteps_reload (h : SameSteps p) : SameSteps (p.reload env) :=
  ⟨by rw [Paired.reload, h.same], fgWithin_reload env h.fgWithin, h.prepared⟩

theorem sameSteps_setFiles (h : SameSteps p) (fs : Fs) : SameSteps (p.setFiles fs) :=
  ⟨by rw [Paired.setFiles, h.same], h.fgWithin, h.prepared⟩

end Steps

/-- **Skipping needless scans changes no verdict**, over any run whose ticks
skip only scans that would have found nothing. -/
theorem agrees_of_scanNeedless {date : Int} {targets : UidSet} {p : Paired}
    (hp : (twoEngines date targets).ReachableWhen Paired.ScanNeedless p) : Agrees p := by
  have hsame : SameSteps p := by
    refine System.ReachableWhen.invariant ?_ ?_ hp
    · rintro p ⟨hsame, hwithin, hjudged⟩
      exact ⟨hsame, hwithin, fun j hj => by rw [hjudged] at hj; cases hj⟩
    · intro p event p' h hneedless hstep
      match event, hstep with
      | .run (.tick env), ⟨hadmitted, heq⟩ => exact heq ▸ sameSteps_tick h hadmitted hneedless
      | .run (.reload env), ⟨_, heq⟩ => exact heq ▸ sameSteps_reload h
      | .files fs, heq => exact heq ▸ sameSteps_setFiles h fs
  refine ⟨fun j hj => ?_, hsame.fgWithin⟩
  rw [hsame.prepared j hj]
  exact .refl j.1 j.2.2

/-! ## One app in the foreground -/

/-- The app is in the foreground, and listed in `/proc`. -/
def listedEnv (epoch : Nat) : Env :=
  { foregroundEnv epoch with
    procs := { (foregroundEnv epoch).procs with pids := some [4000] } }

/-- Both engines after their start, before any tick. -/
def Paired.start (env : Env) (fs : Fs) : Paired := ⟨Engine.new env fs, Engine.new env fs, []⟩

def limitedUids : UidSet := .ofList [10001] compare

section Runs

variable {date : Int} {targets : UidSet} {cond : Paired → Event → Prop} {p : Paired} {env : Env}

/-- Without a state file the counters start empty. -/
theorem fgWithin_new {fs : Fs} (h : fs.state = none) : (Engine.new env fs).eng.FgWithin := by
  obtain ⟨rules, source, heng⟩ :=
    loadRules_frame env ⟨{ Engine.blank .start with started := env.epoch }, fs⟩
  obtain ⟨backup, hfs⟩ := loadRules_fs env ⟨{ Engine.blank .start with started := env.epoch }, fs⟩
  have hread : Fs.readState { fs with backup := backup } env = none := by
    unfold Fs.readState
    split_ifs
    · rfl
    · exact h
  simp only [Engine.new, Engine.loadState, heng, hfs, hread, Option.bind_none]
  intro uid
  simp [Engine.fgOf, Engine.usageOf, Engine.blank]

theorem reachable_start {fs : Fs} (h : fs.state = none) :
    (twoEngines date targets).ReachableWhen cond (.start env fs) :=
  .init ⟨rfl, fgWithin_new h, rfl⟩

theorem reachable_tick (hp : (twoEngines date targets).ReachableWhen cond p)
    (hcond : cond p (.run (.tick env))) (h : Admitted date targets env p.code) :
    (twoEngines date targets).ReachableWhen cond (p.tick env) :=
  .step hp hcond (show (twoEngines date targets).step p (.run (.tick env)) (p.tick env) from
    ⟨h, rfl⟩)

theorem reachable_setFiles {fs : Fs} (hp : (twoEngines date targets).ReachableWhen cond p)
    (hcond : cond p (.files fs)) :
    (twoEngines date targets).ReachableWhen cond (p.setFiles fs) :=
  .step hp hcond (show (twoEngines date targets).step p (.files fs) (p.setFiles fs) from rfl)

theorem admitted_listedEnv {epoch : Nat} {s : Sys}
    (hday : ((refresh (listedEnv epoch) s).state.eng.nowParts epoch).date = 0)
    (hlimited : (refresh (listedEnv epoch) s).state.eng.durationTargets = limitedUids)
    (huids : s.eng.uidOf = ∅ ∨ (refresh (listedEnv epoch) s).state.eng.uidOf = s.eng.uidOf) :
    Admitted 0 limitedUids (listedEnv epoch) s := by
  refine ⟨fun pid hpid => hpid, hday, hlimited, fun key u u' hold hnew => ?_⟩
  rcases huids with hempty | hsame
  · rw [hempty] at hold
    simp at hold
  · rw [hsame] at hnew
    exact Option.some.inj (hnew.symm.trans hold)

/-- A tick that does the scan needs no other. -/
theorem scanNeedless_of_scan
    (h : (refresh env p.code).state.eng.rules.needsLiveScan = true) :
    p.ScanNeedless (.run (.tick env)) := by
  intro mid hmid hskips
  rw [hmid, Outcome.state_ok] at h
  exact absurd (h.symm.trans hskips.2.2) (by decide)

end Runs

/-- A limit on all running time. -/
def scannedStart : Paired := .start (.quiet 100) (timedFiles ⟨1, 0, "any"⟩ 1)

/-- A first tick, and one that counts a minute. -/
theorem agrees_scannedRun : Agrees ((scannedStart.tick (listedEnv 100)).tick (listedEnv 160)) := by
  have hstart : (twoEngines 0 limitedUids).ReachableWhen Paired.ScanNeedless scannedStart :=
    reachable_start rfl
  have hfirst : (twoEngines 0 limitedUids).ReachableWhen Paired.ScanNeedless
      (scannedStart.tick (listedEnv 100)) :=
    reachable_tick hstart (scanNeedless_of_scan (by decide +kernel))
      (admitted_listedEnv (by decide +kernel) (by decide +kernel) (.inl (by decide +kernel)))
  exact agrees_of_scanNeedless (reachable_tick hfirst (scanNeedless_of_scan (by decide +kernel))
    (admitted_listedEnv (by decide +kernel) (by decide +kernel) (.inr (by decide +kernel))))

/-- Two minutes of foreground time are allowed. -/
def staleStart : Paired := .start (.quiet 100) (timedFiles ⟨2, 0, "foreground"⟩ 1)

/-- When a minute has been counted the limit becomes one of any running time. -/
def staleEdited : Paired :=
  ((staleStart.tick (listedEnv 100)).tick (listedEnv 160)).setFiles (timedFiles ⟨1, 0, "any"⟩ 2)

theorem staleEdited_reachable : (twoEngines 0 limitedUids).Reachable staleEdited := by
  have hstart : (twoEngines 0 limitedUids).Reachable staleStart := reachable_start rfl
  have hfirst : (twoEngines 0 limitedUids).Reachable (staleStart.tick (listedEnv 100)) :=
    reachable_tick hstart trivial
      (admitted_listedEnv (by decide +kernel) (by decide +kernel) (.inl (by decide +kernel)))
  have hcounted : (twoEngines 0 limitedUids).Reachable
      ((staleStart.tick (listedEnv 100)).tick (listedEnv 160)) :=
    reachable_tick hfirst trivial
      (admitted_listedEnv (by decide +kernel) (by decide +kernel) (.inr (by decide +kernel)))
  exact reachable_setFiles hcounted trivial

/-- The engine that always scans blocks the app then, the other one takes it for
hardly used. -/
theorem not_agrees_staleRun :
    ∃ p, (twoEngines 0 limitedUids).Reachable p ∧ ¬ p.code.eng.FgWithin ∧
      ∃ j ∈ p.judged, j.2.1.judge j.1 ≠ j.2.2.judge j.1 := by
  refine ⟨staleEdited.tick (listedEnv 161), ?_, fun hwithin => ?_, ?_⟩
  · exact reachable_tick staleEdited_reachable trivial
      (admitted_listedEnv (by decide +kernel) (by decide +kernel) (.inr (by decide +kernel)))
  · have hle := hwithin 10001
    revert hle
    decide +kernel
  · refine ⟨(listedEnv 161, (refresh (listedEnv 161) staleEdited.code).state.eng.prepare
      (listedEnv 161), (refresh (listedEnv 161) staleEdited.live).state.eng.prepareLive
      (listedEnv 161)), ?_, ?_⟩
    · rw [Paired.tick, if_pos (by decide +kernel)]
      exact List.mem_cons_self
    · decide +kernel

end Ningshi
