import Ningshi.Engine.Tick

/-!
# The refresh at the start of a tick

A refresh reloads the rules when their file has a new time and takes over the
package list when that has.  Whatever it does, the counters of the uids in use
stay where they are as long as the uid map comes out as it was, and so do the
cooldowns as long as the rules do (`keepsCounters_refresh`,
`keepsCooldowns_refresh`).
-/

namespace Ningshi

open Std FiniteMap Rename Transition

section Reads

variable {env : Env} {s mid : Sys}

/-- Two reads of the package list that both succeed read the same map. -/
theorem resolveUids_unique {fs : Fs} {call call' : FsCall} {uids uids' : UidOf}
    (h : fs.resolveUids env call = some uids) (h' : fs.resolveUids env call' = some uids') :
    uids' = uids := by
  obtain ⟨text, hread, htext⟩ := Option.map_eq_some_iff.mp h
  obtain ⟨text', hread', htext'⟩ := Option.map_eq_some_iff.mp h'
  split_ifs at hread hread'
  obtain rfl := Option.some.inj (hread.symm.trans hread')
  exact htext'.symm.trans htext

theorem reloadIfChanged_fs (env : Env) (s : Sys) :
    ∃ backup, (reloadIfChanged env s).state.fs = { s.fs with backup := backup } := by
  unfold reloadIfChanged
  split
  next => exact ⟨s.fs.backup, rfl⟩
  next =>
    split_ifs
    · exact ⟨s.fs.backup, rfl⟩
    · exact reload_fs env s

/-- The rules file is unchanged since it was recorded, or it is reloaded. -/
theorem reloadIfChanged_cases (env : Env) (s : Sys) :
    (reloadIfChanged env s = .ok s ∧
        ∀ mtime, s.fs.statRules env .statRules = some mtime → s.eng.lastMtime = some mtime) ∨
      ∃ mtime, s.fs.statRules env .statRules = some mtime ∧ s.eng.lastMtime ≠ some mtime ∧
        reloadIfChanged env s = reload env s := by
  unfold reloadIfChanged
  cases hread : s.fs.statRules env .statRules with
  | none => exact .inl ⟨rfl, fun mtime hmtime => (by cases hmtime)⟩
  | some mtime =>
      by_cases hrecorded : s.eng.lastMtime = some mtime
      · exact .inl ⟨if_pos hrecorded, fun mtime' hmtime => Option.some.inj hmtime ▸ hrecorded⟩
      · exact .inr ⟨mtime, rfl, hrecorded, if_neg hrecorded⟩

/-- Two looks at the rules file that both succeed find the same time. -/
theorem statRules_unique {fs : Fs} {call call' : FsCall} {mtime mtime' : Nat}
    (h : fs.statRules env call = some mtime) (h' : fs.statRules env call' = some mtime') :
    mtime' = mtime := by
  unfold Fs.statRules at h h'
  split_ifs at h h'
  exact Option.some.inj (h'.symm.trans h)

/-- What a reload that goes through leaves in the engine. -/
theorem reload_eq_ok (h : reload env s = .ok mid) :
    ∃ uids, s.fs.resolveUids env .reloadPackages = some uids ∧ mid.eng.uidOf = uids ∧
      mid.eng.tzSecs = parseTz mid.eng.rules.settings.timezone ∧
      mid.eng.protectedPkgs = resolveProtected env ∧
      mid.eng.lastMtime = (s.fs.statRules env .restatRules).or s.eng.lastMtime := by
  obtain ⟨rules, source, hrules⟩ := reloadRules_frame env s
  obtain ⟨backup, hfs⟩ := reloadRules_fs env s
  cases hres : (reloadRules env s).fs.resolveUids env .reloadPackages with
  | none =>
      rw [reload_of_unresolved hres] at h
      cases h
  | some uids =>
      rw [reload_of_resolved hres, hrules, hfs] at h
      obtain ⟨_, _, hfinish⟩ := Engine.finishReload_frame s.eng.rules.sharedFlags uids
        (Fs.statRules { s.fs with backup := backup } env .restatRules)
        (Engine.deriveSettings env { s.eng with rules := rules, rulesSource := source })
      rw [hfinish] at h
      obtain rfl := Outcome.ok.inj h
      exact ⟨uids, (resolveUids_reloadRules env env s .reloadPackages).symm.trans hres, rfl, rfl,
        rfl, rfl⟩

/-! ## What a refresh leaves alone -/

/-- The entries of the uids in use stay; others may be dropped. -/
def KeepsLive {β : Type} (uidOf : UidOf) (m m' : UidMap β) : Prop :=
  ∀ u, m'[u]? = m[u]? ∨ ¬ Live uidOf u ∧ m'[u]? = none

section KeepsLive

variable {β : Type} {uidOf : UidOf} {m m' m'' : UidMap β}

theorem KeepsLive.refl (uidOf : UidOf) (m : UidMap β) : KeepsLive uidOf m m := fun _ => .inl rfl

theorem KeepsLive.trans (h : KeepsLive uidOf m m') (h' : KeepsLive uidOf m' m'') :
    KeepsLive uidOf m m'' := by
  intro u
  rcases h' u with hsame | hdropped
  · rw [hsame]
    exact h u
  · exact .inr hdropped

theorem KeepsLive.getElem? (h : KeepsLive uidOf m m') {u : Uid} (hu : Live uidOf u) :
    m'[u]? = m[u]? :=
  (h u).resolve_right fun hdropped => hdropped.1 hu

/-- Where only uids in use have entries, none is dropped. -/
theorem KeepsLive.eq (h : KeepsLive uidOf m m') (hlive : ∀ u, m[u]? ≠ none → Live uidOf u) :
    m' = m := by
  refine ExtTreeMap.ext_getElem? fun u => ?_
  rcases h u with hsame | ⟨hstale, hnone⟩
  · exact hsame
  · rw [hnone]
    by_contra hne
    exact hstale (hlive u (Ne.symm hne))

theorem keepsLive_restrictLive (uidOf : UidOf) (m : UidMap β) :
    KeepsLive uidOf m (restrictLive uidOf m) := by
  intro u
  by_cases hu : Live uidOf u
  · exact .inl (getElem?_restrictLive_of_live hu)
  · exact .inr ⟨hu, getElem?_restrictLive_of_not_live hu⟩

end KeepsLive

/-- Counters and extensions of the uids in use, and the times a tick has seen. -/
structure KeepsCounters (eng eng' : Engine) : Prop where
  usageSeconds : KeepsLive eng'.uidOf eng.usageSeconds eng'.usageSeconds
  usageFg : KeepsLive eng'.uidOf eng.usageFg eng'.usageFg
  extensionUntil : KeepsLive eng'.uidOf eng.extensionUntil eng'.extensionUntil
  extGrantedToday : KeepsLive eng'.uidOf eng.extGrantedToday eng'.extGrantedToday
  groupExtensionUntil : eng'.groupExtensionUntil = eng.groupExtensionUntil
  groupExtGrantedToday : eng'.groupExtGrantedToday = eng.groupExtGrantedToday
  lastDay : eng'.lastDay = eng.lastDay
  lastTick : eng'.lastTick = eng.lastTick

/-- Cooldowns of the uids in use and of the groups. -/
structure KeepsCooldowns (eng eng' : Engine) : Prop where
  cooldownUntil : KeepsLive eng'.uidOf eng.cooldownUntil eng'.cooldownUntil
  groupCooldownUntil : eng'.groupCooldownUntil = eng.groupCooldownUntil

theorem KeepsCounters.refl (eng : Engine) : KeepsCounters eng eng :=
  ⟨.refl _ _, .refl _ _, .refl _ _, .refl _ _, rfl, rfl, rfl, rfl⟩

theorem KeepsCounters.trans {a b c : Engine} (hab : KeepsCounters a b) (hbc : KeepsCounters b c)
    (huidOf : c.uidOf = b.uidOf) : KeepsCounters a c := by
  obtain ⟨husage, hfg, huntil, hgranted, hgroup, hgroupGranted, hday, htick⟩ := hab
  rw [← huidOf] at husage hfg huntil hgranted
  exact ⟨husage.trans hbc.usageSeconds, hfg.trans hbc.usageFg, huntil.trans hbc.extensionUntil,
    hgranted.trans hbc.extGrantedToday, hbc.groupExtensionUntil.trans hgroup,
    hbc.groupExtGrantedToday.trans hgroupGranted, hbc.lastDay.trans hday, hbc.lastTick.trans htick⟩

theorem keepsCounters_reload (env : Env) (s : Sys) :
    KeepsCounters s.eng (reload env s).state.eng := by
  obtain ⟨_, _, _, _, _, _, h⟩ := reload_frame env s
  rw [h]
  exact ⟨.refl _ _, .refl _ _, .refl _ _, .refl _ _, rfl, rfl, rfl, rfl⟩

theorem keepsCounters_reloadIfChanged (env : Env) (s : Sys) :
    KeepsCounters s.eng (reloadIfChanged env s).state.eng := by
  rcases reloadIfChanged_cases env s with ⟨h, -⟩ | ⟨-, -, -, h⟩
  · rw [h]
    exact .refl s.eng
  · rw [h]
    exact keepsCounters_reload env s

/-- A sync that takes over the uid map in use moves nothing. -/
theorem keepsCounters_resync {eng : Engine} {mtime : Nat} {uids : UidOf}
    (order : IterOrder (String × Uid)) (h : eng.uidOf = uids) :
    KeepsCounters eng (eng.resync mtime uids (order.arrange uids.toList)) := by
  have hmoves : movesOf eng.uidOf (order.arrange uids.toList) = [] := by
    rw [h]
    exact movesOf_self uids order
  rw [Engine.resync_eq, hmoves]
  exact ⟨keepsLive_restrictLive uids _, keepsLive_restrictLive uids _,
    keepsLive_restrictLive uids _, keepsLive_restrictLive uids _, rfl, rfl, rfl, rfl⟩

theorem keepsCounters_sync (h : (syncPackages env s).state.eng.uidOf = s.eng.uidOf) :
    KeepsCounters s.eng (syncPackages env s).state.eng := by
  rcases syncPackages_cases env s with hsame | ⟨mtime, uids, -, hsync⟩
  · rw [hsame]
    exact .refl s.eng
  · rw [hsync] at h ⊢
    have huids : s.eng.uidOf = uids := by rw [← h, Engine.resync_eq]
    exact keepsCounters_resync env.uidOrder huids

/-- The uid map a refresh has in between is the one it ends with. -/
theorem refresh_uidOf_loaded {loaded : Sys} (hreload : reloadIfChanged env s = .ok loaded)
    (h : (refresh env s).state.eng.uidOf = s.eng.uidOf) :
    (syncPackages env loaded).state.eng.uidOf = loaded.eng.uidOf := by
  rw [refresh, hreload, Outcome.bind_ok] at h
  rcases syncPackages_cases env loaded with hsame | ⟨mtime, uids, hpending, hsync⟩
  · rw [hsame]
  rw [hsync, Engine.resync_eq] at h ⊢
  rcases reloadIfChanged_cases env s with ⟨hquiet, -⟩ | ⟨-, -, -, hchanged⟩
  · obtain rfl := Outcome.ok.inj (hquiet.symm.trans hreload)
    exact h
  · -- both reads of the package list went through, so they read the same map
    obtain ⟨read, hread, huids, -⟩ := reload_eq_ok (hchanged.symm.trans hreload)
    obtain ⟨backup, hfs⟩ := reloadIfChanged_fs env s
    rw [hreload, Outcome.state_ok] at hfs
    have hresolved : s.fs.resolveUids env .syncPackages = some uids := by
      rw [← hpending.resolved, hfs]
      rfl
    exact (resolveUids_unique hread hresolved).trans huids.symm

/-- **A refresh that leaves the uid map as it was keeps the counters** of the
uids in use. -/
theorem keepsCounters_refresh (h : (refresh env s).state.eng.uidOf = s.eng.uidOf) :
    KeepsCounters s.eng (refresh env s).state.eng := by
  have hloaded := keepsCounters_reloadIfChanged env s
  cases hreload : reloadIfChanged env s with
  | err loaded =>
      rw [hreload, Outcome.state_err] at hloaded
      rw [refresh, hreload, Outcome.bind_err]
      exact hloaded
  | ok loaded =>
      rw [hreload, Outcome.state_ok] at hloaded
      have hsame := refresh_uidOf_loaded hreload h
      rw [refresh, hreload, Outcome.bind_ok]
      exact hloaded.trans (keepsCounters_sync hsame) hsame

/-- A reload to the same rules clears no cooldown. -/
theorem reload_cooldowns (h : reload env s = .ok mid) (hrules : mid.eng.rules = s.eng.rules) :
    mid.eng.cooldownUntil = s.eng.cooldownUntil ∧
      mid.eng.groupCooldownUntil = s.eng.groupCooldownUntil := by
  obtain ⟨hloaded, -, -⟩ := reload_loaded env s
  rw [h, Outcome.state_ok, hrules] at hloaded
  obtain ⟨rules, source, hframe⟩ := reloadRules_frame env s
  cases hres : (reloadRules env s).fs.resolveUids env .reloadPackages with
  | none =>
      rw [reload_of_unresolved hres] at h
      cases h
  | some uids =>
      have hsame : ((reloadRules env s).eng.deriveSettings env).rules = s.eng.rules := hloaded.symm
      rw [reload_of_resolved hres, Engine.finishReload_of_same hsame, hframe] at h
      obtain rfl := Outcome.ok.inj h
      exact ⟨rfl, rfl⟩

/-- **A refresh that leaves the rules as they were keeps the cooldowns.** -/
theorem keepsCooldowns_refresh (h : refresh env s = .ok mid)
    (hrules : mid.eng.rules = s.eng.rules) : KeepsCooldowns s.eng mid.eng := by
  obtain ⟨loaded, hreload, hsync⟩ := Outcome.bind_eq_ok_iff.mp h
  have hkeeps := keepsRules_syncPackages env loaded
  have hsynced := syncPackages_cases env loaded
  rw [hsync, Outcome.state_ok] at hkeeps hsynced
  have hloaded : loaded.eng.cooldownUntil = s.eng.cooldownUntil ∧
      loaded.eng.groupCooldownUntil = s.eng.groupCooldownUntil := by
    rcases reloadIfChanged_cases env s with ⟨hquiet, -⟩ | ⟨-, -, -, hchanged⟩
    · obtain rfl := Outcome.ok.inj (hquiet.symm.trans hreload)
      exact ⟨rfl, rfl⟩
    · exact reload_cooldowns (hchanged.symm.trans hreload) (hkeeps.rules.symm.trans hrules)
  obtain ⟨huid, hgroup⟩ := hloaded
  rcases hsynced with hsame | ⟨mtime, uids, -, hsame⟩
  · rw [hsame]
    exact ⟨huid ▸ .refl _ _, hgroup⟩
  · rw [hsame, Engine.resync_eq]
    exact ⟨huid ▸ keepsLive_restrictLive uids _, hgroup⟩

end Reads

/-! ## What a tick leaves of what it prepared -/

section Enforced

variable {prepared eng : Engine}

theorem SameButEnforced.keepsCounters (h : SameButEnforced prepared eng) :
    KeepsCounters prepared eng := by
  obtain ⟨_, _, _, _, _, _, rfl⟩ := h
  exact ⟨.refl _ _, .refl _ _, .refl _ _, .refl _ _, rfl, rfl, rfl, rfl⟩

theorem SameButEnforced.keepsCooldowns (h : SameButEnforced prepared eng) :
    KeepsCooldowns prepared eng := by
  obtain ⟨_, _, _, _, _, _, rfl⟩ := h
  exact ⟨.refl _ _, rfl⟩

theorem SameButEnforced.keepsConfig (h : SameButEnforced prepared eng) :
    KeepsConfig prepared eng := by
  obtain ⟨_, _, _, _, _, _, rfl⟩ := h
  exact ⟨rfl, rfl, rfl, rfl, rfl⟩

end Enforced

/-- **What is left of a tick that succeeds.** -/
theorem tick_enforced {env : Env} {s s' : Sys} (h : tick env s = .ok s') :
    ∃ mid, refresh env s = .ok mid ∧ SameButEnforced (mid.eng.prepare env) s'.eng := by
  obtain ⟨mid, hrefresh, hverdicts⟩ := Outcome.bind_eq_ok_iff.mp h
  have hleft := tickVerdicts_enforced env mid
  rw [hverdicts, Outcome.state_ok] at hleft
  exact ⟨mid, hrefresh, hleft⟩

theorem pollScreen_eq (env : Env) (eng : Engine) :
    ∃ screenOff, eng.pollScreen env = { eng with screenOff := screenOff } ∧
      (eng.rules.needsScreen = true → screenOff = some (Ningshi.screenOff env.procs)) := by
  unfold Engine.pollScreen
  split_ifs with hneeds
  · exact ⟨_, rfl, fun _ => rfl⟩
  · exact ⟨eng.screenOff, rfl, fun hneeds' => absurd hneeds' hneeds⟩

/-- A tick prepares its verdicts by the cooldown step and a look at the screen. -/
theorem prepare_eq (env : Env) (eng : Engine) :
    ∃ screenOff, eng.prepare env =
      { (eng.count env).maintainCooldowns env.epoch with screenOff := screenOff } := by
  obtain ⟨screenOff, h, -⟩ := pollScreen_eq env ((eng.count env).maintainCooldowns env.epoch)
  exact ⟨screenOff, h⟩

/-- Counting usage touches the two counters and the time of the last tick. -/
theorem accrue_eq (env : Env) (eng : Engine) :
    ∃ usageSeconds usageFg, eng.accrue env =
      { eng with
        lastTick := some env.epoch
        usageSeconds := usageSeconds
        usageFg := usageFg } := by
  have hloop (elapsed : Nat) (live fg : UidSet) (l : List Uid) (eng : Engine) :
      ∃ usageSeconds usageFg, l.foldl (Engine.addUsage elapsed live fg) eng =
        { eng with usageSeconds := usageSeconds, usageFg := usageFg } := by
    induction l generalizing eng with
    | nil => exact ⟨_, _, rfl⟩
    | cons uid l ih =>
        obtain ⟨usageSeconds, usageFg, h⟩ := ih (eng.addUsage elapsed live fg uid)
        exact ⟨usageSeconds, usageFg, h⟩
  simp only [Engine.accrue]
  split_ifs
  · obtain ⟨usageSeconds, usageFg, h⟩ := hloop _ _ _ _ { eng with lastTick := some env.epoch }
    exact ⟨usageSeconds, usageFg, h⟩
  · exact ⟨eng.usageSeconds, eng.usageFg, rfl⟩

/-- A tick has seen its day and its clock reading before the cooldown step. -/
theorem seen_count (env : Env) (eng : Engine) :
    (eng.count env).lastDay = some (eng.nowParts env.epoch).date ∧
      (eng.count env).lastTick = some env.epoch := by
  obtain ⟨_, _, _, _, hcount⟩ :=
    sameButUsage_accrue env (eng.dailyReset (eng.nowParts env.epoch).date)
  rw [Engine.count, hcount]
  refine ⟨?_, rfl⟩
  unfold Engine.dailyReset
  split_ifs with hday
  · exact hday
  · rfl

end Ningshi
