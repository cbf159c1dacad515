import Ningshi.Daemon

/-!
# The packages that may never be blocked

A tick leaves out the keys of protected packages, but blocks uids.  Three
things have to be right for the uid of a statically protected package to stay
free: the set of protected packages, which only a reload fills in, must be
there before an entry for such a package is evaluated; an entry that blocks
must not share its uid with such a package; and a uid map that is taken over
must not give such a package a uid that is blocked already.
`blocked_not_exempt` shows that nothing else is needed.
-/

namespace Ningshi

open Std FiniteMap Transition

/-- The key names a package of the static list. -/
def StaticProtected (key : String) : Prop := protectedName key ∈ protectedPackages

instance (key : String) : Decidable (StaticProtected key) := inferInstanceAs (Decidable (_ ∈ _))

/-- A statically protected package has this uid. -/
def Exempt (uidOf : UidOf) (uid : Uid) : Prop :=
  ∃ key : String, uidOf[key]? = some uid ∧ StaticProtected key

theorem exempt_iff {uidOf : UidOf} {uid : Uid} :
    Exempt uidOf uid ↔ ∃ p ∈ uidOf.toList, p.2 = uid ∧ StaticProtected p.1 := by
  constructor
  · rintro ⟨key, hkey, hprotected⟩
    exact ⟨(key, uid), ExtTreeMap.mem_toList_iff_getElem?_eq_some.mpr hkey, rfl, hprotected⟩
  · rintro ⟨p, hp, rfl, hprotected⟩
    exact ⟨p.1, ExtTreeMap.mem_toList_iff_getElem?_eq_some.mp hp, hprotected⟩

instance (uidOf : UidOf) (uid : Uid) : Decidable (Exempt uidOf uid) :=
  decidable_of_iff _ exempt_iff.symm

/-- The static list is part of the engine's protected packages. -/
def Engine.ListLoaded (eng : Engine) : Prop := ∀ pkg ∈ protectedPackages, pkg ∈ eng.protectedPkgs

/-! ## The condition -/

/-- The entries of a tick that evaluate to block spare the static list. -/
structure EntriesSpare (env : Env) (s : Sys) : Prop where
  /-- an entry for a protected package is not reached before the list is there -/
  loaded : ∀ v, Judged env s v → v.block = true → StaticProtected v.key →
    s.eng.ListLoaded ∨ (s.fs.statRules env .statRules).isSome
  /-- no other entry has the uid of a protected package -/
  unshared : ∀ mid, refresh env s = .ok mid → ∀ v ∈ (mid.eng.prepare env).judge env,
    v.block = true → Exempt mid.eng.uidOf v.uid → StaticProtected v.key

/-- The uid map an operation takes over. -/
def Op.Adopts : Op → Sys → UidOf → Prop
  | .tick env, s, uids =>
      (∃ mtime, s.fs.statRules env .statRules = some mtime ∧ s.eng.lastMtime ≠ some mtime ∧
        s.fs.resolveUids env .reloadPackages = some uids) ∨
      ∃ mtime, Pending env s mtime uids
  | .reload env, s, uids => s.fs.resolveUids env .reloadPackages = some uids
  | .apply env candidate, s, uids =>
      (∃ rules, Accepts env candidate rules) ∧ s.fs.resolveUids env .reloadPackages = some uids
  | .sync env, s, uids => ∃ mtime, Pending env s mtime uids
  | .extension .., _, _ => False
  | .killed _, _, _ => False

/-- No uid map that is taken over gives a protected package a blocked uid. -/
def AdoptionSpares (op : Op) (s : Sys) : Prop :=
  ∀ uids, op.Adopts s uids → ∀ uid, Exempt uids uid → uid ∉ s.eng.blocked

/-- A tick that goes through blocks its own choice only, so a blocked uid that
changes hands matters when it stops halfway. -/
def SparesProtected : Daemon → Event → Prop
  | .up s, .run (.tick env) =>
      EntriesSpare env s ∧ ((tick env s).isOk = false → AdoptionSpares (.tick env) s)
  | .up s, .run op => AdoptionSpares op s
  | _, _ => True

/-! ## The protected packages -/

theorem mem_resolveProtected {env : Env} {pkg : String} (hpkg : pkg ∈ protectedPackages) :
    pkg ∈ resolveProtected env := by
  rw [resolveProtected, ExtTreeSet.mem_ofList, List.contains_iff_mem]
  exact List.mem_append_left _ (List.mem_append_left _ hpkg)

/-- A reload loads the static list, however it ends. -/
theorem listLoaded_reload (env : Env) (s : Sys) : (reload env s).state.eng.ListLoaded := by
  obtain ⟨_, _, _, _, _, _, h⟩ := reload_frame env s
  rw [h]
  exact fun pkg hpkg => mem_resolveProtected hpkg

/-- Where the list is loaded the check of a tick catches protected keys. -/
theorem isProtected_of_listLoaded {eng : Engine} {key : String} (hloaded : eng.ListLoaded)
    (hkey : StaticProtected key) : eng.isProtected key = true :=
  ExtTreeSet.contains_iff_mem.mpr (hloaded _ hkey)

/-- What a run keeps: the property itself, and that a recorded file time means
that a reload has loaded the list. -/
structure Protects (eng : Engine) : Prop where
  blocks : BlocksOnly (fun uid => ¬ Exempt eng.uidOf uid) eng
  loaded : eng.lastMtime.isSome → eng.ListLoaded

theorem listLoaded_reloadIfChanged {env : Env} {s : Sys}
    (hs : s.eng.lastMtime.isSome → s.eng.ListLoaded)
    (hloaded : s.eng.ListLoaded ∨ (s.fs.statRules env .statRules).isSome) :
    (reloadIfChanged env s).state.eng.ListLoaded := by
  unfold reloadIfChanged
  split
  next hnone =>
    rw [hnone] at hloaded
    exact hloaded.resolve_right Bool.false_ne_true
  next mtime hstat =>
    split_ifs with hsame
    · exact hs (by rw [hsame]; rfl)
    · exact listLoaded_reload env s

theorem reloadIfChanged_uidOf (env : Env) (s : Sys) :
    (reloadIfChanged env s).state.eng.uidOf = s.eng.uidOf ∨
      (Op.tick env).Adopts s (reloadIfChanged env s).state.eng.uidOf := by
  unfold reloadIfChanged
  split
  next => exact .inl rfl
  next mtime hstat =>
    split_ifs with hsame
    · exact .inl rfl
    · exact (reload_uidOf env s).imp_right fun hres => .inl ⟨mtime, hstat, hsame, hres⟩

theorem pending_of_reloadIfChanged {env : Env} {s : Sys} {mtime : Nat} {uids : UidOf}
    (h : Pending env (reloadIfChanged env s).state mtime uids) : Pending env s mtime uids := by
  unfold reloadIfChanged at h
  split at h
  next => exact h
  next =>
    split_ifs at h
    · exact h
    · exact pending_reload_iff.mp h

theorem sync_uidOf (env : Env) (s : Sys) :
    (syncPackages env s).state.eng.uidOf = s.eng.uidOf ∨
      (Op.sync env).Adopts s (syncPackages env s).state.eng.uidOf := by
  rcases syncPackages_cases env s with h | ⟨mtime, uids, hpending, h⟩
  · exact .inl (by rw [h])
  · right
    rw [h, Engine.resync_eq]
    exact ⟨mtime, hpending⟩

/-- The uid map after the refresh of a tick. -/
theorem refresh_uidOf (env : Env) (s : Sys) :
    (refresh env s).state.eng.uidOf = s.eng.uidOf ∨
      (Op.tick env).Adopts s (refresh env s).state.eng.uidOf := by
  have hchanged := reloadIfChanged_uidOf env s
  rw [refresh]
  cases hreload : reloadIfChanged env s with
  | err s' =>
      rw [hreload] at hchanged
      exact hchanged
  | ok s' =>
      rw [hreload, Outcome.state_ok] at hchanged
      rw [Outcome.bind_ok]
      rcases sync_uidOf env s' with h | ⟨mtime, hpending⟩
      · rw [h]
        exact hchanged
      · have hbefore : Pending env (reloadIfChanged env s).state mtime
            (syncPackages env s').state.eng.uidOf := by
          rw [hreload]
          exact hpending
        exact .inr (.inr ⟨mtime, pending_of_reloadIfChanged hbefore⟩)

/-- **Where the uid map of an operation comes from.** -/
theorem perform_uidOf (op : Op) (s : Sys) :
    (op.perform s).eng.uidOf = s.eng.uidOf ∨ op.Adopts s (op.perform s).eng.uidOf := by
  cases op with
  | tick env =>
      show (tick env s).state.eng.uidOf = _ ∨
        (Op.tick env).Adopts s (tick env s).state.eng.uidOf
      rw [(keepsConfig_tick env s).uidOf]
      exact refresh_uidOf env s
  | reload env => exact reload_uidOf env s
  | apply env candidate =>
      show (applyRulesFile env candidate s).state.eng.uidOf = _ ∨ _
      rcases applyRulesFile_cases env candidate s with h | ⟨rules, haccepts, h⟩
      · exact .inl (by rw [h, Outcome.state_err])
      · rw [Op.perform, Op.outcome, h]
        exact (reload_uidOf env (s.writeRules env rules)).imp_right
          fun hres => ⟨⟨rules, haccepts⟩, hres⟩
  | extension env key minutes =>
      obtain ⟨eng, h, hkeeps⟩ := perform_extension env key minutes s
      rw [h]
      exact .inl hkeeps.uidOf
  | sync env => exact sync_uidOf env s
  | killed uid => exact .inl rfl

/-! ## One operation -/

/-- A blocked uid stays free of protected packages when the uid map does, or
when the new one spares it. -/
theorem not_exempt_of_adoptionSpares {op : Op} {s : Sys}
    (hs : BlocksOnly (fun uid => ¬ Exempt s.eng.uidOf uid) s.eng) (hop : AdoptionSpares op s) :
    BlocksOnly (fun uid => ¬ Exempt (op.perform s).eng.uidOf uid) s.eng := by
  refine ⟨fun uid huid hexempt => ?_, hs.kernel⟩
  rcases perform_uidOf op s with h | h
  · exact hs.engine uid huid (h ▸ hexempt)
  · exact hop _ h uid hexempt huid

/-- **What a tick wants blocked is no protected package's uid.** -/
theorem not_exempt_of_wantsBlocked {env : Env} {s : Sys} {uid : Uid} (hs : Protects s.eng)
    (hspare : EntriesSpare env s) (hwant : WantsBlocked env s uid) :
    ¬ Exempt (tick env s).state.eng.uidOf uid := by
  rw [(keepsConfig_tick env s).uidOf]
  intro hexempt
  obtain ⟨mid, hrefresh, hwant⟩ := hwant
  obtain ⟨v, hv, rfl, hblock⟩ := exists_verdict_of_want hwant
  rw [hrefresh, Outcome.state_ok] at hexempt
  have hkey := hspare.unshared mid hrefresh v hv hblock hexempt
  have hloaded := hspare.loaded v ⟨mid, hrefresh, hv⟩ hblock hkey
  -- so the list was there when this entry was reached
  have hmid : mid.eng.ListLoaded := by
    have hchanged := listLoaded_reloadIfChanged hs.loaded hloaded
    obtain ⟨s', hreload, hsync⟩ := Outcome.bind_eq_ok_iff.mp hrefresh
    rw [hreload, Outcome.state_ok] at hchanged
    have hframe := (keepsRules_syncPackages env s').protectedPkgs
    rw [hsync, Outcome.state_ok] at hframe
    rw [Engine.ListLoaded, hframe]
    exact hchanged
  have htarget := (target_eq_some_iff.mp (target_of_mem_verdicts hv)).2.2
  have hprotected := (keepsSetup_prepare env mid.eng).protectedPkgs
  rw [Engine.isProtected, hprotected] at htarget
  rw [← Engine.isProtected, isProtected_of_listLoaded hmid hkey] at htarget
  cases htarget

/-- A file time is recorded by a reload only. -/
theorem loaded_perform (op : Op) {s : Sys} (hs : s.eng.lastMtime.isSome → s.eng.ListLoaded) :
    (op.perform s).eng.lastMtime.isSome → (op.perform s).eng.ListLoaded := by
  have hsync (env : Env) (s : Sys) (hs : s.eng.lastMtime.isSome → s.eng.ListLoaded) :
      (syncPackages env s).state.eng.lastMtime.isSome →
        (syncPackages env s).state.eng.ListLoaded := by
    have hkeeps := keepsRules_syncPackages env s
    rw [Engine.ListLoaded, hkeeps.protectedPkgs, hkeeps.lastMtime]
    exact hs
  cases op with
  | tick env =>
      have hrefreshed : (refresh env s).state.eng.lastMtime.isSome →
          (refresh env s).state.eng.ListLoaded := by
        refine Outcome.bind_state (p := fun s : Sys => s.eng.lastMtime.isSome → s.eng.ListLoaded)
          ?_ fun s' _ hs' => hsync env s' hs'
        unfold reloadIfChanged
        split
        next => exact hs
        next =>
          split_ifs
          · exact hs
          · exact fun _ => listLoaded_reload env s
      have hkeeps := keepsConfig_tick env s
      rw [Op.perform, Op.outcome, Engine.ListLoaded, hkeeps.protectedPkgs, hkeeps.lastMtime]
      exact hrefreshed
  | reload env => exact fun _ => listLoaded_reload env s
  | apply env candidate =>
      rw [Op.perform, Op.outcome]
      rcases applyRulesFile_cases env candidate s with h | ⟨rules, -, h⟩
      · rw [h]
        exact hs
      · rw [h]
        exact fun _ => listLoaded_reload env (s.writeRules env rules)
  | extension env key minutes =>
      obtain ⟨eng, h, hkeeps⟩ := perform_extension env key minutes s
      rw [h, Engine.ListLoaded, hkeeps.protectedPkgs, hkeeps.lastMtime]
      exact hs
  | sync env => exact hsync env s hs
  | killed uid => exact hs

/-- A tick keeps the property. -/
theorem protects_tick {env : Env} {s : Sys} (hs : Protects s.eng) (hspare : EntriesSpare env s)
    (hadopt : (tick env s).isOk = false → AdoptionSpares (.tick env) s) :
    Protects (tick env s).state.eng := by
  refine ⟨?_, loaded_perform (.tick env) hs.loaded⟩
  have hwanted : ∀ uid, WantsBlocked env s uid → ¬ Exempt (tick env s).state.eng.uidOf uid :=
    fun uid hwant => not_exempt_of_wantsBlocked hs hspare hwant
  by_cases hok : (tick env s).isOk = true
  · -- only what was wanted is blocked afterwards
    have hkernel : BlocksOnly (fun _ => True) (tick env s).state.eng :=
      blocksOnly_tick (hs.blocks.mono fun _ _ => trivial) fun _ _ => trivial
    exact ⟨fun uid huid => hwanted uid ((mem_blocked_of_tick hok).mp huid), hkernel.kernel⟩
  · -- stopped halfway: what was blocked before may still be
    have hbefore : BlocksOnly (fun uid => ¬ Exempt (tick env s).state.eng.uidOf uid) s.eng :=
      not_exempt_of_adoptionSpares hs.blocks (hadopt (by simpa using hok))
    exact blocksOnly_tick hbefore hwanted

/-- The other operations block nothing new. -/
theorem protects_perform {op : Op} {s : Sys} (hs : Protects s.eng) (hop : ∀ env, op ≠ .tick env)
    (hadopt : AdoptionSpares op s) : Protects (op.perform s).eng := by
  obtain ⟨hgate, hblocked⟩ := perform_blocks s hop
  exact ⟨(not_exempt_of_adoptionSpares hs.blocks hadopt).congr hgate hblocked,
    loaded_perform op hs.loaded⟩

/-- **No uid of a statically protected package is blocked**, in the engine or
in the kernel, in any state of a run that meets the condition. -/
theorem blocked_not_exempt {d : Daemon}
    (hd : daemon.ReachableWhen SparesProtected d) :
    d.Holds fun s => BlocksOnly (fun uid => ¬ Exempt s.eng.uidOf uid) s.eng := by
  have hprotects : d.Holds fun s => Protects s.eng := by
    refine daemon_invariant (fun fs env _ => ?_) (fun s op hs hcond => ?_)
      (fun s fs hs => ⟨hs.blocks, hs.loaded⟩) hd
    · refine ⟨blocksOnly_new env fs, fun hmtime => ?_⟩
      rw [(new_frame env fs).2.2.1] at hmtime
      cases hmtime
    · cases op with
      | tick env => exact protects_tick hs hcond.1 hcond.2
      | reload env => exact protects_perform hs (by simp) hcond
      | apply env candidate => exact protects_perform hs (by simp) hcond
      | extension env key minutes => exact protects_perform hs (by simp) hcond
      | sync env => exact protects_perform hs (by simp) hcond
      | killed uid => exact protects_perform hs (by simp) hcond
  cases d with
  | down fs => trivial
  | up s => exact hprotects.blocks

/-! ## Where the list is not loaded -/

/-- The rules file is gone, the backup blocks the system UI. -/
def backupOnlyFiles : Fs where
  rules := none
  backup := some (.json (Rules.blocking "0:com.android.systemui").toJson)
  state := none
  packages := some ⟨"com.android.systemui 10050", 1⟩

/-- Rules for an ordinary app. -/
def ordinaryFiles : Fs where
  rules := some ⟨.json (Rules.blocking "0:com.game").toJson, 1⟩
  backup := none
  state := none
  packages := some ⟨"com.android.systemui 10050\ncom.game 10001", 1⟩

theorem ordinaryFiles_spares :
    SparesProtected (.up (Engine.new (.quiet 100) ordinaryFiles)) (.run (.tick (.quiet 100))) := by
  have hok : (tick (.quiet 100) (Engine.new (.quiet 100) ordinaryFiles)).isOk = true := by
    decide +kernel
  refine ⟨⟨fun v _ _ _ => .inr (by decide +kernel), fun mid hmid => ?_⟩,
    fun hfail => by rw [hok] at hfail; cases hfail⟩
  have hstate : (refresh (.quiet 100) (Engine.new (.quiet 100) ordinaryFiles)).state = mid := by
    rw [hmid, Outcome.state_ok]
  subst hstate
  decide +kernel

theorem blocked_not_exempt_ordinaryFiles :
    (Daemon.up ((Op.tick (.quiet 100)).perform (Engine.new (.quiet 100) ordinaryFiles))).Holds
      fun s => BlocksOnly (fun uid => ¬ Exempt s.eng.uidOf uid) s.eng :=
  blocked_not_exempt (reachable_perform (reachable_new trivial) ordinaryFiles_spares)

/-- A tick with the built-in protection not loaded blocks the system UI. -/
theorem not_blocked_not_exempt :
    ¬ ∀ d, daemon.Reachable d →
      d.Holds fun s => ∀ uid ∈ s.eng.blocked, ¬ Exempt s.eng.uidOf uid := by
  intro h
  have hstarted : daemon.Reachable (.up (Engine.new (.quiet 100) backupOnlyFiles)) :=
    reachable_new trivial
  have hticked : daemon.Reachable
      (.up ((Op.tick (.quiet 100)).perform (Engine.new (.quiet 100) backupOnlyFiles))) :=
    reachable_perform hstarted trivial
  refine h _ hticked 10050 (by decide +kernel) ⟨"0:com.android.systemui", ?_, by decide⟩
  decide +kernel

end Ningshi
