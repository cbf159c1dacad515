import Ningshi.SchemaVersion

/-!
# A reload that fails and is tried again

A reload adopts the rules before it reads the package list, and clears the
cooldowns of toggled groups after it.  When the package list cannot be read,
the next attempt compares the new rules with themselves and finds nothing
toggled.  `harmless_iff` says what this means: failed attempts make no
difference exactly when there was nothing to clear.
-/

namespace Ningshi

open Std FiniteMap JsonDoc Transition

/-- The reads of the rules end as in the other surroundings. -/
structure SameReads (env env' : Env) : Prop where
  reloadRules : env'.fails .reloadRules = env.fails .reloadRules
  loadRules : env'.fails .loadRules = env.fails .loadRules
  loadBackup : env'.fails .loadBackup = env.fails .loadBackup

/-- Attempts to reload that find the package list unreadable, followed by one
that succeeds, on the same files. -/
structure Retry where
  s : Sys
  attempts : List Env
  env : Env
  uids : UidOf
  sameReads : ∀ env' ∈ attempts, SameReads env env'
  failing : ∀ env' ∈ attempts, s.fs.resolveUids env' .reloadPackages = none
  resolved : s.fs.resolveUids env .reloadPackages = some uids

/-- The pooling mode of a group differs between rules that both have it. -/
def Toggles (old new : Rules) (gid : String) : Prop :=
  ∃ g g', old.groups[gid]? = some g ∧ new.groups[gid]? = some g' ∧ g'.sharedPool ≠ g.sharedPool

/-- The group has a member with this uid. -/
def HasMember (rules : Rules) (uids : UidOf) (gid : String) (uid : Uid) : Prop :=
  ∃ g, rules.groups[gid]? = some g ∧ ∃ member ∈ g.members, uids[member]? = some uid

namespace Retry

variable (r : Retry)

/-- The state after the failed attempts. -/
def retried : Sys := r.attempts.foldl (fun s env => (reload env s).state) r.s

/-- The engine after the reload that succeeds. -/
def final : Engine := (reload r.env r.retried).state.eng

/-- The failed attempts made no difference, and the cooldowns of toggled groups
and of their members are gone. -/
structure Harmless : Prop where
  same : r.final = (reload r.env r.s).state.eng
  cleared : ∀ gid, Toggles r.s.eng.rules r.final.rules gid →
    r.final.groupCooldownUntil[gid]? = none ∧
      ∀ uid, HasMember r.final.rules r.final.uidOf gid uid → r.final.cooldownUntil[uid]? = none

/-- No group whose mode the files toggle has a cooldown, nor has any of its members. -/
def NothingToClear : Prop :=
  ∀ new, Rules.load (adoptedByReload r.env r.s) = some new →
    ∀ gid, Toggles r.s.eng.rules new gid →
      r.s.eng.groupCooldownUntil[gid]? = none ∧
        ∀ uid, HasMember new r.uids gid uid → r.s.eng.cooldownUntil[uid]? = none

end Retry

/-! ## What is cleared -/

theorem mem_toggledGroups_iff {old : Rules} {eng : Engine} {gid : String} :
    gid ∈ eng.toggledGroups old.sharedFlags ↔ Toggles old eng.rules gid := by
  simp only [Engine.toggledGroups, List.mem_map, List.mem_filter, Prod.exists, exists_and_right,
    exists_eq_right, ExtTreeMap.mem_toList_iff_getElem?_eq_some, Rules.sharedFlags,
    ExtTreeMap.getElem?_map, Option.map_eq_some_iff, Engine.toggled, bne_iff_ne]
  constructor
  · rintro ⟨flag, ⟨g, hg, rfl⟩, htoggled⟩
    cases hnew : eng.rules.groups[gid]? with
    | none => simp [hnew] at htoggled
    | some g' => exact ⟨g, g', hg, hnew, by simpa [hnew] using htoggled⟩
  · rintro ⟨g, g', hg, hnew, hne⟩
    exact ⟨g.sharedPool, ⟨g, hg, rfl⟩, by simpa [hnew] using hne⟩

theorem mem_memberUids_iff {eng : Engine} {gid : String} {uid : Uid} :
    uid ∈ eng.memberUids gid ↔ HasMember eng.rules eng.uidOf gid uid := by
  rw [Engine.memberUids, HasMember, List.mem_filterMap]
  cases eng.rules.groups[gid]? with
  | none => simp
  | some g => simp

/-- There is a cooldown that belongs to a toggled group. -/
theorem clearToggled_eq_self_iff {old : Rules} {eng : Engine} :
    eng.clearToggled old.sharedFlags = eng ↔ ∀ gid, Toggles old eng.rules gid →
      eng.groupCooldownUntil[gid]? = none ∧
        ∀ uid, HasMember eng.rules eng.uidOf gid uid → eng.cooldownUntil[uid]? = none := by
  have hfields : eng.clearToggled old.sharedFlags = eng ↔
      eraseAll (eng.toggledGroups old.sharedFlags) eng.groupCooldownUntil =
          eng.groupCooldownUntil ∧
        eraseAll ((eng.toggledGroups old.sharedFlags).flatMap eng.memberUids)
          eng.cooldownUntil = eng.cooldownUntil := by
    rw [Engine.clearToggled_eq]
    constructor
    · intro h
      exact ⟨congrArg Engine.groupCooldownUntil h, congrArg Engine.cooldownUntil h⟩
    · rintro ⟨hgroup, huid⟩
      rw [hgroup, huid]
  rw [hfields, eraseAll_eq_self_iff, eraseAll_eq_self_iff]
  simp only [List.mem_flatMap, mem_toggledGroups_iff, mem_memberUids_iff]
  constructor
  · rintro ⟨hgroup, huid⟩ gid htoggles
    exact ⟨hgroup gid htoggles, fun uid hmember => huid uid ⟨gid, htoggles, hmember⟩⟩
  · intro h
    exact ⟨fun gid htoggles => (h gid htoggles).1,
      fun uid ⟨gid, htoggles, hmember⟩ => (h gid htoggles).2 uid hmember⟩

/-- Clearing leaves nothing to clear. -/
theorem clearToggled_cleared {old : Rules} {eng eng' : Engine} {gid : String}
    (heng : eng' = eng.clearToggled old.sharedFlags) (htoggles : Toggles old eng'.rules gid) :
    eng'.groupCooldownUntil[gid]? = none ∧
      ∀ uid, HasMember eng'.rules eng'.uidOf gid uid → eng'.cooldownUntil[uid]? = none := by
  rw [Engine.clearToggled_eq] at heng
  subst heng
  have hgroup := mem_toggledGroups_iff.mpr htoggles
  refine ⟨?_, fun uid hmember => ?_⟩
  · exact (getElem?_eraseAll _ _ _).trans (if_pos hgroup)
  · refine (getElem?_eraseAll _ _ _).trans (if_pos ?_)
    exact List.mem_flatMap.mpr ⟨gid, hgroup, mem_memberUids_iff.mpr hmember⟩

/-! ## Reading the rules again -/

/-- **The four ways a reload gets its rules.** -/
theorem reloadRules_cases (env : Env) (s : Sys) :
    (∃ rules, Rules.load (s.fs.readRules env .reloadRules) = some rules ∧ reloadRules env s =
        ⟨{ s.eng with rules := rules, rulesSource := .file }, s.fs.refreshBackup env⟩) ∨
      Rules.load (s.fs.readRules env .reloadRules) = none ∧
        (s.eng.rulesSource = .file ∧ reloadRules env s = s ∨
          s.eng.rulesSource ≠ .file ∧
            ((∃ rules, Rules.load (s.fs.readRules env .loadRules) = some rules ∧
                reloadRules env s = ⟨{ s.eng with rules := rules, rulesSource := .file },
                  s.fs.refreshBackup env⟩) ∨
              Rules.load (s.fs.readRules env .loadRules) = none ∧
                reloadRules env s = ⟨s.eng.fallBack (s.fs.readBackup env), s.fs⟩)) := by
  cases hfirst : Rules.load (s.fs.readRules env .reloadRules) with
  | some rules => exact .inl ⟨rules, rfl, reloadRules_of_loads hfirst⟩
  | none =>
      refine .inr ⟨rfl, ?_⟩
      rw [reloadRules_of_unusable hfirst]
      by_cases hsource : s.eng.rulesSource = .file
      · exact .inl ⟨hsource, if_pos hsource⟩
      · rw [if_neg hsource]
        cases hsecond : Rules.load (s.fs.readRules env .loadRules) with
        | some rules => exact .inr ⟨hsource, .inl ⟨rules, rfl, loadRules_of_loads hsecond⟩⟩
        | none => exact .inr ⟨hsource, .inr ⟨rfl, loadRules_of_unusable hsecond⟩⟩

section Reads

variable {env env' : Env} (h : SameReads env env')

include h

theorem SameReads.readRules {call : FsCall} (hcall : call = .reloadRules ∨ call = .loadRules)
    (fs : Fs) : fs.readRules env' call = fs.readRules env call := by
  unfold Fs.readRules
  rcases hcall with rfl | rfl
  · rw [h.reloadRules]
  · rw [h.loadRules]

theorem SameReads.readBackup (fs : Fs) : fs.readBackup env' = fs.readBackup env := by
  unfold Fs.readBackup
  rw [h.loadBackup]

/-- The same reads lead to the same rules. -/
theorem SameReads.reloadRules_eng (s : Sys) :
    (Ningshi.reloadRules env' s).eng = (Ningshi.reloadRules env s).eng := by
  have hload (call : FsCall) (hcall : call = .reloadRules ∨ call = .loadRules) :
      Rules.load (s.fs.readRules env' call) = Rules.load (s.fs.readRules env call) := by
    rw [h.readRules hcall]
  simp only [Ningshi.reloadRules, Ningshi.loadRules, Engine.loadFrom, hload _ (.inl rfl),
    hload _ (.inr rfl), h.readBackup]
  cases Rules.load (s.fs.readRules env .reloadRules) with
  | some rules => rfl
  | none =>
      dsimp only [Option.map_none]
      split_ifs
      · rfl
      · cases Rules.load (s.fs.readRules env .loadRules) <;> rfl

end Reads

/-- The rules are those that reading them again leads to. -/
def RulesSettled (env : Env) (s : Sys) : Prop := (reloadRules env s).eng = s.eng

/-- **Reading the rules a second time changes nothing.** -/
theorem rulesSettled_of_reloadRules {env env' : Env} (h : SameReads env env') {s s' : Sys}
    (hrules : s'.eng.rules = (reloadRules env' s).eng.rules)
    (hsource : s'.eng.rulesSource = (reloadRules env' s).eng.rulesSource)
    (hfs : s'.fs = (reloadRules env' s).fs) : RulesSettled env s' := by
  have hread (call : FsCall) (hcall : call = .reloadRules ∨ call = .loadRules) :
      s'.fs.readRules env call = s.fs.readRules env' call := by
    obtain ⟨backup, hfs'⟩ := reloadRules_fs env' s
    rw [hfs, hfs', h.readRules hcall]
    rfl
  unfold RulesSettled
  rcases reloadRules_cases env' s with ⟨rules, hload, heq⟩ | ⟨hfirst, hkept | ⟨hne, hsecond⟩⟩
  · rw [heq] at hrules hsource
    rw [reloadRules_of_loads ((hread _ (.inl rfl)).symm ▸ hload)]
    exact Engine.withRules_self hrules hsource
  · rw [hkept.2] at hsource
    rw [reloadRules_of_unusable ((hread _ (.inl rfl)).symm ▸ hfirst),
      if_pos (hsource.trans hkept.1)]
  · rw [reloadRules_of_unusable ((hread _ (.inl rfl)).symm ▸ hfirst)]
    rcases hsecond with ⟨rules, -, heq⟩ | ⟨hload, heq⟩
    · -- now the live file counts as the source, and is not needed again
      rw [heq] at hsource
      rw [if_pos hsource]
    · obtain ⟨rules, source, hnotFile, hfall⟩ := Engine.fallBack_frame (s.fs.readBackup env')
      rw [heq, hfall] at hrules hsource
      rw [heq] at hfs
      rw [if_neg (by rw [hsource]; exact hnotFile),
        loadRules_of_unusable ((hread _ (.inr rfl)).symm ▸ hload), hfs, ← h.readBackup, hfall]
      exact Engine.withRules_self hrules hsource

/-- What was derived before does not matter. -/
@[simp] theorem deriveSettings_deriveSettings (env env' : Env) (eng : Engine) :
    (eng.deriveSettings env).deriveSettings env' = eng.deriveSettings env' := rfl

/-- The rules and what hangs on them are as after a first reload. -/
structure Attempted (env : Env) (s s' : Sys) : Prop where
  settled : RulesSettled env s'
  eng : ∃ env', s'.eng = (reloadRules env s).eng.deriveSettings env'
  fs : ∃ backup, s'.fs = { s.fs with backup := backup }

theorem settled_reload {env env' : Env} (h : SameReads env env') (s : Sys) :
    RulesSettled env (reload env' s).state := by
  obtain ⟨hrules, hsource, hfs⟩ := reload_loaded env' s
  exact rulesSettled_of_reloadRules h hrules hsource hfs

/-- The first failed attempt. -/
theorem attempted_first {env env' : Env} (h : SameReads env env') {s : Sys}
    (hfailing : s.fs.resolveUids env' .reloadPackages = none) :
    Attempted env s (reload env' s).state := by
  refine ⟨settled_reload h s, ⟨env', ?_⟩, reload_fs env' s⟩
  rw [reload_of_unresolved ((resolveUids_reloadRules env' env' s _).trans hfailing),
    Outcome.state_err, h.reloadRules_eng]

/-- **A further failed attempt changes nothing of importance.** -/
theorem attempted_next {env env' : Env} (h : SameReads env env') {s s' : Sys}
    (hs : Attempted env s s') (hfailing : s.fs.resolveUids env' .reloadPackages = none) :
    Attempted env s (reload env' s').state := by
  obtain ⟨earlier, heng⟩ := hs.eng
  obtain ⟨backup, hfs⟩ := hs.fs
  have hfailing' : s'.fs.resolveUids env' .reloadPackages = none := by
    rw [hfs]
    exact hfailing
  refine ⟨settled_reload h s', ⟨env', ?_⟩, ?_⟩
  · rw [reload_of_unresolved ((resolveUids_reloadRules env' env' s' _).trans hfailing'),
      Outcome.state_err, h.reloadRules_eng, hs.settled, heng, deriveSettings_deriveSettings]
  · obtain ⟨backup', hfs'⟩ := reload_fs env' s'
    exact ⟨backup', by rw [hfs', hfs]⟩

namespace Retry

variable (r : Retry)

/-- **The state after any number of failed attempts.** -/
theorem retried_cases : r.attempts = [] ∨ Attempted r.env r.s r.retried := by
  have hrun (attempts : List Env) (hreads : ∀ env' ∈ attempts, SameReads r.env env')
      (hfailing : ∀ env' ∈ attempts, r.s.fs.resolveUids env' .reloadPackages = none)
      (s : Sys) (hs : Attempted r.env r.s s) :
      Attempted r.env r.s (attempts.foldl (fun s env => (reload env s).state) s) := by
    induction attempts generalizing s with
    | nil => exact hs
    | cons env' attempts ih =>
        exact ih (fun e he => hreads e (List.mem_cons_of_mem _ he))
          (fun e he => hfailing e (List.mem_cons_of_mem _ he)) _
          (attempted_next (hreads env' List.mem_cons_self) hs
            (hfailing env' List.mem_cons_self))
  unfold retried
  have hreads := r.sameReads
  have hfailing := r.failing
  cases hattempts : r.attempts with
  | nil => exact .inl rfl
  | cons env' attempts =>
      rw [hattempts] at hreads hfailing
      exact .inr (hrun attempts (fun e he => hreads e (List.mem_cons_of_mem _ he))
        (fun e he => hfailing e (List.mem_cons_of_mem _ he)) _
        (attempted_first (hreads env' List.mem_cons_self) (hfailing env' List.mem_cons_self)))

/-- The engine of a first successful reload before cooldowns are cleared. -/
def unclearedFinal : Engine :=
  (((reloadRules r.env r.s).eng.deriveSettings r.env).withUids r.uids).recordMtime
    (r.s.fs.statRules r.env .restatRules)

/-- A first attempt that succeeds clears. -/
theorem reload_eng : (reload r.env r.s).state.eng =
    r.unclearedFinal.clearToggled r.s.eng.rules.sharedFlags := by
  obtain ⟨backup, hfs⟩ := reloadRules_fs r.env r.s
  rw [reload_of_resolved ((resolveUids_reloadRules _ _ _ _).trans r.resolved), Outcome.state_ok,
    hfs]
  rfl

/-- **A retry does not clear.** -/
theorem final_eq (hattempted : Attempted r.env r.s r.retried) : r.final = r.unclearedFinal := by
  obtain ⟨earlier, heng⟩ := hattempted.eng
  obtain ⟨backup, hfs⟩ := hattempted.fs
  obtain ⟨backup', hfs'⟩ := reloadRules_fs r.env r.retried
  have hres : (reloadRules r.env r.retried).fs.resolveUids r.env .reloadPackages =
      some r.uids := by
    rw [resolveUids_reloadRules, hfs]
    exact r.resolved
  have hrules : (r.retried.eng.deriveSettings r.env).rules = r.retried.eng.rules := rfl
  rw [final, reload_of_resolved hres, Outcome.state_ok, hattempted.settled,
    Engine.finishReload_of_same hrules, hfs', hfs, heng]
  rfl

/-! ## When nothing is lost -/

/-- The rules after a reload are those of the content it adopts; without any
they are the old ones or the built-in ones. -/
theorem reloadRules_adopts (env : Env) (s : Sys) :
    (∀ new, Rules.load (adoptedByReload env s) = some new → (reloadRules env s).eng.rules = new) ∧
      (Rules.load (adoptedByReload env s) = none → (reloadRules env s).eng.rules = s.eng.rules ∨
        (reloadRules env s).eng.rules = .default) := by
  unfold adoptedByReload
  rcases reloadRules_cases env s with ⟨rules, hload, heq⟩ |
    ⟨hfirst, ⟨hsource, heq⟩ | ⟨hsource, ⟨rules, hload, heq⟩ | ⟨hload, heq⟩⟩⟩
  · rw [heq, hload, Option.isSome_some, if_pos rfl, hload]
    exact ⟨fun new hnew => Option.some.inj hnew, fun hnone => (by cases hnone)⟩
  · rw [heq, hfirst, Option.isSome_none, if_neg Bool.false_ne_true, if_pos hsource]
    exact ⟨fun new hnew => (by cases hnew), fun _ => .inl rfl⟩
  · rw [heq, hfirst, Option.isSome_none, if_neg Bool.false_ne_true, if_neg hsource,
      adoptedByLoad, hload, Option.isSome_some, if_pos rfl, hload]
    exact ⟨fun new hnew => Option.some.inj hnew, fun hnone => (by cases hnone)⟩
  · rw [heq, hfirst, Option.isSome_none, if_neg Bool.false_ne_true, if_neg hsource,
      adoptedByLoad, hload, Option.isSome_none, if_neg Bool.false_ne_true]
    cases hbackup : Rules.load (s.fs.readBackup env) with
    | some rules =>
        refine ⟨fun new hnew => ?_, fun hnone => (by cases hnone)⟩
        simp only [Engine.fallBack, Engine.loadFrom, hbackup, Option.map_some, Option.getD_some]
        exact Option.some.inj hnew
    | none =>
        refine ⟨fun new hnew => (by cases hnew), fun _ => .inr ?_⟩
        simp only [Engine.fallBack, Engine.loadFrom, hbackup, Option.map_none, Option.getD_none]

/-- Rules have their own modes, and the built-in ones have no groups. -/
theorem not_toggles {old new : Rules} {gid : String} (h : new = old ∨ new = .default) :
    ¬ Toggles old new gid := by
  rintro ⟨g, g', hg, hg', hne⟩
  rcases h with rfl | rfl
  · rw [hg] at hg'
    obtain rfl := Option.some.inj hg'
    exact hne rfl
  · simp [Rules.default] at hg'

theorem nothingToClear_iff : r.NothingToClear ↔
    r.unclearedFinal.clearToggled r.s.eng.rules.sharedFlags = r.unclearedFinal := by
  obtain ⟨rules, source, heng⟩ := reloadRules_frame r.env r.s
  obtain ⟨hadopts, hkeeps⟩ := reloadRules_adopts r.env r.s
  obtain ⟨hrules, hgroup, huid, huids⟩ :
      r.unclearedFinal.rules = (reloadRules r.env r.s).eng.rules ∧
        r.unclearedFinal.groupCooldownUntil = r.s.eng.groupCooldownUntil ∧
        r.unclearedFinal.cooldownUntil = r.s.eng.cooldownUntil ∧
        r.unclearedFinal.uidOf = r.uids := by
    rw [unclearedFinal, heng]
    exact ⟨rfl, rfl, rfl, rfl⟩
  rw [clearToggled_eq_self_iff, hrules, hgroup, huid, huids]
  constructor
  · intro h gid htoggles
    cases hload : Rules.load (adoptedByReload r.env r.s) with
    | some new =>
        rw [hadopts new hload] at htoggles ⊢
        exact h new hload gid htoggles
    | none => exact absurd htoggles (not_toggles (hkeeps hload))
  · intro h new hload gid htoggles
    rw [hadopts new hload] at h
    exact h gid htoggles

/-- **Exactly when failed attempts to reload are harmless.** -/
theorem harmless_iff : r.Harmless ↔ r.attempts = [] ∨ r.NothingToClear := by
  constructor
  · intro hharmless
    refine r.retried_cases.imp_right fun hattempted => r.nothingToClear_iff.mpr ?_
    rw [← r.reload_eng, ← hharmless.same, r.final_eq hattempted]
  · intro h
    have hsame : r.final = r.unclearedFinal.clearToggled r.s.eng.rules.sharedFlags := by
      rcases r.retried_cases with hnone | hattempted
      · rw [← r.reload_eng, final, retried, hnone]
        rfl
      · rcases h with hnone | hnothing
        · rw [← r.reload_eng, final, retried, hnone]
          rfl
        · rw [r.final_eq hattempted, r.nothingToClear_iff.mp hnothing]
    exact ⟨hsame.trans r.reload_eng.symm, fun gid htoggles => clearToggled_cleared hsame htoggles⟩

end Retry

/-- Rules with one group of one app. -/
def groupRules (sharedPool : Bool) : Rules :=
  { Rules.default with
    groups := insertAll [("games", ⟨"Games", true, sharedPool, ["0:com.game"], .default⟩)] ∅ }

/-- The app is in a cooldown of its own when the file switches its group to a
shared pool; the package list can be read at the second attempt only. -/
def toggledRetry : Retry where
  s := {
    eng := { Engine.blank .start with
      rules := groupRules false
      rulesSource := .file
      uidOf := insertAll [("0:com.game", 10001)] ∅
      cooldownUntil := insertAll [(10001, 5000)] ∅ }
    fs := ⟨some ⟨.json (groupRules true).toJson, 2⟩, none, none, some ⟨"com.game 10001", 1⟩⟩ }
  attempts := [{ Env.quiet 100 with fails := fun call => call = .reloadPackages }]
  env := .quiet 160
  uids := (resolveUids (some "com.game 10001") []).getD ∅
  sameReads := fun env' henv' => by
    obtain rfl := List.mem_singleton.mp henv'
    exact ⟨rfl, rfl, rfl⟩
  failing := fun env' henv' => by
    obtain rfl := List.mem_singleton.mp henv'
    rfl
  resolved := rfl

/-- The cooldown of the old mode stays for good. -/
theorem not_harmless : ¬ ∀ r : Retry, r.Harmless := by
  intro h
  have hsame := congrArg (fun eng : Engine => eng.cooldownUntil[(10001 : Uid)]?)
    (h toggledRetry).same
  revert hsame
  decide +kernel

end Ningshi
