import Ningshi.Engine.Entries
import Ningshi.ExtensionCap

/-!
# When granted minutes take effect

A request for extension minutes goes to the uid of its key, or to the group of
that id.  The verdicts look elsewhere: an app rule at the extension of its uid,
a group always at its own.  An app rule that is parked while its app is a member
of a group makes the two disagree, and a daily reset that is still due takes
back what has just been granted.

`takesEffect_iff` says exactly when granted minutes exempt every entry that
governs the key, in every tick of the day before the stored deadline.
-/

namespace Ningshi

open Std FiniteMap Transition

/-! ## What is to be exempted -/

/-- The entry governs the key by one of its own keys, or as the group of this id. -/
def Entry.GovernsKey (key k : String) : Entry → Prop
  | .app key' _ => k = key' ∧ k = key
  | .group gid rule => k ∈ rule.members ∧ (k = key ∨ gid = key)

/-- An enabled entry that governs the key and is evaluated for this uid. -/
structure Evaluated (eng : Engine) (key : String) (entry : Entry) (uid : Uid) : Prop where
  listed : entry ∈ eng.rules.entries
  enabled : entry.enabled = true
  governs : ∃ k, entry.GovernsKey key k ∧ eng.target k = some uid

/-- The entry is evaluated with its extension active, and does not block. -/
structure ExtensionApplies (now : NowParts) (eng : Engine) (entry : Entry) (uid : Uid) : Prop where
  extended : entry.extended now.epoch uid eng = true
  allowed : ∀ screenOff, entry.blocks now screenOff uid eng = false

/-- The rules, the packages and what is derived from them. -/
structure SameSetting (eng eng' : Engine) : Prop where
  rules : eng'.rules = eng.rules
  uidOf : eng'.uidOf = eng.uidOf
  protectedPkgs : eng'.protectedPkgs = eng.protectedPkgs
  tzSecs : eng'.tzSecs = eng.tzSecs

/-- If the operation is a tick, it is one of this local day. -/
def Op.OnDay (date : Int) (s : Sys) : Op → Prop
  | .tick env => ∀ mid, refresh env s = .ok mid → (mid.eng.nowParts env.epoch).date = date
  | _ => True

/-- Any run on one local day that leaves rules and packages as they are. -/
inductive Undisturbed (date : Int) : Sys → Sys → Prop
  | refl (s : Sys) : Undisturbed date s s
  | run {s s' : Sys} {op : Op} (hrun : Undisturbed date s s')
      (hsetting : SameSetting s'.eng (op.perform s').eng) (hday : op.OnDay date s') :
      Undisturbed date s (op.perform s')
  | files {s s' : Sys} {fs : Fs} (hrun : Undisturbed date s s') :
      Undisturbed date s { s' with fs := fs }

/-- In every tick of the day before the stored deadline, every entry that
governs the key is exempt. -/
def TakesEffect (env : Env) (key : String) (s : Sys) : Prop :=
  ∀ s', Undisturbed (s.eng.nowParts env.epoch).date s s' →
    ∀ tickEnv mid, refresh tickEnv s' = .ok mid → SameSetting s.eng mid.eng →
      (mid.eng.nowParts tickEnv.epoch).date = (s.eng.nowParts env.epoch).date →
      ahead (s.eng.extensionOf (s.eng.ownerOf key)) tickEnv.epoch = true →
      ∀ entry uid, Evaluated (mid.eng.prepare tickEnv) key entry uid →
        ExtensionApplies ((mid.eng.prepare tickEnv).nowParts tickEnv.epoch)
          (mid.eng.prepare tickEnv) entry uid

/-! ## The condition -/

/-- Where the entry looks for its extension. -/
def Entry.owner (uid : Uid) : Entry → Owner
  | .app _ _ => .uid uid
  | .group gid _ => .group gid

/-- The deadline a request leads to. -/
def Engine.requestedUntil (env : Env) (key : String) (minutes : UInt32) (eng : Engine) : Nat :=
  extendedUntil (eng.extensionOf (eng.ownerOf key)) env.epoch
    (min minutes (dailyExtensionLimit - eng.grantedTo (eng.ownerOf key)))

/-- The day of the request has been reset, and every entry that governs the key
looks where the request goes, or has an extension of its own for as long. -/
def EffectAssured (env : Env) (key : String) (minutes : UInt32) (eng : Engine) : Prop :=
  ∀ entry uid, Evaluated eng key entry uid →
    eng.lastDay = some (eng.nowParts env.epoch).date ∧
      (entry.owner uid = eng.ownerOf key ∨
        ∀ t < eng.requestedUntil env key minutes,
          (eng.nowParts t).date = (eng.nowParts env.epoch).date →
            ahead (eng.extensionOf (entry.owner uid)) t = true)

section Lookups

variable {eng eng' : Engine} {key : String} {entry : Entry} {uid : Uid} {now : NowParts}

theorem extended_eq (now : Nat) (uid : Uid) (eng : Engine) (entry : Entry) :
    entry.extended now uid eng = ahead (eng.extensionOf (entry.owner uid)) now := by
  cases entry with
  | app key rule => rfl
  | group gid rule => rfl

theorem ahead_iff {deadline : Option Nat} {now : Nat} :
    ahead deadline now = true ↔ ∃ t, deadline = some t ∧ now < t := by
  cases deadline with
  | none => simp [ahead]
  | some t => simp [ahead]

/-- An active extension exempts. -/
theorem exempt_of_extended (h : entry.extended now.epoch uid eng = true) :
    ExtensionApplies now eng entry uid := by
  refine ⟨h, fun screenOff => ?_⟩
  rw [Entry.blocks_eq, h]
  simp [eval]

theorem Evaluated.congr (h : Evaluated eng key entry uid) (hsetting : SameSetting eng eng') :
    Evaluated eng' key entry uid := by
  obtain ⟨hlisted, henabled, k, hgoverns, htarget⟩ := h
  refine ⟨hsetting.rules ▸ hlisted, henabled, k, hgoverns, ?_⟩
  rw [Engine.target, Engine.isProtected, hsetting.uidOf, hsetting.protectedPkgs]
  exact htarget

theorem SameSetting.refl (eng : Engine) : SameSetting eng eng := ⟨rfl, rfl, rfl, rfl⟩

theorem SameSetting.symm (h : SameSetting eng eng') : SameSetting eng' eng :=
  ⟨h.rules.symm, h.uidOf.symm, h.protectedPkgs.symm, h.tzSecs.symm⟩

theorem SameSetting.trans {eng'' : Engine} (h : SameSetting eng eng')
    (h' : SameSetting eng' eng'') : SameSetting eng eng'' :=
  ⟨h'.rules.trans h.rules, h'.uidOf.trans h.uidOf, h'.protectedPkgs.trans h.protectedPkgs,
    h'.tzSecs.trans h.tzSecs⟩

theorem KeepsSetup.sameSetting (h : KeepsSetup eng eng') : SameSetting eng eng' :=
  ⟨h.rules, h.uidOf, h.protectedPkgs, h.tzSecs⟩

/-- An entry looks at the extension of a uid in use, or of a group. -/
theorem inUse_owner (h : Evaluated eng key entry uid) (u : Uid) (hu : entry.owner uid = .uid u) :
    Live eng.uidOf u := by
  obtain ⟨-, -, k, -, htarget⟩ := h
  cases entry with
  | app key' rule => exact ⟨k, Owner.uid.inj hu ▸ (target_eq_some_iff.mp htarget).1⟩
  | group gid rule => cases hu

end Lookups

/-! ## What a run leaves of a deadline -/

/-- Deadlines of groups and of uids in use are not lost or moved backwards. -/
def LiveDeadlinesKept (eng eng' : Engine) : Prop :=
  ∀ owner, (∀ u, owner = .uid u → Live eng.uidOf u) → ∀ t, eng.extensionOf owner = some t →
    ∃ t', eng'.extensionOf owner = some t' ∧ t ≤ t'

section Run

variable {s s' : Sys} {eng eng' eng'' : Engine} {date : Int} {op : Op}

theorem DeadlinesKept.live (h : DeadlinesKept eng eng') : LiveDeadlinesKept eng eng' :=
  fun owner _ t ht => h owner t ht

theorem LiveDeadlinesKept.trans (h : LiveDeadlinesKept eng eng')
    (h' : LiveDeadlinesKept eng' eng'') (huidOf : eng'.uidOf = eng.uidOf) :
    LiveDeadlinesKept eng eng'' := by
  intro owner hlive t ht
  obtain ⟨t', ht', hle⟩ := h owner hlive t ht
  obtain ⟨t'', ht'', hle'⟩ := h' owner (huidOf ▸ hlive) t' ht'
  exact ⟨t'', ht'', hle.trans hle'⟩

theorem KeepsExtensions.deadlinesKept (h : KeepsExtensions eng eng')
    (huidOf : eng'.uidOf = eng.uidOf) : LiveDeadlinesKept eng eng' := by
  intro owner hlive t ht
  refine ⟨t, ?_, le_rfl⟩
  rw [← ht]
  cases owner with
  | uid u => exact h.extensionUntil.getElem? (huidOf ▸ hlive u rfl)
  | group gid => exact congrArg (fun m : KeyMap Nat => m[gid]?) h.groupExtensionUntil

/-- A tick of the day that is being counted does not reset it. -/
theorem not_resetsDay (hlast : s.eng.lastDay = some date)
    (huidOf : (op.perform s).eng.uidOf = s.eng.uidOf) (hday : op.OnDay date s) :
    ¬ op.ResetsDay s := by
  cases op with
  | tick env =>
      rintro ⟨mid, hmid, hne⟩
      have hrefreshed : (refresh env s).state.eng.uidOf = s.eng.uidOf :=
        (keepsConfig_tick env s).uidOf.symm.trans huidOf
      have hcounters := keepsCounters_refresh hrefreshed
      rw [hmid, Outcome.state_ok] at hcounters
      exact hne ((hcounters.lastDay.trans hlast).trans (congrArg some (hday mid hmid).symm))
  | _ => exact id

/-- **What one operation of the day leaves**: the day and the deadlines. -/
theorem perform_undisturbed (hlast : s.eng.lastDay = some date)
    (huidOf : (op.perform s).eng.uidOf = s.eng.uidOf) (hday : op.OnDay date s) :
    (op.perform s).eng.lastDay = some date ∧ LiveDeadlinesKept s.eng (op.perform s).eng := by
  by_cases hop : ∀ env key minutes, op ≠ .extension env key minutes
  · have hkeeps := keepsExtensions_perform hop huidOf (not_resetsDay hlast huidOf hday)
    exact ⟨hkeeps.lastDay.trans hlast, hkeeps.deadlinesKept huidOf⟩
  · push Not at hop
    obtain ⟨env, key, minutes, rfl⟩ := hop
    cases hext : s.eng.addExtension env key minutes with
    | ok result =>
        have hgrants := addExtension_grants hext
        simp only [Op.perform, Op.outcome, hext, Outcome.state_ok]
        exact ⟨hgrants.lastDay.trans hlast, hgrants.deadlinesKept.live⟩
    | error message =>
        simp only [Op.perform, Op.outcome, hext, Outcome.state_err]
        exact ⟨hlast, (SameExtensions.refl _).deadlinesKept.live⟩

/-- **What a whole run of the day leaves.** -/
theorem Undisturbed.keeps (hrun : Undisturbed date s s') (hlast : s.eng.lastDay = some date) :
    s'.eng.lastDay = some date ∧ SameSetting s.eng s'.eng ∧ LiveDeadlinesKept s.eng s'.eng := by
  induction hrun with
  | refl => exact ⟨hlast, .refl _, (SameExtensions.refl _).deadlinesKept.live⟩
  | run _ hsetting hday ih =>
      obtain ⟨hlast', hsame, hkept⟩ := ih
      obtain ⟨hlast'', hkept'⟩ := perform_undisturbed hlast' hsetting.uidOf hday
      exact ⟨hlast'', hsame.trans hsetting, hkept.trans hkept' hsame.uidOf⟩
  | files _ ih => exact ih

end Run

/-! ## Exactly when granted minutes take effect -/

/-- Surroundings in which no file can be read. -/
def Env.blind (epoch : Nat) : Env := { Env.quiet epoch with fails := fun _ => true }

/-- Then a refresh changes nothing. -/
theorem refresh_blind (epoch : Nat) (s : Sys) : refresh (.blind epoch) s = .ok s := rfl

section Effect

variable {env : Env} {key : String} {minutes add : UInt32} {eng eng' : Engine} {fs : Fs}

/-- The stored deadline is the one that was asked for. -/
theorem extensionOf_requested (h : Grants env.epoch (eng.ownerOf key) minutes add eng eng') :
    eng'.extensionOf (eng.ownerOf key) = some (eng.requestedUntil env key minutes) := by
  rw [h.deadline, (grant_eq_ok h.amount).2]
  rfl

/-- The deadline of a request that is granted minutes is ahead. -/
theorem lt_requestedUntil (h : Grants env.epoch (eng.ownerOf key) minutes add eng eng')
    (hpos : 0 < add) : env.epoch < eng.requestedUntil env key minutes := by
  have hadd : 0 < add.toNat := UInt32.lt_iff_toNat_lt.mp hpos
  rw [Engine.requestedUntil, ← (grant_eq_ok h.amount).2, extendedUntil]
  omega

/-- Granted minutes that take effect are assured: a tick at once, in surroundings
where nothing is read, would find them missing otherwise. -/
theorem assured_of_takesEffect (hgrants : Grants env.epoch (eng.ownerOf key) minutes add eng eng')
    (hpos : 0 < add) (heffect : TakesEffect env key ⟨eng', fs⟩) :
    EffectAssured env key minutes eng := by
  have hsetting := hgrants.setup.sameSetting
  have howner : eng'.ownerOf key = eng.ownerOf key := by
    rw [Engine.ownerOf, Engine.ownerOf, hsetting.uidOf]
  have hparts (t : Nat) : eng'.nowParts t = eng.nowParts t := by
    rw [Engine.nowParts, Engine.nowParts, hsetting.tzSecs]
  intro entry uid hevaluated
  have hexempt (t : Nat) (hlt : t < eng.requestedUntil env key minutes)
      (hdate : (eng'.nowParts t).date = (eng'.nowParts env.epoch).date) :
      ahead ((eng'.prepare (.blind t)).extensionOf (entry.owner uid)) t = true := by
    have hahead : ahead (eng'.extensionOf (eng'.ownerOf key)) t = true := by
      rw [howner]
      exact ahead_iff.mpr ⟨_, extensionOf_requested hgrants, hlt⟩
    have hprepared := hsetting.trans (keepsSetup_prepare (.blind t) eng').sameSetting
    rw [← extended_eq]
    exact (heffect ⟨eng', fs⟩ (.refl _) (.blind t) ⟨eng', fs⟩ (refresh_blind t _) (.refl _) hdate
      hahead entry uid (hevaluated.congr hprepared)).extended
  have hlast : eng'.lastDay = some (eng'.nowParts env.epoch).date := by
    by_contra hne
    -- the daily reset that is due takes back what was granted
    have hnone := noExtensions_dailyReset hne
    have hsame := sameExtensions_prepare (.blind env.epoch) eng'
    have hmissing := hexempt env.epoch (lt_requestedUntil hgrants hpos) rfl
    rw [hsame.extensionOf] at hmissing
    exact absurd ((congrArg (fun d => ahead d env.epoch) (hnone.extensionOf _)).symm.trans hmissing)
      Bool.false_ne_true
  refine ⟨?_, ?_⟩
  · rw [← hgrants.lastDay, hlast, hparts]
  · by_cases hown : entry.owner uid = eng.ownerOf key
    · exact .inl hown
    · refine .inr fun t ht hdate => ?_
      have hday : eng'.lastDay = some (eng'.nowParts t).date := by
        rw [hlast, hparts, hparts, hdate]
      have hahead := hexempt t ht (by rw [hparts, hparts, hdate])
      have hsame : SameExtensions eng' (eng'.prepare (.blind t)) :=
        sameExtensions_prepare_of_day hday
      rw [hsame.extensionOf, (hgrants.others _ hown).1] at hahead
      exact hahead

/-- Assured minutes take effect, whatever else happens on the day. -/
theorem takesEffect_of_assured (hgrants : Grants env.epoch (eng.ownerOf key) minutes add eng eng')
    (hassured : EffectAssured env key minutes eng) : TakesEffect env key ⟨eng', fs⟩ := by
  have hsetting := hgrants.setup.sameSetting
  have howner : eng'.ownerOf key = eng.ownerOf key := by
    rw [Engine.ownerOf, Engine.ownerOf, hsetting.uidOf]
  have hparts (t : Nat) : eng'.nowParts t = eng.nowParts t := by
    rw [Engine.nowParts, Engine.nowParts, hsetting.tzSecs]
  intro s' hrun tickEnv mid hrefresh hmid hdate hahead entry uid hevaluated
  have hmid' : SameSetting eng mid.eng := hsetting.trans hmid
  have hentry : Evaluated eng key entry uid :=
    hevaluated.congr (hmid'.trans (keepsSetup_prepare tickEnv mid.eng).sameSetting).symm
  obtain ⟨hlast, hlooks⟩ := hassured entry uid hentry
  have hlast' : eng'.lastDay = some (eng'.nowParts env.epoch).date := by
    rw [hgrants.lastDay, hlast, hparts]
  obtain ⟨hday, hsame, hkept⟩ := hrun.keeps hlast'
  -- what the tick looks at is stored when the request has been granted
  have hgranted : ∃ t, eng'.extensionOf (entry.owner uid) = some t ∧ tickEnv.epoch < t := by
    rw [howner] at hahead
    by_cases hown : entry.owner uid = eng.ownerOf key
    · rw [hown]
      exact ahead_iff.mp hahead
    · obtain ⟨t, ht, hlt⟩ := ahead_iff.mp hahead
      obtain rfl := Option.some.inj (ht.symm.trans (extensionOf_requested hgrants))
      have htick : (eng.nowParts tickEnv.epoch).date = (eng.nowParts env.epoch).date := by
        rw [← hparts, ← hparts, ← hdate, Engine.nowParts, Engine.nowParts, hmid.tzSecs]
      obtain ⟨t', ht', hlt'⟩ := ahead_iff.mp (hlooks.resolve_left hown tickEnv.epoch hlt htick)
      exact ⟨t', (hgrants.others _ hown).1.trans ht', hlt'⟩
  have huidOf : mid.eng.uidOf = s'.eng.uidOf := hmid.uidOf.trans hsame.uidOf.symm
  have hrefreshed : KeepsCounters s'.eng mid.eng := by
    have hcounters := @keepsCounters_refresh tickEnv s'
    rw [hrefresh, Outcome.state_ok] at hcounters
    exact hcounters huidOf
  have hprepared : SameExtensions mid.eng (mid.eng.prepare tickEnv) := by
    refine sameExtensions_prepare_of_day ?_
    rw [hrefreshed.lastDay, hday, hdate]
  have hinUse := inUse_owner hentry
  obtain ⟨t, ht, hlt⟩ := hgranted
  rw [← hsetting.uidOf] at hinUse
  obtain ⟨t', ht', hle⟩ := (hkept.trans (hrefreshed.keepsExtensions.deadlinesKept huidOf)
    hsame.uidOf) (entry.owner uid) hinUse t ht
  refine exempt_of_extended ?_
  rw [extended_eq, hprepared.extensionOf]
  exact ahead_iff.mpr ⟨t', ht', Nat.lt_of_lt_of_le hlt hle⟩

/-- A request whose minutes are known was granted. -/
theorem granted_of_amount
    (h : (eng.addExtension env key minutes).toOption.map Prod.fst = some add) :
    ∃ eng', eng.addExtension env key minutes = .ok (add, eng') := by
  cases hok : eng.addExtension env key minutes with
  | error message =>
      rw [hok] at h
      cases h
  | ok result =>
      obtain ⟨granted, eng'⟩ := result
      rw [hok] at h
      obtain rfl : granted = add := Option.some.inj h
      exact ⟨eng', rfl⟩

/-- **Exactly when granted minutes take effect.** -/
theorem takesEffect_iff (h : eng.addExtension env key minutes = .ok (add, eng')) (hpos : 0 < add) :
    TakesEffect env key ⟨eng', fs⟩ ↔ EffectAssured env key minutes eng :=
  ⟨assured_of_takesEffect (addExtension_grants h) hpos,
    takesEffect_of_assured (addExtension_grants h)⟩

end Effect

/-- An app that is always blocked, on a day that has been reset. -/
def blockedApp : Engine :=
  { Engine.blank .start with
    rules := Rules.blocking "0:com.game"
    uidOf := insertAll [("0:com.game", 10001)] ∅
    lastDay := some 0 }

/-- Five minutes for it take effect. -/
theorem takesEffect_blockedApp :
    ∃ eng', blockedApp.addExtension (.quiet 100) "0:com.game" 5 = .ok (5, eng') ∧
      TakesEffect (.quiet 100) "0:com.game" ⟨eng', ⟨none, none, none, none⟩⟩ := by
  obtain ⟨eng', hok⟩ : ∃ eng',
      blockedApp.addExtension (.quiet 100) "0:com.game" 5 = .ok (5, eng') :=
    granted_of_amount (by decide +kernel)
  refine ⟨eng', hok, (takesEffect_iff hok (by decide)).mpr ?_⟩
  rintro entry uid ⟨hlisted, -, k, hgoverns, htarget⟩
  refine ⟨by decide +kernel, .inl ?_⟩
  have hentries : blockedApp.rules.entries = [.app "0:com.game" ⟨true, .alwaysBlocking⟩] := rfl
  rw [hentries] at hlisted
  obtain rfl := List.mem_singleton.mp hlisted
  obtain ⟨rfl, -⟩ := hgoverns
  have huid : blockedApp.target "0:com.game" = some 10001 := by decide +kernel
  obtain rfl := Option.some.inj (huid.symm.trans htarget)
  decide +kernel

/-! ## A parked app rule in a group -/

/-- An app rule that is switched off, and a group that blocks its app. -/
def parkedRules : Rules :=
  { Rules.default with
    apps := insertAll [("0:com.game", ⟨false, .default⟩)] ∅
    groups := insertAll [("games", ⟨"Games", true, false, ["0:com.game"], .alwaysBlocking⟩)] ∅ }

/-- The daemon after its first tick. -/
def parked : Sys :=
  (Op.tick (.quiet 100)).perform (Engine.new (.quiet 100)
    ⟨some ⟨.json parkedRules.toJson, 1⟩, none, none, some ⟨"com.game 10001", 1⟩⟩)

theorem parked_reachable : daemon.Reachable (.up parked) :=
  reachable_perform (reachable_new trivial) trivial

/-- Five minutes for the app are granted. -/
theorem parked_granted :
    ∃ eng', parked.eng.addExtension (.quiet 100) "0:com.game" 5 = .ok (5, eng') :=
  granted_of_amount (by decide +kernel)

theorem parked_evaluated :
    Evaluated parked.eng "0:com.game"
      (.group "games" ⟨"Games", true, false, ["0:com.game"], .alwaysBlocking⟩) 10001 where
  listed := mem_entries_group.mpr (by decide +kernel)
  enabled := rfl
  governs := ⟨"0:com.game", ⟨List.mem_singleton_self _, .inl rfl⟩, by decide +kernel⟩

/-- The group is evaluated without the minutes that were granted. -/
theorem not_takesEffect :
    ¬ ∀ (env : Env) (key : String) (minutes add : UInt32) (s : Sys) (eng' : Engine),
      daemon.Reachable (.up s) → s.eng.addExtension env key minutes = .ok (add, eng') → 0 < add →
        TakesEffect env key ⟨eng', s.fs⟩ := by
  intro h
  obtain ⟨eng', hok⟩ := parked_granted
  have heffect := h (.quiet 100) "0:com.game" 5 5 parked eng' parked_reachable hok (by decide)
  have hassured := assured_of_takesEffect (addExtension_grants hok) (by decide) heffect
  obtain ⟨-, hlooks⟩ := hassured _ _ parked_evaluated
  rcases hlooks with howner | hahead
  · revert howner
    decide +kernel
  · have hnow := hahead 100 (lt_requestedUntil (addExtension_grants hok) (by decide)) rfl
    revert hnow
    decide +kernel

end Ningshi
