import Ningshi.Daemon
import Ningshi.Engine.Refresh
import Ningshi.Lib.Allowance

/-!
# The daily cap of extensions

Extension minutes are granted to a uid or to a group, and each has an allowance
of its own: the minutes granted so far, the deadline they have led to, and the
seconds during which it was ahead.  Between two daily resets, and with the uid
map unchanged, every request that is granted is a grant of the allowance, and
everything else a daemon does leaves deadlines and minutes alone.

`extension_cap` is the result for every run: no allowance exceeds two hours,
and none is active for longer than what was granted.
-/

namespace Ningshi

open Std FiniteMap Transition

/-- Whose extension a request is about. -/
inductive Owner where
  | uid (uid : Uid)
  | group (gid : String)
  deriving DecidableEq

namespace Engine

variable (eng : Engine)

/-- A key with a uid is about the uid, any other about the group of that id. -/
def ownerOf (key : String) : Owner := eng.uidOf[key]?.elim (.group key) .uid

/-- The deadline stored for an owner. -/
def extensionOf : Owner → Option Nat
  | .uid u => eng.extensionUntil[u]?
  | .group gid => eng.groupExtensionUntil[gid]?

/-- The minutes stored for an owner. -/
def grantedOf : Owner → Option UInt32
  | .uid u => eng.extGrantedToday[u]?
  | .group gid => eng.groupExtGrantedToday[gid]?

/-- The minutes recorded for an owner; without an entry there are none. -/
def grantedTo (owner : Owner) : UInt32 := (eng.grantedOf owner).getD 0

end Engine

/-- No extension is stored, as after a daily reset. -/
structure NoExtensions (eng : Engine) : Prop where
  extensionUntil : eng.extensionUntil = ∅
  groupExtensionUntil : eng.groupExtensionUntil = ∅
  extGrantedToday : eng.extGrantedToday = ∅
  groupExtGrantedToday : eng.groupExtGrantedToday = ∅

/-- The extension maps are the same, and the day they are for. -/
structure SameExtensions (eng eng' : Engine) : Prop where
  lastDay : eng'.lastDay = eng.lastDay
  extensionUntil : eng'.extensionUntil = eng.extensionUntil
  groupExtensionUntil : eng'.groupExtensionUntil = eng.groupExtensionUntil
  extGrantedToday : eng'.extGrantedToday = eng.extGrantedToday
  groupExtGrantedToday : eng'.groupExtGrantedToday = eng.groupExtGrantedToday

/-! ## The system of a day -/

/-- The daemon with a clock, and with what has been granted and used since the
daily reset. -/
structure CapState where
  clock : Nat
  sys : Sys
  /-- the minutes that were returned as granted -/
  granted : Owner → Nat
  /-- the seconds with an active extension -/
  active : Owner → Nat

inductive CapEvent where
  | second
  | run (op : Op)
  /-- the files are changed from outside -/
  | files (fs : Fs)

/-- The allowance of an owner. -/
def CapState.allowance (st : CapState) (owner : Owner) : Allowance where
  clock := st.clock
  granted := st.granted owner
  deadline := st.sys.eng.extensionOf owner
  active := st.active owner

/-- The minutes an operation returns as granted to this owner. -/
def Op.grants (s : Sys) (owner : Owner) : Op → Nat
  | .extension env key minutes =>
      match s.eng.addExtension env key minutes with
      | .ok (add, _) => if s.eng.ownerOf key = owner then add.toNat else 0
      | .error _ => 0
  | _ => 0

def CapState.next (st : CapState) : CapEvent → CapState
  | .second =>
      { st with
        clock := st.clock + 1
        active := fun owner => (st.allowance owner).second.active }
  | .run op =>
      { st with
        sys := op.perform st.sys
        granted := fun owner => st.granted owner + op.grants st.sys owner }
  | .files fs => { st with sys := { st.sys with fs := fs } }

/-- The operation reads the clock as it is now. -/
def Op.readsClock (clock : Nat) : Op → Prop
  | .tick env => env.epoch = clock
  | .extension env _ _ => env.epoch = clock
  | _ => True

/-- The operation is a tick that starts a new day. -/
def Op.ResetsDay (s : Sys) : Op → Prop
  | .tick env => ∃ mid, refresh env s = .ok mid ∧
      mid.eng.lastDay ≠ some (mid.eng.nowParts env.epoch).date
  | _ => False

/-- Between two daily resets and with the uid map unchanged. -/
def WithinDay (st : CapState) : CapEvent → Prop
  | .run op => op.readsClock st.clock ∧ (op.perform st.sys).eng.uidOf = st.sys.eng.uidOf ∧
      ¬ op.ResetsDay st.sys
  | _ => True

/-- A day starts with no extension. -/
def capDay : System CapState CapEvent :=
  .ofNext (fun st => NoExtensions st.sys.eng ∧ ∀ owner, st.granted owner = 0 ∧ st.active owner = 0)
    fun st event => some (st.next event)

/-- A tick that starts a new day stores no extension. -/
theorem noExtensions_dailyReset {today : Int} {eng : Engine} (h : eng.lastDay ≠ some today) :
    NoExtensions (eng.dailyReset today) := by
  rw [Engine.dailyReset, if_neg h]
  exact ⟨rfl, rfl, rfl, rfl⟩

/-- What holds of all allowances. -/
structure Capped (st : CapState) : Prop where
  granted_le : ∀ owner, st.granted owner ≤ 120
  recorded : ∀ owner, (st.sys.eng.grantedTo owner).toNat = st.granted owner
  active_le : ∀ owner, st.active owner ≤ 60 * st.granted owner

/-- No stored deadline is lost or moved backwards. -/
def DeadlinesKept (eng eng' : Engine) : Prop :=
  ∀ owner t, eng.extensionOf owner = some t → ∃ t', eng'.extensionOf owner = some t' ∧ t ≤ t'

/-! ## What a tick leaves of the extensions -/

section Extensions

variable {env : Env} {s : Sys} {eng eng' eng'' : Engine}

theorem SameExtensions.refl (eng : Engine) : SameExtensions eng eng := ⟨rfl, rfl, rfl, rfl, rfl⟩

theorem SameExtensions.trans (h : SameExtensions eng eng') (h' : SameExtensions eng' eng'') :
    SameExtensions eng eng'' :=
  ⟨h'.lastDay.trans h.lastDay, h'.extensionUntil.trans h.extensionUntil,
    h'.groupExtensionUntil.trans h.groupExtensionUntil, h'.extGrantedToday.trans h.extGrantedToday,
    h'.groupExtGrantedToday.trans h.groupExtGrantedToday⟩

theorem SameExtensions.extensionOf (h : SameExtensions eng eng') (owner : Owner) :
    eng'.extensionOf owner = eng.extensionOf owner := by
  cases owner with
  | uid u => rw [Engine.extensionOf, Engine.extensionOf, h.extensionUntil]
  | group gid => rw [Engine.extensionOf, Engine.extensionOf, h.groupExtensionUntil]

theorem SameExtensions.grantedTo (h : SameExtensions eng eng') (owner : Owner) :
    eng'.grantedTo owner = eng.grantedTo owner := by
  cases owner with
  | uid u => simp only [Engine.grantedTo, Engine.grantedOf, h.extGrantedToday]
  | group gid => simp only [Engine.grantedTo, Engine.grantedOf, h.groupExtGrantedToday]

theorem NoExtensions.extensionOf (h : NoExtensions eng) (owner : Owner) :
    eng.extensionOf owner = none := by
  cases owner with
  | uid u => simp [Engine.extensionOf, h.extensionUntil]
  | group gid => simp [Engine.extensionOf, h.groupExtensionUntil]

theorem NoExtensions.grantedTo (h : NoExtensions eng) (owner : Owner) :
    eng.grantedTo owner = 0 := by
  cases owner with
  | uid u => simp [Engine.grantedTo, Engine.grantedOf, h.extGrantedToday]
  | group gid => simp [Engine.grantedTo, Engine.grantedOf, h.groupExtGrantedToday]

theorem SameButUsage.sameExtensions (h : SameButUsage eng eng') : SameExtensions eng eng' := by
  obtain ⟨_, _, _, _, rfl⟩ := h
  exact ⟨rfl, rfl, rfl, rfl, rfl⟩

theorem SameButEnforced.sameExtensions (h : SameButEnforced eng eng') :
    SameExtensions eng eng' := by
  obtain ⟨_, _, _, _, _, _, rfl⟩ := h
  exact ⟨rfl, rfl, rfl, rfl, rfl⟩

/-- Only the daily reset of a tick touches extensions. -/
theorem sameExtensions_prepare (env : Env) (eng : Engine) :
    SameExtensions (eng.dailyReset (eng.nowParts env.epoch).date) (eng.prepare env) := by
  obtain ⟨screenOff, hprepare⟩ := prepare_eq env eng
  obtain ⟨_, _, haccrue⟩ := accrue_eq env (eng.dailyReset (eng.nowParts env.epoch).date)
  have hcount :
      SameExtensions (eng.dailyReset (eng.nowParts env.epoch).date) (eng.count env) := by
    rw [Engine.count, haccrue]
    exact ⟨rfl, rfl, rfl, rfl, rfl⟩
  refine hcount.trans ((sameButUsage_maintainCooldowns env.epoch _).sameExtensions.trans ?_)
  rw [hprepare]
  exact ⟨rfl, rfl, rfl, rfl, rfl⟩

theorem sameExtensions_prepare_of_day (h : eng.lastDay = some (eng.nowParts env.epoch).date) :
    SameExtensions eng (eng.prepare env) := by
  have hsame := sameExtensions_prepare env eng
  rwa [Engine.dailyReset, if_pos h] at hsame

theorem sameExtensions_tickVerdicts
    (h : s.eng.lastDay = some (s.eng.nowParts env.epoch).date) :
    SameExtensions s.eng (tickVerdicts env s).state.eng :=
  (sameExtensions_prepare_of_day h).trans (tickVerdicts_enforced env s).sameExtensions

/-- Only uids in use have an extension. -/
structure LiveExtensions (eng : Engine) : Prop where
  extensionUntil : ∀ u, eng.extensionUntil[u]? ≠ none → Live eng.uidOf u
  extGrantedToday : ∀ u, eng.extGrantedToday[u]? ≠ none → Live eng.uidOf u

theorem LiveExtensions.congr (h : LiveExtensions eng) (hsame : SameExtensions eng eng')
    (huidOf : eng'.uidOf = eng.uidOf) : LiveExtensions eng' := by
  refine ⟨fun u hu => ?_, fun u hu => ?_⟩
  · rw [hsame.extensionUntil] at hu
    exact huidOf ▸ h.extensionUntil u hu
  · rw [hsame.extGrantedToday] at hu
    exact huidOf ▸ h.extGrantedToday u hu

/-- The extensions of uids in use and of groups, and the day they are for. -/
structure KeepsExtensions (eng eng' : Engine) : Prop where
  lastDay : eng'.lastDay = eng.lastDay
  extensionUntil : KeepsLive eng'.uidOf eng.extensionUntil eng'.extensionUntil
  groupExtensionUntil : eng'.groupExtensionUntil = eng.groupExtensionUntil
  extGrantedToday : KeepsLive eng'.uidOf eng.extGrantedToday eng'.extGrantedToday
  groupExtGrantedToday : eng'.groupExtGrantedToday = eng.groupExtGrantedToday

theorem KeepsCounters.keepsExtensions (h : KeepsCounters eng eng') : KeepsExtensions eng eng' :=
  ⟨h.lastDay, h.extensionUntil, h.groupExtensionUntil, h.extGrantedToday, h.groupExtGrantedToday⟩

theorem SameExtensions.keepsExtensions (h : SameExtensions eng eng') : KeepsExtensions eng eng' :=
  ⟨h.lastDay, h.extensionUntil ▸ .refl _ _, h.groupExtensionUntil, h.extGrantedToday ▸ .refl _ _,
    h.groupExtGrantedToday⟩

theorem KeepsExtensions.trans (h : KeepsExtensions eng eng') (h' : KeepsExtensions eng' eng'')
    (huidOf : eng''.uidOf = eng'.uidOf) : KeepsExtensions eng eng'' := by
  obtain ⟨hday, huntil, hgroup, hgranted, hgroupGranted⟩ := h
  rw [← huidOf] at huntil hgranted
  exact ⟨h'.lastDay.trans hday, huntil.trans h'.extensionUntil, h'.groupExtensionUntil.trans hgroup,
    hgranted.trans h'.extGrantedToday, h'.groupExtGrantedToday.trans hgroupGranted⟩

/-- Where only uids in use have an extension, none is dropped. -/
theorem KeepsExtensions.sameExtensions (h : KeepsExtensions eng eng') (hlive : LiveExtensions eng)
    (huidOf : eng'.uidOf = eng.uidOf) : SameExtensions eng eng' := by
  have huntil := h.extensionUntil
  have hgranted := h.extGrantedToday
  rw [huidOf] at huntil hgranted
  exact ⟨h.lastDay, huntil.eq hlive.extensionUntil, h.groupExtensionUntil,
    hgranted.eq hlive.extGrantedToday, h.groupExtGrantedToday⟩

theorem sameExtensions_reload (env : Env) (s : Sys) :
    SameExtensions s.eng (reload env s).state.eng := by
  obtain ⟨_, _, _, _, _, _, h⟩ := reload_frame env s
  rw [h]
  exact ⟨rfl, rfl, rfl, rfl, rfl⟩

/-- **Nothing but a request changes an extension** between two daily resets. -/
theorem keepsExtensions_perform {op : Op}
    (hop : ∀ env key minutes, op ≠ .extension env key minutes)
    (huidOf : (op.perform s).eng.uidOf = s.eng.uidOf) (hday : ¬ op.ResetsDay s) :
    KeepsExtensions s.eng (op.perform s).eng := by
  cases op with
  | tick env =>
      have hconfig := keepsConfig_tick env s
      have hrefresh := keepsCounters_refresh (hconfig.uidOf.symm.trans huidOf)
      show KeepsExtensions s.eng (tick env s).state.eng
      cases hmid : refresh env s with
      | err mid =>
          rw [hmid] at hrefresh
          rw [tick, hmid]
          exact hrefresh.keepsExtensions
      | ok mid =>
          have htick : tick env s = tickVerdicts env mid := by rw [tick, hmid, Outcome.bind_ok]
          rw [hmid, htick] at hconfig
          rw [hmid] at hrefresh
          rw [htick]
          have hverdicts :=
            sameExtensions_tickVerdicts (not_not.mp fun hne => hday ⟨mid, hmid, hne⟩)
          exact hrefresh.keepsExtensions.trans hverdicts.keepsExtensions hconfig.uidOf
  | reload env => exact (sameExtensions_reload env s).keepsExtensions
  | apply env candidate =>
      show KeepsExtensions s.eng (applyRulesFile env candidate s).state.eng
      rcases applyRulesFile_cases env candidate s with h | ⟨rules, -, h⟩
      · rw [h]
        exact (SameExtensions.refl s.eng).keepsExtensions
      · rw [h]
        exact (sameExtensions_reload env (s.writeRules env rules)).keepsExtensions
  | extension env key minutes => exact absurd rfl (hop env key minutes)
  | sync env => exact (keepsCounters_sync huidOf).keepsExtensions
  | killed uid => exact ⟨rfl, .refl _ _, rfl, .refl _ _, rfl⟩

end Extensions

/-! ## What a request does -/

/-- A request that is granted adds minutes and time for its owner alone. -/
structure Grants (now : Nat) (owner : Owner) (minutes add : UInt32) (eng eng' : Engine) :
    Prop where
  amount : grant minutes (eng.grantedTo owner) = .ok add
  granted : eng'.grantedTo owner = eng.grantedTo owner + add
  deadline : eng'.extensionOf owner = some (extendedUntil (eng.extensionOf owner) now add)
  others : ∀ other, other ≠ owner → eng'.extensionOf other = eng.extensionOf other ∧
    eng'.grantedOf other = eng.grantedOf other
  lastDay : eng'.lastDay = eng.lastDay
  setup : KeepsSetup eng eng'

section Requests

variable {env : Env} {key : String} {now : Nat} {owner : Owner} {minutes add : UInt32}
  {eng eng' : Engine}

/-- What is granted out of the minutes that are left. -/
theorem grant_eq_ok {used : UInt32} (h : grant minutes used = .ok add) :
    used.toNat < 120 ∧ add = min minutes (dailyExtensionLimit - used) := by
  unfold grant at h
  split_ifs at h with hcap
  obtain rfl := Except.ok.inj h
  have hused : used.toNat < 120 := by
    simpa [UInt32.le_iff_toNat_le, dailyExtensionLimit] using hcap
  exact ⟨hused, rfl⟩

/-- What is granted stays within the cap, and the sum does not overflow. -/
theorem grant_within {used : UInt32} (h : grant minutes used = .ok add) :
    used.toNat + add.toNat ≤ 120 ∧ (used + add).toNat = used.toNat + add.toNat := by
  obtain ⟨hused, rfl⟩ := grant_eq_ok h
  have hleft : (dailyExtensionLimit - used).toNat = 120 - used.toNat :=
    UInt32.toNat_sub_of_le _ _ (UInt32.le_iff_toNat_le.mpr hused.le)
  have hmin : min minutes (dailyExtensionLimit - used) =
      if minutes ≤ dailyExtensionLimit - used then minutes else dailyExtensionLimit - used := rfl
  have hadd : (min minutes (dailyExtensionLimit - used)).toNat ≤ 120 - used.toNat := by
    rw [← hleft, hmin]
    split_ifs with hle
    · exact UInt32.le_iff_toNat_le.mp hle
    · exact le_rfl
  refine ⟨by omega, ?_⟩
  rw [UInt32.toNat_add]
  omega

/-- **A request that is granted**, whichever of the two maps it is about. -/
theorem addExtension_grants (h : eng.addExtension env key minutes = .ok (add, eng')) :
    Grants env.epoch (eng.ownerOf key) minutes add eng eng' := by
  have hsetup := keepsSetup_addExtension h
  unfold Engine.addExtension at h
  simp only [bind, Except.bind, pure, Except.pure] at h
  split at h
  next => cases h
  next =>
    split at h
    next uid huid =>
      have howner : eng.ownerOf key = .uid uid := by rw [Engine.ownerOf, huid]; rfl
      split at h
      next => cases h
      next add' hgrant =>
        obtain ⟨rfl, rfl⟩ := Prod.mk.inj (Except.ok.inj h)
        rw [howner]
        refine ⟨hgrant, ?_, ?_, fun other hother => ?_, rfl, hsetup⟩
        · simp [Engine.grantedTo, Engine.grantedOf]
        · simp [Engine.extensionOf]
        · cases other with
          | uid u =>
              have hne : uid ≠ u := fun heq => hother (heq ▸ rfl)
              simp [Engine.extensionOf, Engine.grantedOf, hne]
          | group gid => exact ⟨rfl, rfl⟩
    next hnone =>
      have howner : eng.ownerOf key = .group key := by rw [Engine.ownerOf, hnone]; rfl
      split_ifs at h
      split at h
      next => cases h
      next add' hgrant =>
        obtain ⟨rfl, rfl⟩ := Prod.mk.inj (Except.ok.inj h)
        rw [howner]
        refine ⟨hgrant, ?_, ?_, fun other hother => ?_, rfl, hsetup⟩
        · simp [Engine.grantedTo, Engine.grantedOf]
        · simp [Engine.extensionOf]
        · cases other with
          | uid u => exact ⟨rfl, rfl⟩
          | group gid =>
              have hne : key ≠ gid := fun heq => hother (heq ▸ rfl)
              simp [Engine.extensionOf, Engine.grantedOf, hne]

/-- What is recorded for the owner is the sum, within the cap. -/
theorem Grants.recorded (h : Grants now owner minutes add eng eng') :
    (eng.grantedTo owner).toNat + add.toNat ≤ 120 ∧
      (eng'.grantedTo owner).toNat = (eng.grantedTo owner).toNat + add.toNat := by
  rw [h.granted]
  exact grant_within h.amount

/-- A request leaves no deadline earlier than it was. -/
theorem Grants.deadlinesKept (h : Grants now owner minutes add eng eng') :
    DeadlinesKept eng eng' := by
  intro other t ht
  by_cases howner : other = owner
  · subst howner
    refine ⟨_, h.deadline, ?_⟩
    rw [ht, extendedUntil, Option.getD_some]
    omega
  · exact ⟨t, (h.others other howner).1.trans ht, le_rfl⟩

theorem SameExtensions.deadlinesKept (h : SameExtensions eng eng') : DeadlinesKept eng eng' :=
  fun owner t ht => ⟨t, (h.extensionOf owner).trans ht, le_rfl⟩

end Requests

/-! ## Every run of a day -/

/-- What the run of a day keeps. -/
structure CapInv (st : CapState) : Prop where
  sound : ∀ owner, (st.allowance owner).Sound 120 60
  recorded : ∀ owner, (st.sys.eng.grantedTo owner).toNat = st.granted owner
  live : LiveExtensions st.sys.eng

section Run

variable {st : CapState}

theorem capInv_init (hnone : NoExtensions st.sys.eng)
    (hghost : ∀ owner, st.granted owner = 0 ∧ st.active owner = 0) : CapInv st := by
  refine ⟨fun owner => ?_, fun owner => ?_, fun u hu => ?_, fun u hu => ?_⟩
  · exact Allowance.sound_of_fresh (hghost owner).1 (hnone.extensionOf owner) (hghost owner).2
  · rw [hnone.grantedTo, (hghost owner).1]
    rfl
  · simp [hnone.extensionUntil] at hu
  · simp [hnone.extGrantedToday] at hu

/-- An operation that changes no extension and returns no minutes. -/
theorem capInv_run_of_same {op : Op} (h : CapInv st)
    (hsame : SameExtensions st.sys.eng (op.perform st.sys).eng)
    (huidOf : (op.perform st.sys).eng.uidOf = st.sys.eng.uidOf)
    (hgrants : ∀ owner, op.grants st.sys owner = 0) : CapInv (st.next (.run op)) := by
  have hallowance (owner : Owner) : (st.next (.run op)).allowance owner = st.allowance owner := by
    simp only [CapState.allowance, CapState.next, hgrants, hsame.extensionOf, Nat.add_zero]
  refine ⟨fun owner => hallowance owner ▸ h.sound owner, fun owner => ?_, h.live.congr hsame huidOf⟩
  show ((op.perform st.sys).eng.grantedTo owner).toNat = st.granted owner + op.grants st.sys owner
  rw [hsame.grantedTo, hgrants, Nat.add_zero, h.recorded owner]

/-- A uid that is granted an extension is in use. -/
theorem live_of_ownerOf {eng : Engine} {key : String} {u : Uid}
    (h : eng.ownerOf key = .uid u) : Live eng.uidOf u := by
  unfold Engine.ownerOf at h
  cases hkey : eng.uidOf[key]? with
  | none =>
      rw [hkey] at h
      cases h
  | some uid =>
      rw [hkey] at h
      exact ⟨key, hkey.trans (congrArg some (Owner.uid.inj h))⟩

/-- Extensions of uids in use stay so when one more is granted. -/
theorem LiveExtensions.of_grants {eng eng' : Engine} {key : String} {now : Nat}
    {minutes add : UInt32} (h : LiveExtensions eng)
    (hgrants : Grants now (eng.ownerOf key) minutes add eng eng') :
    LiveExtensions eng' := by
  have hlive (u : Uid) (hother : Owner.uid u ≠ eng.ownerOf key → Live eng.uidOf u) :
      Live eng'.uidOf u := by
    rw [hgrants.setup.uidOf]
    by_cases howner : Owner.uid u = eng.ownerOf key
    · exact live_of_ownerOf howner.symm
    · exact hother howner
  refine ⟨fun u hu => hlive u fun hne => ?_, fun u hu => hlive u fun hne => ?_⟩
  · have hsame : eng'.extensionUntil[u]? = eng.extensionUntil[u]? := (hgrants.others _ hne).1
    exact h.extensionUntil u (hsame ▸ hu)
  · have hsame : eng'.extGrantedToday[u]? = eng.extGrantedToday[u]? := (hgrants.others _ hne).2
    exact h.extGrantedToday u (hsame ▸ hu)

/-- **A request that is granted** is a grant of the allowance of its owner. -/
theorem capInv_extension {env : Env} {key : String} {minutes add : UInt32} {eng : Engine}
    (h : CapInv st) (hclock : env.epoch = st.clock)
    (hext : st.sys.eng.addExtension env key minutes = .ok (add, eng)) :
    CapInv (st.next (.run (.extension env key minutes))) := by
  have hgrants := addExtension_grants hext
  obtain ⟨hcap, hsum⟩ := hgrants.recorded
  have hperform : (Op.extension env key minutes).perform st.sys = { st.sys with eng := eng } := by
    simp only [Op.perform, Op.outcome, hext, Outcome.state_ok]
  have hadded (owner : Owner) : (Op.extension env key minutes).grants st.sys owner =
      if st.sys.eng.ownerOf key = owner then add.toNat else 0 := by
    simp only [Op.grants, hext]
  have hrecorded := h.recorded (st.sys.eng.ownerOf key)
  refine ⟨fun owner => ?_, fun owner => ?_, ?_⟩
  · by_cases howner : st.sys.eng.ownerOf key = owner
    · have hallowance : (st.next (.run (.extension env key minutes))).allowance owner =
          (st.allowance owner).grant 60 add.toNat := by
        simp only [CapState.allowance, CapState.next, hperform, hadded, Allowance.grant, ← howner,
          if_true, hgrants.deadline, extendedUntil, hclock]
      rw [hallowance]
      refine (h.sound owner).grant ?_
      show st.granted owner + add.toNat ≤ 120
      rw [← howner]
      omega
    · obtain ⟨hdeadline, -⟩ := hgrants.others owner (Ne.symm howner)
      have hallowance : (st.next (.run (.extension env key minutes))).allowance owner =
          st.allowance owner := by
        simp only [CapState.allowance, CapState.next, hperform, hadded, if_neg howner, hdeadline,
          Nat.add_zero]
      exact hallowance ▸ h.sound owner
  · show (((Op.extension env key minutes).perform st.sys).eng.grantedTo owner).toNat =
      st.granted owner + (Op.extension env key minutes).grants st.sys owner
    rw [hperform, hadded]
    split_ifs with howner
    · rw [← howner, hsum, hrecorded]
    · rw [Engine.grantedTo, (hgrants.others owner (Ne.symm howner)).2, Nat.add_zero]
      exact h.recorded owner
  · show LiveExtensions ((Op.extension env key minutes).perform st.sys).eng
    rw [hperform]
    exact h.live.of_grants hgrants

/-- **Every step of a day keeps the invariant.** -/
theorem capInv_step {event : CapEvent} (h : CapInv st) (hwithin : WithinDay st event) :
    CapInv (st.next event) := by
  cases event with
  | second => exact ⟨fun owner => (h.sound owner).second, h.recorded, h.live⟩
  | files fs => exact ⟨h.sound, h.recorded, h.live⟩
  | run op =>
      obtain ⟨hclock, huidOf, hday⟩ := hwithin
      by_cases hop : ∀ env key minutes, op ≠ .extension env key minutes
      · have hkeeps := keepsExtensions_perform hop huidOf hday
        refine capInv_run_of_same h (hkeeps.sameExtensions h.live huidOf) huidOf fun owner => ?_
        cases op with
        | extension env key minutes => exact absurd rfl (hop env key minutes)
        | _ => rfl
      · push Not at hop
        obtain ⟨env, key, minutes, rfl⟩ := hop
        cases hext : st.sys.eng.addExtension env key minutes with
        | ok result => exact capInv_extension h hclock hext
        | error message =>
            have hperform : (Op.extension env key minutes).perform st.sys = st.sys := by
              simp only [Op.perform, Op.outcome, hext, Outcome.state_err]
            refine capInv_run_of_same h (by rw [hperform]; exact .refl _) huidOf fun owner => ?_
            simp only [Op.grants, hext]

end Run

/-- **No deadline is lost or moved backwards** by a step of a day. -/
theorem deadlinesKept_step {st : CapState} {event : CapEvent} (h : CapInv st)
    (hwithin : WithinDay st event) : DeadlinesKept st.sys.eng (st.next event).sys.eng := by
  cases event with
  | second => exact (SameExtensions.refl _).deadlinesKept
  | files fs => exact (SameExtensions.refl _).deadlinesKept
  | run op =>
      obtain ⟨-, huidOf, hday⟩ := hwithin
      show DeadlinesKept st.sys.eng (op.perform st.sys).eng
      by_cases hop : ∀ env key minutes, op ≠ .extension env key minutes
      · have hkeeps := keepsExtensions_perform hop huidOf hday
        exact (hkeeps.sameExtensions h.live huidOf).deadlinesKept
      · push Not at hop
        obtain ⟨env, key, minutes, rfl⟩ := hop
        cases hext : st.sys.eng.addExtension env key minutes with
        | ok result =>
            simp only [Op.perform, Op.outcome, hext, Outcome.state_ok]
            exact (addExtension_grants hext).deadlinesKept
        | error message =>
            simp only [Op.perform, Op.outcome, hext, Outcome.state_err]
            exact (SameExtensions.refl _).deadlinesKept

/-- **The daily cap of extensions holds over every run** between two daily
resets. -/
theorem extension_cap {st : CapState} (h : capDay.ReachableWhen WithinDay st) :
    Capped st ∧
      (∀ event, WithinDay st event → DeadlinesKept st.sys.eng (st.next event).sys.eng) ∧
      ∀ env key minutes, ((Op.extension env key minutes).outcome st.sys).isOk = false →
        SameExtensions st.sys.eng ((Op.extension env key minutes).perform st.sys).eng := by
  have hinv : CapInv st := by
    refine System.ReachableWhen.invariant (?_ : ∀ st, capDay.init st → CapInv st) ?_ h
    · rintro st ⟨hnone, hghost⟩
      exact capInv_init hnone hghost
    · intro st event st' hst hwithin hstep
      obtain rfl := Option.some.inj hstep
      exact capInv_step hst hwithin
  refine ⟨⟨fun owner => (hinv.sound owner).granted_le, hinv.recorded, fun owner => ?_⟩,
    fun event => deadlinesKept_step hinv, fun env key minutes hrefused => ?_⟩
  · exact (Nat.le_add_right _ _).trans (hinv.sound owner).active_le
  · cases hext : st.sys.eng.addExtension env key minutes with
    | ok result =>
        simp only [Op.outcome, hext, Outcome.isOk_ok, Bool.true_eq_false] at hrefused
    | error message =>
        simp only [Op.perform, Op.outcome, hext, Outcome.state_err]
        exact .refl _

/-- One app and no extension, at second 100. -/
def freshDay : CapState where
  clock := 100
  sys := ⟨{ Engine.blank .start with uidOf := insertAll [("0:com.game", 10001)] ∅ },
    ⟨none, none, none, none⟩⟩
  granted := fun _ => 0
  active := fun _ => 0

/-- Five minutes are granted, and a second passes. -/
def extendedDay : CapState :=
  (freshDay.next (.run (.extension (.quiet 100) "0:com.game" 5))).next .second

theorem extendedDay_reachable : capDay.ReachableWhen WithinDay extendedDay := by
  have hfresh : capDay.ReachableWhen WithinDay freshDay :=
    .init ⟨⟨rfl, rfl, rfl, rfl⟩, fun _ => ⟨rfl, rfl⟩⟩
  have hwithin : WithinDay freshDay (.run (.extension (.quiet 100) "0:com.game" 5)) :=
    ⟨rfl, rfl, id⟩
  have hgranted := System.ReachableWhen.step hfresh hwithin rfl
  have hsecond : WithinDay (freshDay.next (.run (.extension (.quiet 100) "0:com.game" 5)))
      .second := trivial
  exact .step hgranted hsecond rfl

theorem extension_cap_extendedDay :
    Capped extendedDay ∧ extendedDay.granted (.uid 10001) = 5 ∧
      extendedDay.active (.uid 10001) = 1 :=
  ⟨(extension_cap extendedDay_reachable).1, by decide +kernel, by decide +kernel⟩

end Ningshi
