import Ningshi.Engine.Sync

/-!
# What a change of the package list does to the state of each app

An app is a rule key; the maps of the engine are keyed by uid.  A sync
*follows the apps* in a map (`FollowsApps`) when every key finds under its new
uid what it had under its old one, a new key finds nothing, and no other uid
has an entry.

`syncPackages_followsApps_iff` says exactly when a sync does this for the six
per-uid maps.  Three of them are renamed in place, one move at a time; the
other three are only filtered.

`reload_sync_orderIrrelevant_iff` compares the two orders of a reload and a
sync.  A reload replaces the uid map without moving anything, so a sync after
it finds no key whose uid changed.
-/

namespace Ningshi

open Std FiniteMap Rename Transition

/-- Distinct keys have distinct uids. -/
def DistinctUids (uidOf : UidOf) : Prop :=
  ∀ (key key' : String) (uid : Uid), uidOf[key]? = some uid → uidOf[key']? = some uid → key = key'

/-- After the change every app has its own entry and no other app's. -/
structure FollowsApps {β : Type} (old new : UidOf) (m m' : UidMap β) : Prop where
  carried : ∀ (key : String) (uid : Uid), new[key]? = some uid →
    m'[uid]? = old[key]?.bind fun oldUid => m[oldUid]?
  dropped : ∀ uid, ¬ Live new uid → m'[uid]? = none

/-- All six per-uid maps follow the apps. -/
structure AllFollowApps (old new : UidOf) (eng eng' : Engine) : Prop where
  usageSeconds : FollowsApps old new eng.usageSeconds eng'.usageSeconds
  usageFg : FollowsApps old new eng.usageFg eng'.usageFg
  extensionUntil : FollowsApps old new eng.extensionUntil eng'.extensionUntil
  extGrantedToday : FollowsApps old new eng.extGrantedToday eng'.extGrantedToday
  cooldownUntil : FollowsApps old new eng.cooldownUntil eng'.cooldownUntil
  killCount : FollowsApps old new eng.killCount eng'.killCount

/-- What a map that is renamed in place must satisfy before: the moves do not
get into each other's way, and neither a moved app without an entry nor a new
app meets a stale entry at its uid. -/
structure MovesCleanly {β : Type} (old new : UidOf) (moves : List (Uid × Uid))
    (m : UidMap β) : Prop where
  sequenced : Sequenced moves m
  unburdened : Unburdened moves m
  fresh : ∀ (key : String) (uid : Uid), new[key]? = some uid → old[key]? = none →
    (∀ move ∈ moves, move.1 ≠ uid) → m[uid]? = none

/-- What a map that is not moved must satisfy before: a key that gets another
uid finds its own entry there already. -/
def InPlaceAlready {β : Type} (old new : UidOf) (m : UidMap β) : Prop :=
  ∀ (key : String) (uid : Uid), new[key]? = some uid → old[key]? ≠ some uid →
    m[uid]? = old[key]?.bind fun oldUid => m[oldUid]?

/-- The state before a sync from which it carries everything over. -/
structure CarriesOver (old new : UidOf) (listing : List (String × Uid)) (eng : Engine) :
    Prop where
  usageSeconds : MovesCleanly old new (movesOf old listing) eng.usageSeconds
  usageFg : MovesCleanly old new (movesOf old listing) eng.usageFg
  extensionUntil : MovesCleanly old new (movesOf old listing) eng.extensionUntil
  extGrantedToday : InPlaceAlready old new eng.extGrantedToday
  cooldownUntil : InPlaceAlready old new eng.cooldownUntil
  killCount : InPlaceAlready old new eng.killCount

theorem distinctUids_of_nodup {uidOf : UidOf} (h : (uidOf.toList.map Prod.snd).Nodup) :
    DistinctUids uidOf := by
  intro key key' uid hkey hkey'
  have hmem := ExtTreeMap.mem_toList_iff_getElem?_eq_some.mpr hkey
  have hmem' := ExtTreeMap.mem_toList_iff_getElem?_eq_some.mpr hkey'
  exact congrArg Prod.fst (List.inj_on_of_nodup_map h hmem hmem' rfl)

section Moves

variable {old new : UidOf} (order : IterOrder (String × Uid))

private theorem pairwise_movesOf {r : Uid × Uid → Uid × Uid → Prop}
    (h : ∀ (key key' : String) (move move' : Uid × Uid), key ≠ key' →
      old[key]? = some move.1 → new[key]? = some move.2 →
      old[key']? = some move'.1 → new[key']? = some move'.2 → r move move') :
    (movesOf old (order.arrange new.toList)).Pairwise r := by
  have hkeys : (order.arrange new.toList).Pairwise fun a b => a.1 ≠ b.1 :=
    List.pairwise_map.mp (nodup_map_fst_arrange order new)
  rw [movesOf, List.pairwise_filterMap]
  refine hkeys.imp_of_mem fun {entry entry'} hentry hentry' hne move hmove move' hmove' => ?_
  obtain ⟨hold, hnew, -⟩ := moveOf_eq_some_iff.mp hmove
  obtain ⟨hold', hnew', -⟩ := moveOf_eq_some_iff.mp hmove'
  refine h entry.1 entry'.1 move move' hne hold ?_ hold' ?_
  · rw [hnew]
    exact (mem_arrange_toList_iff order new entry).mp hentry
  · rw [hnew']
    exact (mem_arrange_toList_iff order new entry').mp hentry'

theorem nodup_sources (hold : DistinctUids old) :
    ((movesOf old (order.arrange new.toList)).map Prod.fst).Nodup := by
  refine List.pairwise_map.mpr (pairwise_movesOf order ?_)
  intro key key' move move' hne hkey _ hkey' _ heq
  exact hne (hold key key' move.1 hkey (heq ▸ hkey'))

theorem nodup_targets (hnew : DistinctUids new) :
    ((movesOf old (order.arrange new.toList)).map Prod.snd).Nodup := by
  refine List.pairwise_map.mpr (pairwise_movesOf order ?_)
  intro key key' move move' hne _ hkey _ hkey' heq
  exact hne (hnew key key' move.2 hkey (heq ▸ hkey'))

theorem ne_of_mem_movesOf (move : Uid × Uid)
    (h : move ∈ movesOf old (order.arrange new.toList)) : move.1 ≠ move.2 :=
  ((mem_movesOf_iff order).mp h).1

/-! ## One map -/

variable {β : Type} {m : UidMap β}

theorem followsApps_restrictLive_iff (m' : UidMap β) :
    FollowsApps old new m (restrictLive new m') ↔
      ∀ (key : String) (uid : Uid), new[key]? = some uid →
        m'[uid]? = old[key]?.bind fun oldUid => m[oldUid]? := by
  constructor
  · intro h key uid hkey
    rw [← h.carried key uid hkey, getElem?_restrictLive_of_live ⟨key, hkey⟩]
  · intro h
    refine ⟨fun key uid hkey => ?_, fun uid => getElem?_restrictLive_of_not_live⟩
    rw [getElem?_restrictLive_of_live ⟨key, hkey⟩]
    exact h key uid hkey

/-- A map that is only filtered. -/
theorem followsApps_filtered_iff :
    FollowsApps old new m (restrictLive new m) ↔ InPlaceAlready old new m := by
  rw [followsApps_restrictLive_iff]
  refine forall₃_congr fun key uid _ => ?_
  by_cases hsame : old[key]? = some uid
  · simp [hsame]
  · simp [hsame]

/-- A key that keeps its uid is no target and no source of a move. -/
private theorem getElem?_renameAll_of_kept (hold : DistinctUids old) (hnew : DistinctUids new)
    {key : String} {uid : Uid} (hkey : new[key]? = some uid) (hkept : old[key]? = some uid) :
    (renameAll (movesOf old (order.arrange new.toList)) m)[uid]? = m[uid]? := by
  rw [getElem?_renameAll_of_not_target (ne_of_mem_movesOf order), if_neg]
  · rintro ⟨move, hmove, rfl⟩
    obtain ⟨hne, key', hold', hnew'⟩ := (mem_movesOf_iff order).mp hmove
    obtain rfl := hold key key' _ hkept hold'
    exact hne (Option.some.inj (hkey.symm.trans hnew'))
  · rintro move hmove rfl
    obtain ⟨hne, key', hold', hnew'⟩ := (mem_movesOf_iff order).mp hmove
    obtain rfl := hnew key key' _ hkey hnew'
    exact hne (Option.some.inj (hold'.symm.trans hkept))

/-- The uid of a new key is no target of a move. -/
private theorem getElem?_renameAll_of_new (hnew : DistinctUids new)
    {key : String} {uid : Uid} (hkey : new[key]? = some uid) (hnone : old[key]? = none) :
    (renameAll (movesOf old (order.arrange new.toList)) m)[uid]? =
      if ∃ move ∈ movesOf old (order.arrange new.toList), move.1 = uid then none
      else m[uid]? := by
  refine getElem?_renameAll_of_not_target (ne_of_mem_movesOf order) ?_
  rintro move hmove rfl
  obtain ⟨-, key', hold', hnew'⟩ := (mem_movesOf_iff order).mp hmove
  obtain rfl := hnew key key' _ hkey hnew'
  rw [hnone] at hold'
  cases hold'

/-- **A map that is renamed in place.** -/
theorem followsApps_renamed_iff (hold : DistinctUids old) (hnew : DistinctUids new) :
    FollowsApps old new m
        (restrictLive new (renameAll (movesOf old (order.arrange new.toList)) m)) ↔
      MovesCleanly old new (movesOf old (order.arrange new.toList)) m := by
  -- The moved keys are what renaming is about; kept and new keys are not among the targets.
  have hcarries : Carries (movesOf old (order.arrange new.toList)) m ↔
      Sequenced (movesOf old (order.arrange new.toList)) m ∧
        Unburdened (movesOf old (order.arrange new.toList)) m :=
    renameAll_carries_iff (nodup_sources order hold) (nodup_targets order hnew)
      (ne_of_mem_movesOf order)
  rw [followsApps_restrictLive_iff]
  constructor
  · intro h
    obtain ⟨hsequenced, hunburdened⟩ := hcarries.mp fun move hmove => by
      obtain ⟨-, key, hkeyOld, hkeyNew⟩ := (mem_movesOf_iff order).mp hmove
      rw [h key move.2 hkeyNew, hkeyOld, Option.bind_some]
    refine ⟨hsequenced, hunburdened, fun key uid hkey hnone hfree => ?_⟩
    have hfinal := h key uid hkey
    rw [getElem?_renameAll_of_new order hnew hkey hnone, hnone, if_neg] at hfinal
    · exact hfinal
    · rintro ⟨move, hmove, heq⟩
      exact hfree move hmove heq
  · intro h key uid hkey
    cases hkeyOld : old[key]? with
    | none =>
        -- A new key: a move has emptied its uid, or nothing stood there.
        rw [getElem?_renameAll_of_new order hnew hkey hkeyOld, Option.bind_none]
        split_ifs with hsource
        · rfl
        · refine h.fresh key uid hkey hkeyOld fun move hmove heq => ?_
          exact hsource ⟨move, hmove, heq⟩
    | some oldUid =>
        rw [Option.bind_some]
        by_cases hsame : oldUid = uid
        · rw [hsame] at hkeyOld ⊢
          exact getElem?_renameAll_of_kept order hold hnew hkey hkeyOld
        · exact hcarries.mpr ⟨h.sequenced, h.unburdened⟩ (oldUid, uid)
            ((mem_movesOf_iff order).mpr ⟨hsame, key, hkeyOld, hkey⟩)

end Moves

/-! ## A sync -/

/-- **Exactly when a sync carries all per-app state over.** -/
theorem syncPackages_followsApps_iff {env : Env} {s : Sys} {mtime : Nat} {uids : UidOf}
    (hpending : Pending env s mtime uids) (hold : DistinctUids s.eng.uidOf)
    (hnew : DistinctUids uids) :
    AllFollowApps s.eng.uidOf uids s.eng (syncPackages env s).state.eng ↔
      CarriesOver s.eng.uidOf uids (env.uidOrder.arrange uids.toList) s.eng := by
  rw [syncPackages_of_pending hpending, Outcome.state_ok, Engine.resync_eq]
  constructor
  · intro h
    exact ⟨(followsApps_renamed_iff _ hold hnew).mp h.usageSeconds,
      (followsApps_renamed_iff _ hold hnew).mp h.usageFg,
      (followsApps_renamed_iff _ hold hnew).mp h.extensionUntil,
      followsApps_filtered_iff.mp h.extGrantedToday,
      followsApps_filtered_iff.mp h.cooldownUntil,
      followsApps_filtered_iff.mp h.killCount⟩
  · intro h
    exact ⟨(followsApps_renamed_iff _ hold hnew).mpr h.usageSeconds,
      (followsApps_renamed_iff _ hold hnew).mpr h.usageFg,
      (followsApps_renamed_iff _ hold hnew).mpr h.extensionUntil,
      followsApps_filtered_iff.mpr h.extGrantedToday,
      followsApps_filtered_iff.mpr h.cooldownUntil,
      followsApps_filtered_iff.mpr h.killCount⟩

/-- An app that has used up its extension minutes and is reinstalled under
another uid. -/
def reinstalledApp : Sys where
  eng := { Engine.blank .start with
    uidOf := insertAll [("0:com.foo", 10001)] ∅
    usageSeconds := insertAll [(10001, 60)] ∅
    extGrantedToday := insertAll [(10001, 120)] ∅ }
  fs := ⟨none, none, none, some ⟨"com.foo 10002", 1⟩⟩

def reinstalledUids : UidOf := insertAll [("0:com.foo", 10002)] ∅

theorem reinstalledApp_pending : Pending (.quiet 0) reinstalledApp 1 reinstalledUids :=
  ⟨by decide +kernel, by decide +kernel, by decide +kernel⟩

theorem syncPackages_followsApps_iff_reinstalledApp :
    AllFollowApps reinstalledApp.eng.uidOf reinstalledUids reinstalledApp.eng
        (syncPackages (.quiet 0) reinstalledApp).state.eng ↔
      CarriesOver reinstalledApp.eng.uidOf reinstalledUids
        (IterOrder.canonical.arrange reinstalledUids.toList) reinstalledApp.eng :=
  syncPackages_followsApps_iff reinstalledApp_pending
    (distinctUids_of_nodup (by decide +kernel)) (distinctUids_of_nodup (by decide +kernel))

/-- The minutes granted today are not moved to the new uid. -/
theorem not_syncPackages_followsApps :
    ¬ ∀ (env : Env) (s : Sys) (mtime : Nat) (uids : UidOf), Pending env s mtime uids →
      DistinctUids s.eng.uidOf → DistinctUids uids →
      AllFollowApps s.eng.uidOf uids s.eng (syncPackages env s).state.eng := by
  intro h
  have hfollow := h (.quiet 0) reinstalledApp 1 reinstalledUids reinstalledApp_pending
    (distinctUids_of_nodup (by decide +kernel)) (distinctUids_of_nodup (by decide +kernel))
  have hcarried := hfollow.extGrantedToday.carried "0:com.foo" 10002 (by decide +kernel)
  revert hcarried
  decide +kernel

/-! ## A reload and a sync, in both orders -/

def reloadThenSync (reloadEnv syncEnv : Env) (s : Sys) : Outcome Sys :=
  (reload reloadEnv s).bind (syncPackages syncEnv)

def syncThenReload (reloadEnv syncEnv : Env) (s : Sys) : Outcome Sys :=
  (syncPackages syncEnv s).bind (reload reloadEnv)

/-- The per-uid usage and extension state is the same. -/
structure SameUsage (eng eng' : Engine) : Prop where
  usageSeconds : eng.usageSeconds = eng'.usageSeconds
  usageFg : eng.usageFg = eng'.usageFg
  extensionUntil : eng.extensionUntil = eng'.extensionUntil
  extGrantedToday : eng.extGrantedToday = eng'.extGrantedToday

/-- What was stored under the old uid of a key is found under its new one. -/
def FoundUnderNew (old new : UidOf) (m m' : UidMap Nat) : Prop :=
  ∀ (key : String) (oldUid newUid : Uid), old[key]? = some oldUid → new[key]? = some newUid →
    ∀ secs, m[oldUid]? = some secs → m'[newUid]? = some secs

/-- Both orders end with the same usage and extension state, and the usage of
every key is found under its new uid. -/
structure OrderIrrelevant (old new : UidOf) (eng first second : Engine) : Prop where
  same : SameUsage first second
  usageSeconds : FoundUnderNew old new eng.usageSeconds first.usageSeconds
  usageFg : FoundUnderNew old new eng.usageFg first.usageFg

/-- Under every uid in use the moves leave the entry that stands there already. -/
def Settled (new : UidOf) (moves : List (Uid × Uid)) (m : UidMap Nat) : Prop :=
  ∀ uid, Live new uid → ((origins moves uid).findSome? fun origin => m[origin]?) = m[uid]?

/-- The state before from which the order does not matter: in each of the three
moved maps the moves change nothing under a uid in use, and the usage of a
moved key stands under its new uid already. -/
structure OrderIndifferent (old new : UidOf) (moves : List (Uid × Uid)) (eng : Engine) :
    Prop where
  usageSeconds : Settled new moves eng.usageSeconds
  usageFg : Settled new moves eng.usageFg
  extensionUntil : Settled new moves eng.extensionUntil
  usageSecondsMoved : FoundUnderNew old new eng.usageSeconds eng.usageSeconds
  usageFgMoved : FoundUnderNew old new eng.usageFg eng.usageFg

theorem restrictLive_renameAll_eq_iff {old new : UidOf} {order : IterOrder (String × Uid)}
    {m : UidMap Nat} :
    restrictLive new m =
        restrictLive new (renameAll (movesOf old (order.arrange new.toList)) m) ↔
      Settled new (movesOf old (order.arrange new.toList)) m := by
  rw [restrictLive_eq_iff]
  refine forall₂_congr fun uid _ => ?_
  rw [getElem?_renameAll _ _ (ne_of_mem_movesOf order)]
  exact eq_comm

theorem foundUnderNew_restrictLive_iff {old new : UidOf} {m m' : UidMap Nat} :
    FoundUnderNew old new m (restrictLive new m') ↔ FoundUnderNew old new m m' := by
  refine forall₄_congr fun key oldUid newUid _ => forall_congr' fun hnew => ?_
  rw [getElem?_restrictLive_of_live ⟨key, hnew⟩]

section Orders

variable {reloadEnv syncEnv : Env} {s : Sys} {mtime : Nat} {uids : UidOf}

/-- After a successful reload the change is still pending, but the new uid map
is in place already. -/
private theorem pending_reload (hpending : Pending syncEnv s mtime uids)
    (hres : s.fs.resolveUids reloadEnv .reloadPackages = some uids) :
    ∃ s', reload reloadEnv s = .ok s' ∧ Pending syncEnv s' mtime uids ∧ s'.eng.uidOf = uids ∧
      SameUsage s'.eng s.eng := by
  have hres' := (resolveUids_reloadRules reloadEnv reloadEnv s .reloadPackages).trans hres
  obtain ⟨rules, source, heng⟩ := reloadRules_frame reloadEnv s
  obtain ⟨cooldowns, groupCooldowns, hfinish⟩ := Engine.finishReload_frame
    s.eng.rules.sharedFlags uids ((reloadRules reloadEnv s).fs.statRules reloadEnv .restatRules)
    ((reloadRules reloadEnv s).eng.deriveSettings reloadEnv)
  have hreload := reload_of_resolved hres'
  have hpending' : Pending syncEnv (reload reloadEnv s).state mtime uids :=
    pending_reload_iff.mpr hpending
  rw [hreload, Outcome.state_ok] at hpending'
  refine ⟨_, hreload, hpending', ?_, ?_⟩
  · rw [hfinish]
  · rw [hfinish, heng]
    exact ⟨rfl, rfl, rfl, rfl⟩

/-- A reload leaves usage and extensions alone. -/
private theorem sameUsage_reload (s : Sys) : SameUsage (reload reloadEnv s).state.eng s.eng := by
  obtain ⟨rules, source, uidOf, mtime, cooldowns, groupCooldowns, h⟩ := reload_frame reloadEnv s
  rw [h]
  exact ⟨rfl, rfl, rfl, rfl⟩

/-- Both orders succeed, and this is what they leave of a map. -/
private theorem both_orders (hpending : Pending syncEnv s mtime uids)
    (hres : s.fs.resolveUids reloadEnv .reloadPackages = some uids) :
    ((reloadThenSync reloadEnv syncEnv s).isOk ∧ (syncThenReload reloadEnv syncEnv s).isOk) ∧
      SameUsage (reloadThenSync reloadEnv syncEnv s).state.eng
        { s.eng with
          usageSeconds := restrictLive uids s.eng.usageSeconds
          usageFg := restrictLive uids s.eng.usageFg
          extensionUntil := restrictLive uids s.eng.extensionUntil
          extGrantedToday := restrictLive uids s.eng.extGrantedToday } ∧
      SameUsage (syncThenReload reloadEnv syncEnv s).state.eng
        (s.eng.resync mtime uids (syncEnv.uidOrder.arrange uids.toList)) := by
  obtain ⟨s', hreload, hpending', huids, hsame⟩ := pending_reload hpending hres
  have hres' (eng : Engine) : (reloadRules reloadEnv ⟨eng, s.fs⟩).fs.resolveUids reloadEnv
      .reloadPackages = some uids :=
    (resolveUids_reloadRules reloadEnv reloadEnv ⟨eng, s.fs⟩ .reloadPackages).trans hres
  refine ⟨⟨?_, ?_⟩, ?_, ?_⟩
  · rw [reloadThenSync, hreload, Outcome.bind_ok, syncPackages_of_pending hpending']
    rfl
  · rw [syncThenReload, syncPackages_of_pending hpending, Outcome.bind_ok,
      reload_of_resolved (hres' _)]
    rfl
  · rw [reloadThenSync, hreload, Outcome.bind_ok, syncPackages_of_pending hpending',
      Outcome.state_ok, Engine.resync_eq, huids, movesOf_self]
    exact ⟨congrArg (restrictLive uids) hsame.usageSeconds,
      congrArg (restrictLive uids) hsame.usageFg,
      congrArg (restrictLive uids) hsame.extensionUntil,
      congrArg (restrictLive uids) hsame.extGrantedToday⟩
  · rw [syncThenReload, syncPackages_of_pending hpending, Outcome.bind_ok]
    exact sameUsage_reload _

/-- **Exactly when the order of a reload and a sync does not matter.** -/
theorem reload_sync_orderIrrelevant_iff (hpending : Pending syncEnv s mtime uids)
    (hres : s.fs.resolveUids reloadEnv .reloadPackages = some uids) :
    (reloadThenSync reloadEnv syncEnv s).isOk ∧ (syncThenReload reloadEnv syncEnv s).isOk ∧
      (OrderIrrelevant s.eng.uidOf uids s.eng (reloadThenSync reloadEnv syncEnv s).state.eng
          (syncThenReload reloadEnv syncEnv s).state.eng ↔
        OrderIndifferent s.eng.uidOf uids
          (movesOf s.eng.uidOf (syncEnv.uidOrder.arrange uids.toList)) s.eng) := by
  obtain ⟨⟨hok, hok'⟩, hfirst, hsecond⟩ := both_orders hpending hres
  refine ⟨hok, hok', ?_⟩
  rw [Engine.resync_eq] at hsecond
  constructor
  · intro h
    have hsame := h.same
    have hseconds := h.usageSeconds
    have hfg := h.usageFg
    rw [hfirst.usageSeconds] at hseconds
    rw [hfirst.usageFg] at hfg
    exact
      { usageSeconds := restrictLive_renameAll_eq_iff.mp
          (hfirst.usageSeconds.symm.trans (hsame.usageSeconds.trans hsecond.usageSeconds))
        usageFg := restrictLive_renameAll_eq_iff.mp
          (hfirst.usageFg.symm.trans (hsame.usageFg.trans hsecond.usageFg))
        extensionUntil := restrictLive_renameAll_eq_iff.mp
          (hfirst.extensionUntil.symm.trans (hsame.extensionUntil.trans hsecond.extensionUntil))
        usageSecondsMoved := foundUnderNew_restrictLive_iff.mp hseconds
        usageFgMoved := foundUnderNew_restrictLive_iff.mp hfg }
  · intro h
    refine ⟨⟨?_, ?_, ?_, ?_⟩, ?_, ?_⟩
    · exact hfirst.usageSeconds.trans
        ((restrictLive_renameAll_eq_iff.mpr h.usageSeconds).trans hsecond.usageSeconds.symm)
    · exact hfirst.usageFg.trans
        ((restrictLive_renameAll_eq_iff.mpr h.usageFg).trans hsecond.usageFg.symm)
    · exact hfirst.extensionUntil.trans
        ((restrictLive_renameAll_eq_iff.mpr h.extensionUntil).trans hsecond.extensionUntil.symm)
    · exact hfirst.extGrantedToday.trans hsecond.extGrantedToday.symm
    · rw [hfirst.usageSeconds]
      exact foundUnderNew_restrictLive_iff.mpr h.usageSecondsMoved
    · rw [hfirst.usageFg]
      exact foundUnderNew_restrictLive_iff.mpr h.usageFgMoved

end Orders

theorem reload_sync_orderIrrelevant_iff_reinstalledApp :
    (reloadThenSync (.quiet 0) (.quiet 0) reinstalledApp).isOk ∧
      (syncThenReload (.quiet 0) (.quiet 0) reinstalledApp).isOk ∧
      (OrderIrrelevant reinstalledApp.eng.uidOf reinstalledUids reinstalledApp.eng
          (reloadThenSync (.quiet 0) (.quiet 0) reinstalledApp).state.eng
          (syncThenReload (.quiet 0) (.quiet 0) reinstalledApp).state.eng ↔
        OrderIndifferent reinstalledApp.eng.uidOf reinstalledUids
          (movesOf reinstalledApp.eng.uidOf
            (IterOrder.canonical.arrange reinstalledUids.toList)) reinstalledApp.eng) :=
  reload_sync_orderIrrelevant_iff reinstalledApp_pending (by decide +kernel)

/-- After a reload the sync finds no moved key, and the usage is lost. -/
theorem not_reload_sync_orderIrrelevant :
    ¬ ∀ (reloadEnv syncEnv : Env) (s : Sys) (mtime : Nat) (uids : UidOf),
      Pending syncEnv s mtime uids →
      s.fs.resolveUids reloadEnv .reloadPackages = some uids →
      OrderIrrelevant s.eng.uidOf uids s.eng (reloadThenSync reloadEnv syncEnv s).state.eng
        (syncThenReload reloadEnv syncEnv s).state.eng := by
  intro h
  have hirrelevant := h (.quiet 0) (.quiet 0) reinstalledApp 1 reinstalledUids
    reinstalledApp_pending (by decide +kernel)
  have hsame := hirrelevant.same.usageSeconds
  revert hsame
  decide +kernel

end Ningshi
