import Ningshi.Engine.Reload
import Ningshi.Lib.Rename

/-!
# `sync_packages`: following a change of the package list

When the package list has a new file time, the uid map is rebuilt.  The loop
over the new map takes the usage counters and the extension deadline of every
key whose uid changed from the old uid to the new one, in the listing order of
the new map.  Afterwards every per-uid map drops the uids that no key has.

`Engine.resync_eq` says what a sync changes, in terms of the moves of the
loop.
-/

namespace Ningshi

open Std FiniteMap Rename Transition

/-- Move the entries of one uid to another, in the three maps that are moved. -/
def Engine.moveUid (move : Uid × Uid) (eng : Engine) : Engine :=
  { eng with
    usageSeconds := renameStep eng.usageSeconds move
    usageFg := renameStep eng.usageFg move
    extensionUntil := renameStep eng.extensionUntil move }

/-- One round of the loop over the new uid map. -/
def Engine.migrateKey (eng : Engine) (entry : String × Uid) : Engine :=
  match eng.uidOf[entry.1]? with
  -- a new key has nothing to move
  | none => eng
  | some old => if old = entry.2 then eng else eng.moveUid (old, entry.2)

/-- The uids some key has. -/
def liveUids (uidOf : UidOf) : UidSet := .ofList (uidOf.toList.map Prod.snd) compare

/-- Drop the state of uids no key has. -/
def Engine.dropStale (eng : Engine) : Engine :=
  let live (uid : Uid) : Bool := (liveUids eng.uidOf).contains uid
  { eng with
    usageSeconds := retainKeys live eng.usageSeconds
    usageFg := retainKeys live eng.usageFg
    extensionUntil := retainKeys live eng.extensionUntil
    extGrantedToday := retainKeys live eng.extGrantedToday
    cooldownUntil := retainKeys live eng.cooldownUntil
    killCount := retainKeys live eng.killCount }

/-- Take over a new uid map, listed as in `listing`. -/
def Engine.resync (mtime : Nat) (uids : UidOf) (listing : List (String × Uid))
    (eng : Engine) : Engine :=
  let eng := listing.foldl Engine.migrateKey { eng with lastPkgMtime := some mtime }
  (eng.withUids uids).dropStale

/-- Rebuild the uid map when the package list has a new file time. -/
def syncPackages (env : Env) (s : Sys) : Outcome Sys :=
  match s.fs.statPackages env with
  | none => .ok s
  | some mtime =>
      if s.eng.lastPkgMtime = some mtime then .ok s
      else
        match s.fs.resolveUids env .syncPackages with
        | none => .err s
        | some uids =>
            .ok { s with eng := s.eng.resync mtime uids (env.uidOrder.arrange uids.toList) }

/-! ## The uids in use -/

/-- Some key has this uid. -/
def Live (uidOf : UidOf) (uid : Uid) : Prop := ∃ key : String, uidOf[key]? = some uid

theorem contains_liveUids_iff (uidOf : UidOf) (uid : Uid) :
    (liveUids uidOf).contains uid = true ↔ Live uidOf uid := by
  rw [liveUids, ExtTreeSet.contains_ofList, List.contains_iff_mem, List.mem_map]
  constructor
  · rintro ⟨p, hp, rfl⟩
    exact ⟨p.1, ExtTreeMap.mem_toList_iff_getElem?_eq_some.mp hp⟩
  · rintro ⟨key, hkey⟩
    exact ⟨(key, uid), ExtTreeMap.mem_toList_iff_getElem?_eq_some.mpr hkey, rfl⟩

/-- What is left of a per-uid map after the uids without a key are dropped. -/
def restrictLive {β : Type} (uidOf : UidOf) (m : UidMap β) : UidMap β :=
  retainKeys (fun uid => (liveUids uidOf).contains uid) m

theorem getElem?_restrictLive_of_live {β : Type} {uidOf : UidOf} {m : UidMap β} {uid : Uid}
    (hlive : Live uidOf uid) : (restrictLive uidOf m)[uid]? = m[uid]? := by
  rw [restrictLive, getElem?_retainKeys, if_pos ((contains_liveUids_iff _ _).mpr hlive)]

theorem getElem?_restrictLive_of_not_live {β : Type} {uidOf : UidOf} {m : UidMap β} {uid : Uid}
    (hlive : ¬ Live uidOf uid) : (restrictLive uidOf m)[uid]? = none := by
  rw [restrictLive, getElem?_retainKeys,
    if_neg fun h => hlive ((contains_liveUids_iff _ _).mp h)]

/-- Two restrictions agree when the maps agree on the uids in use. -/
theorem restrictLive_eq_iff {β : Type} {uidOf : UidOf} {m m' : UidMap β} :
    restrictLive uidOf m = restrictLive uidOf m' ↔
      ∀ uid, Live uidOf uid → m[uid]? = m'[uid]? := by
  constructor
  · intro h uid hlive
    rw [← getElem?_restrictLive_of_live hlive, h, getElem?_restrictLive_of_live hlive]
  · intro h
    refine ExtTreeMap.ext_getElem? fun uid => ?_
    by_cases hlive : Live uidOf uid
    · rw [getElem?_restrictLive_of_live hlive, getElem?_restrictLive_of_live hlive]
      exact h uid hlive
    · rw [getElem?_restrictLive_of_not_live hlive, getElem?_restrictLive_of_not_live hlive]

@[simp] theorem restrictLive_empty {β : Type} (uidOf : UidOf) :
    restrictLive uidOf (∅ : UidMap β) = ∅ :=
  retainKeys_empty _

/-! ## The moves of a sync -/

/-- The move the loop makes for one entry of the new map. -/
def moveOf (old : UidOf) (entry : String × Uid) : Option (Uid × Uid) :=
  (old[entry.1]?.filter fun uid => uid ≠ entry.2).map fun uid => (uid, entry.2)

/-- The moves the loop makes, in order. -/
def movesOf (old : UidOf) (listing : List (String × Uid)) : List (Uid × Uid) :=
  listing.filterMap (moveOf old)

theorem moveOf_eq_some_iff {old : UidOf} {entry : String × Uid} {move : Uid × Uid} :
    moveOf old entry = some move ↔
      old[entry.1]? = some move.1 ∧ move.2 = entry.2 ∧ move.1 ≠ move.2 := by
  unfold moveOf
  constructor
  · intro h
    obtain ⟨uid, huid, rfl⟩ := Option.map_eq_some_iff.mp h
    obtain ⟨hold, hne⟩ := Option.filter_eq_some_iff.mp huid
    exact ⟨hold, rfl, by simpa using hne⟩
  · rintro ⟨hold, hnew, hne⟩
    rw [hold, Option.filter_some_pos (by simpa [← hnew] using hne), Option.map_some, ← hnew]

theorem mem_movesOf_iff {old new : UidOf} (order : IterOrder (String × Uid))
    {move : Uid × Uid} :
    move ∈ movesOf old (order.arrange new.toList) ↔
      move.1 ≠ move.2 ∧ ∃ key : String, old[key]? = some move.1 ∧ new[key]? = some move.2 := by
  rw [movesOf, List.mem_filterMap]
  constructor
  · rintro ⟨entry, hentry, hmove⟩
    obtain ⟨hold, hnew, hne⟩ := moveOf_eq_some_iff.mp hmove
    refine ⟨hne, entry.1, hold, ?_⟩
    rw [hnew]
    exact (mem_arrange_toList_iff order new entry).mp hentry
  · rintro ⟨hne, key, hold, hnew⟩
    exact ⟨(key, move.2), (mem_arrange_toList_iff order new _).mpr hnew,
      moveOf_eq_some_iff.mpr ⟨hold, rfl, hne⟩⟩

/-- No key of the new map moves once the new map is in place. -/
theorem movesOf_self (new : UidOf) (order : IterOrder (String × Uid)) :
    movesOf new (order.arrange new.toList) = [] := by
  refine List.eq_nil_iff_forall_not_mem.mpr fun move hmove => ?_
  obtain ⟨hne, key, hold, hnew⟩ := (mem_movesOf_iff order).mp hmove
  exact hne (Option.some.inj (hold.symm.trans hnew))

theorem migrateKey_eq (eng : Engine) (entry : String × Uid) :
    eng.migrateKey entry = (moveOf eng.uidOf entry).elim eng fun move => eng.moveUid move := by
  unfold Engine.migrateKey moveOf
  cases hold : eng.uidOf[entry.1]? with
  | none => rfl
  | some old => by_cases hsame : old = entry.2 <;> simp [hsame, Option.filter]

/-- **The loop renames three maps by the moves of the listing.** -/
theorem foldl_migrateKey (listing : List (String × Uid)) (eng : Engine) :
    listing.foldl Engine.migrateKey eng =
      { eng with
        usageSeconds := renameAll (movesOf eng.uidOf listing) eng.usageSeconds
        usageFg := renameAll (movesOf eng.uidOf listing) eng.usageFg
        extensionUntil := renameAll (movesOf eng.uidOf listing) eng.extensionUntil } := by
  -- A round leaves the uid map alone, so every move is decided by the old one.
  induction listing generalizing eng with
  | nil => rfl
  | cons entry listing ih =>
      rw [List.foldl_cons, migrateKey_eq, movesOf, List.filterMap_cons]
      cases hmove : moveOf eng.uidOf entry with
      | none => exact ih eng
      | some move => exact ih (eng.moveUid move)

/-- **What a sync changes.** -/
theorem Engine.resync_eq (mtime : Nat) (uids : UidOf) (listing : List (String × Uid))
    (eng : Engine) :
    eng.resync mtime uids listing =
      { eng with
        lastPkgMtime := some mtime
        uidOf := uids
        usageSeconds := restrictLive uids (renameAll (movesOf eng.uidOf listing) eng.usageSeconds)
        usageFg := restrictLive uids (renameAll (movesOf eng.uidOf listing) eng.usageFg)
        extensionUntil :=
          restrictLive uids (renameAll (movesOf eng.uidOf listing) eng.extensionUntil)
        extGrantedToday := restrictLive uids eng.extGrantedToday
        cooldownUntil := restrictLive uids eng.cooldownUntil
        killCount := restrictLive uids eng.killCount } := by
  simp only [Engine.resync, foldl_migrateKey]
  rfl

/-- A pending change of the package list. -/
structure Pending (env : Env) (s : Sys) (mtime : Nat) (uids : UidOf) : Prop where
  stat : s.fs.statPackages env = some mtime
  changed : s.eng.lastPkgMtime ≠ some mtime
  resolved : s.fs.resolveUids env .syncPackages = some uids

theorem syncPackages_of_pending {env : Env} {s : Sys} {mtime : Nat} {uids : UidOf}
    (h : Pending env s mtime uids) :
    syncPackages env s =
      .ok { s with eng := s.eng.resync mtime uids (env.uidOrder.arrange uids.toList) } := by
  simp only [syncPackages, h.stat, if_neg h.changed, h.resolved]

/-- However a sync ends, it did nothing or it took over the new map. -/
theorem syncPackages_cases (env : Env) (s : Sys) :
    (syncPackages env s).state = s ∨
      ∃ mtime uids, Pending env s mtime uids ∧ (syncPackages env s).state =
        { s with eng := s.eng.resync mtime uids (env.uidOrder.arrange uids.toList) } := by
  cases hstat : s.fs.statPackages env with
  | none => exact .inl (by simp only [syncPackages, hstat, Outcome.state_ok])
  | some mtime =>
      by_cases hsame : s.eng.lastPkgMtime = some mtime
      · exact .inl (by simp only [syncPackages, hstat, if_pos hsame, Outcome.state_ok])
      · cases hres : s.fs.resolveUids env .syncPackages with
        | none =>
            exact .inl (by
              simp only [syncPackages, hstat, if_neg hsame, hres, Outcome.state_err])
        | some uids =>
            have hpending : Pending env s mtime uids := ⟨hstat, hsame, hres⟩
            exact .inr ⟨mtime, uids, hpending, by
              rw [syncPackages_of_pending hpending, Outcome.state_ok]⟩

/-- A change of the package list is still pending after a reload. -/
theorem pending_reload_iff {env env' : Env} {s : Sys} {mtime : Nat} {uids : UidOf} :
    Pending env (reload env' s).state mtime uids ↔ Pending env s mtime uids := by
  obtain ⟨backup, hfs⟩ := reload_fs env' s
  obtain ⟨_, _, _, _, _, _, heng⟩ := reload_frame env' s
  constructor
  · rintro ⟨hstat, hchanged, hres⟩
    rw [hfs] at hstat hres
    rw [heng] at hchanged
    exact ⟨hstat, hchanged, hres⟩
  · rintro ⟨hstat, hchanged, hres⟩
    refine ⟨?_, ?_, ?_⟩
    · rw [hfs]
      exact hstat
    · rw [heng]
      exact hchanged
    · rw [hfs]
      exact hres

/-- The rules, what is derived from them and the files stay as they are. -/
structure KeepsRules (s s' : Sys) : Prop where
  rules : s'.eng.rules = s.eng.rules
  rulesSource : s'.eng.rulesSource = s.eng.rulesSource
  tzSecs : s'.eng.tzSecs = s.eng.tzSecs
  protectedPkgs : s'.eng.protectedPkgs = s.eng.protectedPkgs
  lastMtime : s'.eng.lastMtime = s.eng.lastMtime
  fs : s'.fs = s.fs

/-- **A sync leaves the rules alone.** -/
theorem keepsRules_syncPackages (env : Env) (s : Sys) :
    KeepsRules s (syncPackages env s).state := by
  rcases syncPackages_cases env s with h | ⟨mtime, uids, -, h⟩
  · rw [h]
    exact ⟨rfl, rfl, rfl, rfl, rfl, rfl⟩
  · rw [h, Engine.resync_eq]
    exact ⟨rfl, rfl, rfl, rfl, rfl, rfl⟩

end Ningshi
