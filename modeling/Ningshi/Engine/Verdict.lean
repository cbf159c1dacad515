import Mathlib.Data.List.Destutter
import Ningshi.Engine.Usage

/-!
# Verdicts and transitions

A tick evaluates every app rule and every group membership whose key resolves
to a blockable uid.  Two things are built from the same list of verdicts: the
wanted state, one flag per uid that later verdicts overwrite, and the index of
blocked package names, to which blocking verdicts add.  The transitions then
bring the gate and the engine's own set of blocked uids to the wanted state;
they stop at the first update the gate refuses.

`mem_blocked_of_enforce` says what the set is after all updates went through,
and `blocksOnly_enforce` what can be in it however they end.
-/

namespace Ningshi

open Std FiniteMap Transition

/-! ## Verdicts -/

/-- The verdict of one entry of the rules for one uid. -/
structure Verdict where
  key : String
  uid : Uid
  block : Bool
  deriving DecidableEq

def Engine.isProtected (key : String) (eng : Engine) : Bool :=
  eng.protectedPkgs.contains (protectedName key)

/-- The uid an entry is about; system uids and protected packages are left out. -/
def Engine.target (key : String) (eng : Engine) : Option Uid :=
  eng.uidOf[key]?.filter fun uid => !(uid < 10000 || eng.isProtected key)

/-- Is this deadline still ahead? -/
def ahead (deadline : Option Nat) (now : Nat) : Bool := deadline.any fun t => now < t

def Engine.appBlocks (now : NowParts) (screenOff : Bool) (app : AppRule) (uid : Uid)
    (eng : Engine) : Bool :=
  let ext := ahead eng.extensionUntil[uid]? now.epoch
  let overLimit := eng.overDuration app.rules.duration uid none
  let cool := ahead eng.cooldownUntil[uid]? now.epoch
  app.enabled && eval app.rules now.nowMin now.weekday ext overLimit cool screenOff

def Engine.memberBlocks (now : NowParts) (screenOff : Bool) (gid : String) (g : GroupRule)
    (uid : Uid) (eng : Engine) : Bool :=
  -- an extension of the member itself does not count here
  let ext := ahead eng.groupExtensionUntil[gid]? now.epoch
  let overLimit := eng.overDuration g.rules.duration uid (some g)
  let cool :=
    if g.sharedPool then ahead eng.groupCooldownUntil[gid]? now.epoch
    else ahead eng.cooldownUntil[uid]? now.epoch
  g.enabled && eval g.rules now.nowMin now.weekday ext overLimit cool screenOff

def Engine.appVerdicts (now : NowParts) (screenOff : Bool) (eng : Engine) : List Verdict :=
  eng.rules.apps.toList.filterMap fun p =>
    (eng.target p.1).map fun uid => ⟨p.1, uid, eng.appBlocks now screenOff p.2 uid⟩

def Engine.groupVerdicts (now : NowParts) (screenOff : Bool) (eng : Engine) : List Verdict :=
  eng.rules.groups.toList.flatMap fun p =>
    p.2.members.filterMap fun member =>
      (eng.target member).map fun uid => ⟨member, uid, eng.memberBlocks now screenOff p.1 p.2 uid⟩

/-- All verdicts of a tick, in the order they are reached. -/
def Engine.verdicts (now : NowParts) (screenOff : Bool) (eng : Engine) : List Verdict :=
  eng.appVerdicts now screenOff ++ eng.groupVerdicts now screenOff

/-- The wanted state: a later verdict for a uid replaces an earlier one. -/
def want (vs : List Verdict) : UidMap Bool := insertAll (vs.map fun v => (v.uid, v.block)) ∅

/-- The name a blocking verdict contributes to the index. -/
def Verdict.name (v : Verdict) : Option (Uid × String) :=
  if v.block then (packageOf v.key).map fun pkg => (v.uid, pkg) else none

/-- The index of blocked names, sorted and without repetition. -/
def blockedNames (vs : List Verdict) : UidMap (List String) :=
  (groupAll (vs.filterMap Verdict.name) : UidMap (List String)).map fun _ names =>
    (names.insertionSort (· ≤ ·)).destutter (· ≠ ·)

/-! ## Transitions -/

/-- Bring one uid to the given state, in the gate and in the engine. -/
def Engine.setBlocked (env : Env) (uid : Uid) (blocked : Bool) (eng : Engine) : Outcome Engine :=
  match eng.gate.setBlocked (env.gateOk uid) uid blocked with
  | .err gate => .err { eng with gate := gate }
  | .ok gate =>
      .ok { eng with
        gate := gate
        blocked := if blocked then eng.blocked.insert uid else eng.blocked.erase uid }

/-- Kill what runs under a uid that becomes blocked; count it when it hit. -/
def Engine.clearUid (env : Env) (uid : Uid) (eng : Engine) : Engine :=
  if 0 < killUid env.procs uid then
    { eng with killCount := eng.killCount.insert uid (eng.killCount[uid]?.getD 0 + 1) }
  else eng

/-- One round of the loop over the wanted state. -/
def Engine.transition (env : Env) (entry : Uid × Bool) (eng : Engine) : Outcome Engine :=
  let was := eng.blocked.contains entry.1
  -- what runs is killed before the uid is blocked
  let eng := if entry.2 && !was then eng.clearUid env entry.1 else eng
  if entry.2 != was then eng.setBlocked env entry.1 entry.2 else .ok eng

/-- One round of the loop over the blocked uids: unblock what no rule mentions. -/
def Engine.release (env : Env) (wanted : UidMap Bool) (uid : Uid) (eng : Engine) :
    Outcome Engine :=
  if wanted.contains uid then .ok eng else eng.setBlocked env uid false

/-- Install the index and apply the transitions. -/
def Engine.enforce (env : Env) (vs : List Verdict) (eng : Engine) : Outcome Engine :=
  let eng := { eng with gate := eng.gate.setBlockIndex (blockedNames vs) }
  (Outcome.forEach (Engine.transition env) (env.wantOrder.arrange (want vs).toList) eng).bind
    fun eng => Outcome.forEach (Engine.release env (want vs)) eng.blocked.toList eng

/-! ## The wanted state and the index -/

theorem target_eq_some_iff {eng : Engine} {key : String} {uid : Uid} :
    eng.target key = some uid ↔
      eng.uidOf[key]? = some uid ∧ 10000 ≤ uid ∧ eng.isProtected key = false := by
  simp [Engine.target, Option.filter_eq_some_iff]

/-- A verdict is about the uid its key resolves to. -/
theorem target_of_mem_verdicts {eng : Engine} {now : NowParts} {screenOff : Bool} {v : Verdict}
    (hv : v ∈ eng.verdicts now screenOff) : eng.target v.key = some v.uid := by
  rcases List.mem_append.mp hv with happ | hgroup
  · obtain ⟨p, -, hp⟩ := List.mem_filterMap.mp happ
    obtain ⟨uid, huid, rfl⟩ := Option.map_eq_some_iff.mp hp
    exact huid
  · obtain ⟨p, -, hp⟩ := List.mem_flatMap.mp hgroup
    obtain ⟨member, -, hmember⟩ := List.mem_filterMap.mp hp
    obtain ⟨uid, huid, rfl⟩ := Option.map_eq_some_iff.mp hmember
    exact huid

theorem getElem?_want (vs : List Verdict) (uid : Uid) :
    (want vs)[uid]? = lastValue (vs.map fun v => (v.uid, v.block)) uid := by
  rw [want, getElem?_insertAll, ExtTreeMap.getElem?_empty, Option.or_none]

/-- What is wanted blocked is blocked by some verdict. -/
theorem exists_verdict_of_want {vs : List Verdict} {uid : Uid} {block : Bool}
    (h : (want vs)[uid]? = some block) : ∃ v ∈ vs, v.uid = uid ∧ v.block = block := by
  rw [getElem?_want] at h
  obtain ⟨v, hv, hpair⟩ := List.mem_map.mp (mem_of_lastValue_eq_some h)
  obtain ⟨rfl, rfl⟩ := Prod.mk.inj hpair
  exact ⟨v, hv, rfl, rfl⟩

theorem Verdict.name_eq_some_iff {v : Verdict} {uid : Uid} {pkg : String} :
    v.name = some (uid, pkg) ↔ v.block = true ∧ packageOf v.key = some pkg ∧ v.uid = uid := by
  unfold Verdict.name
  by_cases hblock : v.block
  · simp only [hblock, if_true, Option.map_eq_some_iff, Prod.mk.injEq, true_and]
    constructor
    · rintro ⟨p, hp, huid, rfl⟩
      exact ⟨hp, huid⟩
    · rintro ⟨hp, huid⟩
      exact ⟨pkg, hp, huid, rfl⟩
  · simp [hblock]

/-- Dropping neighbours that are equal loses no element. -/
theorem mem_destutter_ne {α : Type} [DecidableEq α] {a : α} {l : List α} :
    a ∈ l.destutter (· ≠ ·) ↔ a ∈ l := by
  have hfrom (l : List α) (b : α) : a ∈ l.destutter' (· ≠ ·) b ↔ a = b ∨ a ∈ l := by
    induction l generalizing b with
    | nil => simp
    | cons c l ih =>
        by_cases hbc : b ≠ c
        · rw [List.destutter'_cons_pos _ hbc, List.mem_cons, ih, List.mem_cons]
        · rw [List.destutter'_cons_neg _ hbc, ih, List.mem_cons, ← not_ne_iff.mp hbc, ← or_assoc,
            or_self]
  cases l with
  | nil => rfl
  | cons b l => rw [List.destutter_cons', hfrom, List.mem_cons]

/-- **The names in the index** are the packages of the blocking verdicts. -/
theorem mem_blockedNames_iff (vs : List Verdict) (uid : Uid) (pkg : String) :
    pkg ∈ (blockedNames vs)[uid]?.getD [] ↔
      ∃ v ∈ vs, v.uid = uid ∧ v.block = true ∧ packageOf v.key = some pkg := by
  have hsorted (names : Option (List String)) :
      pkg ∈ (names.map fun l => (l.insertionSort (· ≤ ·)).destutter (· ≠ ·)).getD [] ↔
        pkg ∈ names.getD [] := by
    cases names with
    | none => rfl
    | some l =>
        rw [Option.map_some, Option.getD_some, Option.getD_some, mem_destutter_ne,
          List.mem_insertionSort]
  rw [blockedNames, ExtTreeMap.getElem?_map, hsorted, getD_groupAll, List.mem_map]
  constructor
  · rintro ⟨p, hp, rfl⟩
    obtain ⟨hp, hkey⟩ := List.mem_filter.mp hp
    obtain ⟨v, hv, hname⟩ := List.mem_filterMap.mp hp
    obtain ⟨hblock, hpkg, huid⟩ := Verdict.name_eq_some_iff.mp hname
    exact ⟨v, hv, huid.trans (by simpa using hkey), hblock, hpkg⟩
  · rintro ⟨v, hv, huid, hblock, hpkg⟩
    exact ⟨(uid, pkg), List.mem_filter.mpr ⟨List.mem_filterMap.mpr
      ⟨v, hv, Verdict.name_eq_some_iff.mpr ⟨hblock, hpkg, huid⟩⟩, by simp⟩, rfl⟩

/-- The index has a name for a uid exactly when a blocking verdict for it has
a key with a package. -/
theorem blockedNames_ne_nil_iff (vs : List Verdict) (uid : Uid) :
    (blockedNames vs)[uid]?.getD [] ≠ [] ↔
      ∃ v ∈ vs, v.uid = uid ∧ v.block = true ∧ (packageOf v.key).isSome := by
  constructor
  · intro hne
    obtain ⟨pkg, hpkg⟩ := List.exists_mem_of_ne_nil _ hne
    obtain ⟨v, hv, huid, hblock, hkey⟩ := (mem_blockedNames_iff vs uid pkg).mp hpkg
    exact ⟨v, hv, huid, hblock, by rw [hkey]; rfl⟩
  · rintro ⟨v, hv, huid, hblock, hkey⟩
    obtain ⟨pkg, hpkg⟩ := Option.isSome_iff_exists.mp hkey
    exact List.ne_nil_of_mem ((mem_blockedNames_iff vs uid pkg).mpr ⟨v, hv, huid, hblock, hpkg⟩)

/-! ## What transitions change -/

/-- `eng'` differs from `eng` in the block map, the set of blocked uids and the
kill counts only, and not in the index. -/
def SameButBlocks (eng eng' : Engine) : Prop :=
  ∃ gate blocked killCount, gate.identity = eng.gate.identity ∧
    eng' = { eng with gate := gate, blocked := blocked, killCount := killCount }

theorem SameButBlocks.refl (eng : Engine) : SameButBlocks eng eng := ⟨_, _, _, rfl, rfl⟩

theorem SameButBlocks.trans {a b c : Engine} (hab : SameButBlocks a b)
    (hbc : SameButBlocks b c) : SameButBlocks a c := by
  obtain ⟨gate, blocked, killCount, hidentity, rfl⟩ := hab
  obtain ⟨gate', blocked', killCount', hidentity', rfl⟩ := hbc
  exact ⟨gate', blocked', killCount', hidentity'.trans hidentity, rfl⟩

/-- **A round of the loop over the wanted state**: kills may be counted, then
the uid is updated if it has to be. -/
theorem transition_eq (env : Env) (entry : Uid × Bool) (eng : Engine) :
    ∃ killCount, eng.transition env entry =
      if entry.2 != eng.blocked.contains entry.1
        then { eng with killCount := killCount }.setBlocked env entry.1 entry.2
        else .ok { eng with killCount := killCount } := by
  simp only [Engine.transition]
  by_cases hclear : (entry.2 && !eng.blocked.contains entry.1) = true
  · rw [if_pos hclear]
    unfold Engine.clearUid
    split_ifs <;> exact ⟨_, rfl⟩
  · rw [if_neg hclear]
    exact ⟨eng.killCount, rfl⟩

theorem setBlocked_ok {env : Env} {uid : Uid} {blocked : Bool} {eng eng' : Engine}
    (h : eng.setBlocked env uid blocked = .ok eng') :
    ∃ gate, eng.gate.setBlocked (env.gateOk uid) uid blocked = .ok gate ∧
      eng' = { eng with
        gate := gate
        blocked := if blocked then eng.blocked.insert uid else eng.blocked.erase uid } := by
  unfold Engine.setBlocked at h
  split at h
  next => cases h
  next gate hgate => exact ⟨gate, hgate, (Outcome.ok.inj h).symm⟩

theorem sameButBlocks_setBlocked (env : Env) (uid : Uid) (blocked : Bool) (eng : Engine) :
    SameButBlocks eng (eng.setBlocked env uid blocked).state := by
  have hidentity := Gate.setBlocked_identity (env.gateOk uid) blocked uid eng.gate
  unfold Engine.setBlocked
  split
  next gate hgate =>
      rw [hgate] at hidentity
      exact ⟨gate, eng.blocked, eng.killCount, hidentity, rfl⟩
  next gate hgate =>
      rw [hgate] at hidentity
      exact ⟨gate, _, eng.killCount, hidentity, rfl⟩

theorem sameButBlocks_transition (env : Env) (entry : Uid × Bool) (eng : Engine) :
    SameButBlocks eng (eng.transition env entry).state := by
  obtain ⟨killCount, h⟩ := transition_eq env entry eng
  have hcounted : SameButBlocks eng { eng with killCount := killCount } := ⟨_, _, _, rfl, rfl⟩
  rw [h]
  split_ifs
  · exact hcounted.trans (sameButBlocks_setBlocked env entry.1 entry.2 _)
  · exact hcounted

theorem sameButBlocks_release (env : Env) (wanted : UidMap Bool) (uid : Uid) (eng : Engine) :
    SameButBlocks eng (eng.release env wanted uid).state := by
  unfold Engine.release
  split_ifs
  · exact .refl eng
  · exact sameButBlocks_setBlocked env uid false eng

/-- **What enforcing changes**, however it ends. -/
theorem sameButBlocks_enforce (env : Env) (vs : List Verdict) (eng : Engine) :
    SameButBlocks { eng with gate := eng.gate.setBlockIndex (blockedNames vs) }
      (eng.enforce env vs).state := by
  simp only [Engine.enforce]
  refine Outcome.bind_state ?_ fun s _ hs => ?_
  · exact Outcome.forEach_state (p := SameButBlocks _)
      (fun entry _ s hs => hs.trans (sameButBlocks_transition env entry s)) (.refl _)
  · exact Outcome.forEach_state (p := SameButBlocks _)
      (fun uid _ s hs => hs.trans (sameButBlocks_release env (want vs) uid s)) hs

/-- A tick installs the index of its verdicts. -/
theorem identity_enforce (env : Env) (vs : List Verdict) (eng : Engine) :
    (eng.enforce env vs).state.gate.identity = blockedNames vs := by
  obtain ⟨gate, blocked, killCount, hidentity, h⟩ := sameButBlocks_enforce env vs eng
  rw [h]
  exact hidentity

/-! ## The blocked uids afterwards -/

theorem mem_setBlocked_ok {env : Env} {uid u : Uid} {blocked : Bool} {eng eng' : Engine}
    (h : eng.setBlocked env uid blocked = .ok eng') :
    u ∈ eng'.blocked ↔ if uid = u then blocked = true else u ∈ eng.blocked := by
  obtain ⟨gate, -, rfl⟩ := setBlocked_ok h
  cases blocked with
  | true =>
      by_cases hu : uid = u
      · simp [hu]
      · simp [ExtTreeSet.mem_insert, hu]
  | false =>
      by_cases hu : uid = u
      · simp [hu]
      · simp [ExtTreeSet.mem_erase, hu]

theorem mem_transition_ok {env : Env} {entry : Uid × Bool} {u : Uid} {eng eng' : Engine}
    (h : eng.transition env entry = .ok eng') :
    u ∈ eng'.blocked ↔ if entry.1 = u then entry.2 = true else u ∈ eng.blocked := by
  obtain ⟨killCount, htransition⟩ := transition_eq env entry eng
  rw [htransition] at h
  by_cases hchange : (entry.2 != eng.blocked.contains entry.1) = true
  · rw [if_pos hchange] at h
    have hmem := mem_setBlocked_ok (u := u) h
    exact hmem
  · -- No update: the entry says what the set says.
    rw [if_neg hchange] at h
    obtain rfl := Outcome.ok.inj h
    have hsame : entry.2 = eng.blocked.contains entry.1 := by simpa using hchange
    split_ifs with hu
    · rw [hsame, hu, ExtTreeSet.contains_iff_mem]
    · rfl

theorem mem_release_ok {env : Env} {wanted : UidMap Bool} {uid u : Uid} {eng eng' : Engine}
    (h : eng.release env wanted uid = .ok eng') :
    u ∈ eng'.blocked ↔ u ∈ eng.blocked ∧ (uid = u → u ∈ wanted) := by
  unfold Engine.release at h
  split_ifs at h with hwanted
  · obtain rfl := Outcome.ok.inj h
    refine ⟨fun hu => ⟨hu, ?_⟩, And.left⟩
    rintro rfl
    simpa using hwanted
  · rw [mem_setBlocked_ok h]
    by_cases hu : uid = u
    · subst hu
      simpa using fun _ => hwanted
    · simp [hu]

private theorem mem_transitions_ok {env : Env} {l : List (Uid × Bool)} {u : Uid}
    {eng eng' : Engine} (h : Outcome.forEach (Engine.transition env) l eng = .ok eng') :
    u ∈ eng'.blocked ↔ (lastValue l u).elim (u ∈ eng.blocked) fun block => block = true := by
  induction l generalizing eng with
  | nil =>
      obtain rfl := Outcome.ok.inj h
      rfl
  | cons entry l ih =>
      obtain ⟨mid, hmid, hrest⟩ := Outcome.bind_eq_ok_iff.mp h
      rw [ih hrest, lastValue_cons]
      -- A later entry for the uid decides; without one it is the first.
      cases lastValue l u with
      | some block => rfl
      | none =>
          rw [Option.none_or, Option.elim_none, mem_transition_ok hmid]
          split_ifs <;> rfl

private theorem mem_releases_ok {env : Env} {wanted : UidMap Bool} {l : List Uid} {u : Uid}
    {eng eng' : Engine} (h : Outcome.forEach (Engine.release env wanted) l eng = .ok eng') :
    u ∈ eng'.blocked ↔ u ∈ eng.blocked ∧ (u ∈ l → u ∈ wanted) := by
  induction l generalizing eng with
  | nil =>
      obtain rfl := Outcome.ok.inj h
      simp
  | cons uid l ih =>
      obtain ⟨mid, hmid, hrest⟩ := Outcome.bind_eq_ok_iff.mp h
      rw [ih hrest, mem_release_ok hmid, List.mem_cons]
      constructor
      · rintro ⟨⟨hu, hhead⟩, htail⟩
        exact ⟨hu, fun hmem => hmem.elim (fun heq => hhead heq.symm) htail⟩
      · rintro ⟨hu, hall⟩
        exact ⟨⟨hu, fun heq => hall (.inl heq.symm)⟩, fun hmem => hall (.inr hmem)⟩

/-- **The blocked uids after all updates went through** are those wanted blocked. -/
theorem mem_blocked_of_enforce {env : Env} {vs : List Verdict} {eng eng' : Engine}
    (h : eng.enforce env vs = .ok eng') (u : Uid) :
    u ∈ eng'.blocked ↔ (want vs)[u]? = some true := by
  obtain ⟨mid, hmid, hrest⟩ := Outcome.bind_eq_ok_iff.mp h
  rw [mem_releases_ok hrest, ExtTreeSet.mem_toList, mem_transitions_ok hmid, lastValue_arrange]
  -- The transitions settle what is mentioned, the releases everything else.
  cases hwant : (want vs)[u]? with
  | some block =>
      have hmem : u ∈ want vs := ExtTreeMap.mem_iff_isSome_getElem?.mpr (by rw [hwant]; rfl)
      simp [hmem]
  | none =>
      have hmem : u ∉ want vs := fun hmem => by
        have := ExtTreeMap.mem_iff_isSome_getElem?.mp hmem
        rw [hwant] at this
        cases this
      simp [hmem]

/-- Only uids with this property are blocked, and the kernel agrees about what
is blocked. -/
structure BlocksOnly (q : Uid → Prop) (eng : Engine) : Prop where
  engine : ∀ u ∈ eng.blocked, q u
  kernel : ∀ u, u ∈ eng.gate.kernel ↔ u ∈ eng.blocked

theorem BlocksOnly.mono {q r : Uid → Prop} {eng : Engine} (h : BlocksOnly q eng)
    (himp : ∀ u, q u → r u) : BlocksOnly r eng :=
  ⟨fun u hu => himp u (h.engine u hu), h.kernel⟩

theorem BlocksOnly.congr {q : Uid → Prop} {eng eng' : Engine} (h : BlocksOnly q eng)
    (hgate : eng'.gate = eng.gate) (hblocked : eng'.blocked = eng.blocked) :
    BlocksOnly q eng' := by
  refine ⟨fun u hu => h.engine u (hblocked ▸ hu), fun u => ?_⟩
  rw [hgate, hblocked]
  exact h.kernel u

theorem blocksOnly_setBlocked {q : Uid → Prop} {env : Env} {uid : Uid} {blocked : Bool}
    {eng : Engine} (heng : BlocksOnly q eng) (huid : blocked = true → q uid) :
    BlocksOnly q (eng.setBlocked env uid blocked).state := by
  cases hset : eng.setBlocked env uid blocked with
  | err eng' =>
      unfold Engine.setBlocked at hset
      split at hset
      next gate hgate =>
        -- A refused update changes neither side.
        obtain rfl := Gate.setBlocked_eq_err hgate
        obtain rfl := Outcome.err.inj hset
        exact heng
      next => cases hset
  | ok eng' =>
      have hmem (u : Uid) := mem_setBlocked_ok (u := u) hset
      obtain ⟨gate, hgate, heng'⟩ := setBlocked_ok hset
      have hkernel : eng'.gate = gate := by rw [heng']
      refine ⟨fun u hu => ?_, fun u => ?_⟩
      · have hu' := (hmem u).mp hu
        split_ifs at hu' with heq
        · exact heq ▸ huid hu'
        · exact heng.engine u hu'
      · rw [Outcome.state_ok, hkernel, Gate.mem_setBlocked_kernel hgate, hmem u, heng.kernel u]

theorem blocksOnly_transition {q : Uid → Prop} {env : Env} {entry : Uid × Bool} {eng : Engine}
    (heng : BlocksOnly q eng) (hentry : entry.2 = true → q entry.1) :
    BlocksOnly q (eng.transition env entry).state := by
  obtain ⟨killCount, h⟩ := transition_eq env entry eng
  have hcounted : BlocksOnly q { eng with killCount := killCount } := heng.congr rfl rfl
  rw [h]
  split_ifs
  · exact blocksOnly_setBlocked hcounted hentry
  · exact hcounted

/-- **What can be blocked after enforcing**, however it ends: what was blocked
before, and what is wanted blocked. -/
theorem blocksOnly_enforce {q : Uid → Prop} {env : Env} {vs : List Verdict} {eng : Engine}
    (heng : BlocksOnly q eng) (hwant : ∀ u, (want vs)[u]? = some true → q u) :
    BlocksOnly q (eng.enforce env vs).state := by
  simp only [Engine.enforce]
  refine Outcome.bind_state ?_ fun s _ hs => ?_
  · refine Outcome.forEach_state (p := BlocksOnly q) (fun entry hentry s hs => ?_)
      ⟨heng.engine, heng.kernel⟩
    refine blocksOnly_transition hs fun hblock => hwant entry.1 ?_
    rw [← hblock]
    exact (mem_arrange_toList_iff env.wantOrder (want vs) entry).mp hentry
  · refine Outcome.forEach_state (p := BlocksOnly q) (fun uid _ s hs => ?_) hs
    unfold Engine.release
    split_ifs
    · exact hs
    · exact blocksOnly_setBlocked hs (by simp)

end Ningshi
