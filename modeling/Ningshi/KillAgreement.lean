import Ningshi.Engine.Tick
import Ningshi.Identity

/-!
# Two ways to be killed

The gate kills a process after looking at its uid and its name.  A tick kills
what runs under a uid that becomes blocked, and sweeps all blocked uids from
time to time; both go by the uid alone.  `agree_iff` says exactly when a tick
kills no process that the gate would spare: a condition on the rules, the uids, the
process table and the names in it.

For this the kills of a tick are listed (`tickKills`), and described by what the kernel
files show (`mem_killed_iff`) and by the updates of the gate that go through
(`mem_enforceKills_iff`).
-/

namespace Ningshi

open Std FiniteMap Transition

/-! ## Who is signalled under a uid -/

/-- The processes that `killUids` signals, with the uid each was listed under. -/
def killed (view : ProcView) (uids : UidSet) : List (Int × Uid) :=
  if uids.isEmpty then []
  else (killTargets view uids).toList.filter fun p => view.signalled p.1 p.2

theorem length_killed (view : ProcView) (uids : UidSet) :
    (killed view uids).length = killUids view uids := by
  unfold killed killUids
  split_ifs <;> rfl

/-- The kernel files show a process under a uid: the cgroup file of the uid, or `/proc`
where there is none. -/
def ProcView.RunsUnder (view : ProcView) (pid : Int) (uid : Uid) : Prop :=
  1 < pid ∧ match view.cgroupProcs uid with
    | some pids => pid ∈ pids
    | none => pid ∈ view.pids.getD [] ∧ view.pidUid pid = some uid

/-- Of two uids that a process is shown under, the second replaces the first. -/
def ProcView.Before (view : ProcView) (first second : Uid) : Prop :=
  (view.cgroupProcs first).isSome = true ∧
    ((view.cgroupProcs second).isSome = true → first < second)

/-- Found through a cgroup file. -/
def listedTargets (view : ProcView) (uids : UidSet) : List (Int × Uid) :=
  uids.toList.flatMap fun uid =>
    (((view.cgroupProcs uid).getD []).filter fun pid => 1 < pid).map fun pid => (pid, uid)

/-- Found by the pass over `/proc`. -/
def scannedTargets (view : ProcView) (uids : UidSet) : List (Int × Uid) :=
  let missing := uids.toList.filter fun uid => (view.cgroupProcs uid).isNone
  if missing = [] then []
  else ((view.pids.getD []).filter fun pid => 1 < pid).filterMap fun pid =>
    ((view.pidUid pid).filter fun uid => uid ∈ missing).map fun uid => (pid, uid)

section Targets

variable {view : ProcView} {uids : UidSet} {pid : Int} {uid : Uid}

theorem getElem?_killTargets (view : ProcView) (uids : UidSet) (pid : Int) :
    (killTargets view uids)[pid]? =
      (lastValue (scannedTargets view uids) pid).or (lastValue (listedTargets view uids) pid) := by
  have htargets : killTargets view uids =
      insertAll (listedTargets view uids ++ scannedTargets view uids) ∅ := rfl
  rw [htargets, getElem?_insertAll, lastValue_append, ExtTreeMap.getElem?_empty, Option.or_none]

theorem mem_scannedTargets :
    (pid, uid) ∈ scannedTargets view uids ↔
      uid ∈ uids ∧ (view.cgroupProcs uid).isSome = false ∧ view.RunsUnder pid uid := by
  have hscan : (pid, uid) ∈ scannedTargets view uids ↔
      1 < pid ∧ pid ∈ view.pids.getD [] ∧ view.pidUid pid = some uid ∧
        uid ∈ uids ∧ (view.cgroupProcs uid).isNone = true := by
    simp only [scannedTargets]
    split_ifs with hnone
    · -- nothing is missing, so the pass is left out
      have hleft := List.filter_eq_nil_iff.mp hnone uid
      rw [ExtTreeSet.mem_toList] at hleft
      simp only [List.not_mem_nil, false_iff]
      rintro ⟨-, -, -, huid, hgone⟩
      exact hleft huid hgone
    · simp only [List.mem_filterMap, List.mem_filter, decide_eq_true_eq,
        Option.map_eq_some_iff, Option.filter_eq_some_iff, Prod.mk.injEq, ExtTreeSet.mem_toList]
      constructor
      · rintro ⟨_, ⟨hlisted, hpid⟩, _, ⟨howner, huid, hgone⟩, rfl, rfl⟩
        exact ⟨hpid, hlisted, howner, huid, hgone⟩
      · rintro ⟨hpid, hlisted, howner, huid, hgone⟩
        exact ⟨pid, ⟨hlisted, hpid⟩, uid, ⟨howner, huid, hgone⟩, rfl, rfl⟩
  rw [hscan, ProcView.RunsUnder]
  cases view.cgroupProcs uid with
  | some pids => simp
  | none =>
      simp only [Option.isNone_none, Option.isSome_none, and_true, true_and]
      constructor
      · rintro ⟨hpid, hlisted, howner, huid⟩
        exact ⟨huid, hpid, hlisted, howner⟩
      · rintro ⟨huid, hpid, hlisted, howner⟩
        exact ⟨hpid, hlisted, howner, huid⟩

/-- The pass over `/proc` finds a process once. -/
theorem lastValue_scannedTargets :
    lastValue (scannedTargets view uids) pid = some uid ↔
      uid ∈ uids ∧ (view.cgroupProcs uid).isSome = false ∧ view.RunsUnder pid uid := by
  rw [lastValue_eq_some_iff fun v v' hv hv' => ?_, mem_scannedTargets]
  have howner {u : Uid} (hu : (pid, u) ∈ scannedTargets view uids) :
      view.pidUid pid = some u := by
    obtain ⟨-, hnone, -, hruns⟩ := mem_scannedTargets.mp hu
    rw [Option.isSome_eq_false_iff, Option.isNone_iff_eq_none] at hnone
    rw [hnone] at hruns
    exact hruns.2
  exact Option.some.inj ((howner hv).symm.trans (howner hv'))

/-- Of the uids with a cgroup file the greatest one is left. -/
theorem lastValue_listedTargets :
    lastValue (listedTargets view uids) pid = some uid ↔
      uid ∈ uids ∧ (view.cgroupProcs uid).isSome = true ∧ view.RunsUnder pid uid ∧
        ∀ other ∈ uids, (view.cgroupProcs other).isSome = true → view.RunsUnder pid other →
          other = uid ∨ other < uid := by
  have hfound (u : Uid) : pid ∈ ((view.cgroupProcs u).getD []).filter (fun pid => 1 < pid) ↔
      (view.cgroupProcs u).isSome = true ∧ view.RunsUnder pid u := by
    unfold ProcView.RunsUnder
    cases view.cgroupProcs u <;> simp [and_comm]
  have hsorted : uids.toList.Pairwise (· < ·) :=
    ExtTreeSet.ordered_toList.imp fun h => Std.compare_eq_lt.mp h
  rw [listedTargets, lastValue_flatMap_iff (fun _ _ => UInt32.lt_asymm) hsorted
    (fun u => ((view.cgroupProcs u).getD []).filter fun pid => 1 < pid)]
  simp only [hfound, ExtTreeSet.mem_toList, and_imp, and_assoc]

/-- **Who is signalled**: whoever runs under one of the uids, under the last of them. -/
theorem mem_killed_iff :
    (pid, uid) ∈ killed view uids ↔
      uid ∈ uids ∧ view.RunsUnder pid uid ∧ view.signalled pid uid = true ∧
        ∀ other ∈ uids, view.RunsUnder pid other → other = uid ∨ view.Before other uid := by
  have hkilled : (pid, uid) ∈ killed view uids ↔
      uids.isEmpty = false ∧ (killTargets view uids)[pid]? = some uid ∧
        view.signalled pid uid = true := by
    unfold killed
    cases uids.isEmpty <;> simp [ExtTreeMap.mem_toList_iff_getElem?_eq_some]
  have hempty : uid ∈ uids → uids.isEmpty = false := fun huid =>
    ExtTreeSet.isEmpty_eq_false_iff.mpr (ExtTreeSet.ne_empty_of_mem huid)
  rw [hkilled, getElem?_killTargets, Option.or_eq_some_iff, lastValue_scannedTargets,
    lastValue_listedTargets, lastValue_eq_none_iff]
  constructor
  · rintro ⟨-, ⟨huid, hnone, hruns⟩ | ⟨hnot, huid, hsome, hruns, hlast⟩, hsignal⟩
    · refine ⟨huid, hruns, hsignal, fun other hother hruns' => ?_⟩
      by_cases hsome : (view.cgroupProcs other).isSome = true
      · exact .inr ⟨hsome, fun h => absurd (hnone.symm.trans h) Bool.false_ne_true⟩
      · -- both are read from `/proc`
        have hother' : lastValue (scannedTargets view uids) pid = some other :=
          lastValue_scannedTargets.mpr ⟨hother, Bool.eq_false_iff.mpr hsome, hruns'⟩
        have huid' : lastValue (scannedTargets view uids) pid = some uid :=
          lastValue_scannedTargets.mpr ⟨huid, hnone, hruns⟩
        exact .inl (Option.some.inj (hother'.symm.trans huid'))
    · refine ⟨huid, hruns, hsignal, fun other hother hruns' => ?_⟩
      by_cases hsome' : (view.cgroupProcs other).isSome = true
      · exact (hlast other hother hsome' hruns').imp_right fun hlt => ⟨hsome', fun _ => hlt⟩
      · exact absurd rfl (hnot _ (mem_scannedTargets.mpr
          ⟨hother, Bool.eq_false_iff.mpr hsome', hruns'⟩))
  · rintro ⟨huid, hruns, hsignal, hlast⟩
    refine ⟨hempty huid, ?_, hsignal⟩
    cases hsome : (view.cgroupProcs uid).isSome with
    | false => exact .inl ⟨huid, rfl, hruns⟩
    | true =>
        refine .inr ⟨?_, huid, rfl, hruns, fun other hother hsome' hruns' => ?_⟩
        · rintro ⟨p, other⟩ hmem rfl
          obtain ⟨hother, hnone, hruns'⟩ := mem_scannedTargets.mp hmem
          rcases hlast other hother hruns' with rfl | hbefore
          · exact Bool.false_ne_true (hnone.symm.trans hsome)
          · exact Bool.false_ne_true (hnone.symm.trans hbefore.1)
        · exact (hlast other hother hruns').imp_right fun hbefore => hbefore.2 hsome

end Targets

/-! ## The kills of a tick -/

/-- The kills of the loop over the wanted state. -/
def transitionKills (env : Env) : List (Uid × Bool) → Engine → List (Int × Uid)
  | [], _ => []
  | entry :: rest, eng =>
      let here :=
        if entry.2 && !eng.blocked.contains entry.1 then killed env.procs (.ofList [entry.1])
        else []
      match eng.transition env entry with
      | .ok eng => here ++ transitionKills env rest eng
      | .err _ => here

/-- The kills of the periodic sweep. -/
def Engine.sweepKills (env : Env) (eng : Engine) : List (Int × Uid) :=
  if sweepSecs ≤ env.epoch - eng.lastSweep then killed env.procs eng.blocked else []

/-- The kills of a tick that has come to these verdicts. -/
def Engine.enforceKills (env : Env) (vs : List Verdict) (eng : Engine) : List (Int × Uid) :=
  transitionKills env (env.wantOrder.arrange (want vs).toList)
      { eng with gate := eng.gate.setBlockIndex (blockedNames vs) } ++
    match eng.enforce env vs with
    | .ok eng => eng.sweepKills env
    | .err _ => []

def tickKills (env : Env) (s : Sys) : List (Int × Uid) :=
  match refresh env s with
  | .ok mid => (mid.eng.prepare env).enforceKills env ((mid.eng.prepare env).judge env)
  | .err _ => []

/-! ## Updates that go through -/

/-- An entry needs no update of the gate, or the gate accepts it. -/
def UpdateAccepted (env : Env) (eng : Engine) (entry : Uid × Bool) : Prop :=
  (entry.2 = true ↔ entry.1 ∈ eng.blocked) ∨
    env.gateOk entry.1 = true ∧ (entry.2 = true ∨ entry.1 ∈ eng.gate.kernel)

/-- All updates of a tick with these verdicts are accepted. -/
structure UpdatesAccepted (env : Env) (vs : List Verdict) (eng : Engine) : Prop where
  wanted : ∀ entry ∈ (want vs).toList, UpdateAccepted env eng entry
  released : ∀ uid ∈ eng.blocked, uid ∉ want vs →
    env.gateOk uid = true ∧ uid ∈ eng.gate.kernel

theorem gate_setBlocked_isOk_iff {accepted blocked : Bool} {uid : Uid} {g : Gate} :
    (g.setBlocked accepted uid blocked).isOk = true ↔
      accepted = true ∧ (blocked = true ∨ uid ∈ g.kernel) := by
  unfold Gate.setBlocked
  cases blocked <;> cases accepted <;> simp
  split_ifs with h <;> simp [h]

theorem setBlocked_isOk_iff {env : Env} {uid : Uid} {blocked : Bool} {eng : Engine} :
    (eng.setBlocked env uid blocked).isOk = true ↔
      env.gateOk uid = true ∧ (blocked = true ∨ uid ∈ eng.gate.kernel) := by
  rw [← gate_setBlocked_isOk_iff]
  unfold Engine.setBlocked
  cases eng.gate.setBlocked (env.gateOk uid) uid blocked <;> rfl

/-- An update leaves the kernel map alone at every other uid. -/
theorem mem_kernel_setBlocked_ok {env : Env} {uid u : Uid} {blocked : Bool} {eng eng' : Engine}
    (h : eng.setBlocked env uid blocked = .ok eng') (hne : u ≠ uid) :
    u ∈ eng'.gate.kernel ↔ u ∈ eng.gate.kernel := by
  obtain ⟨gate, hgate, rfl⟩ := setBlocked_ok h
  rw [Gate.mem_setBlocked_kernel hgate, if_neg hne.symm]

theorem transition_isOk_iff (env : Env) (entry : Uid × Bool) (eng : Engine) :
    (eng.transition env entry).isOk = true ↔ UpdateAccepted env eng entry := by
  obtain ⟨killCount, h⟩ := transition_eq env entry eng
  have hsame : (entry.2 != eng.blocked.contains entry.1) = true ↔
      ¬ (entry.2 = true ↔ entry.1 ∈ eng.blocked) := by
    rw [bne_iff_ne, ← ExtTreeSet.contains_iff_mem, ← Bool.eq_iff_iff]
  rw [h, UpdateAccepted]
  split_ifs with hchange
  · rw [setBlocked_isOk_iff]
    exact (or_iff_right (hsame.mp hchange)).symm
  · exact iff_of_true rfl (.inl (not_not.mp fun hne => hchange (hsame.mpr hne)))

/-- A round for one uid leaves every other uid as it was. -/
theorem transition_of_ne {env : Env} {entry : Uid × Bool} {u : Uid} {eng eng' : Engine}
    (h : eng.transition env entry = .ok eng') (hne : u ≠ entry.1) :
    (u ∈ eng'.blocked ↔ u ∈ eng.blocked) ∧ (u ∈ eng'.gate.kernel ↔ u ∈ eng.gate.kernel) := by
  refine ⟨by rw [mem_transition_ok h, if_neg hne.symm], ?_⟩
  obtain ⟨killCount, htransition⟩ := transition_eq env entry eng
  rw [htransition] at h
  split_ifs at h
  · have hmem := mem_kernel_setBlocked_ok h hne
    exact hmem
  · rw [← Outcome.ok.inj h]

theorem updateAccepted_of_ne {env : Env} {entry other : Uid × Bool} {eng eng' : Engine}
    (h : eng.transition env entry = .ok eng') (hne : other.1 ≠ entry.1) :
    UpdateAccepted env eng' other ↔ UpdateAccepted env eng other := by
  obtain ⟨hblocked, hkernel⟩ := transition_of_ne h hne
  rw [UpdateAccepted, UpdateAccepted, hblocked, hkernel]

/-- **When the loop over the wanted state gets through**, and what it leaves
alone. -/
theorem transitions_isOk_iff {env : Env} {l : List (Uid × Bool)} {eng : Engine}
    (hnodup : (l.map Prod.fst).Nodup) :
    (Outcome.forEach (Engine.transition env) l eng).isOk = true ↔
      ∀ entry ∈ l, UpdateAccepted env eng entry := by
  induction l generalizing eng with
  | nil => simp
  | cons entry l ih =>
      obtain ⟨hfresh, hrest⟩ := List.nodup_cons.mp hnodup
      have hfirst := transition_isOk_iff env entry eng
      rw [Outcome.forEach_cons, List.forall_mem_cons, ← hfirst]
      cases hstep : eng.transition env entry with
      | err eng' => simp
      | ok eng' =>
          simp only [Outcome.bind_ok, ih hrest, Outcome.isOk_ok, true_and]
          refine forall₂_congr fun other hother => ?_
          refine updateAccepted_of_ne hstep fun heq => hfresh ?_
          exact heq ▸ List.mem_map_of_mem hother

theorem transitions_of_not_mem {env : Env} {l : List (Uid × Bool)} {u : Uid} {eng eng' : Engine}
    (h : Outcome.forEach (Engine.transition env) l eng = .ok eng') (hu : u ∉ l.map Prod.fst) :
    (u ∈ eng'.blocked ↔ u ∈ eng.blocked) ∧ (u ∈ eng'.gate.kernel ↔ u ∈ eng.gate.kernel) := by
  induction l generalizing eng with
  | nil =>
      obtain rfl := Outcome.ok.inj h
      exact ⟨Iff.rfl, Iff.rfl⟩
  | cons entry l ih =>
      rw [List.map_cons, List.mem_cons, not_or] at hu
      obtain ⟨hne, hrest⟩ := hu
      obtain ⟨mid, hmid, hl⟩ := Outcome.bind_eq_ok_iff.mp h
      obtain ⟨hblocked, hkernel⟩ := transition_of_ne hmid hne
      obtain ⟨hblocked', hkernel'⟩ := ih hl hrest
      exact ⟨hblocked'.trans hblocked, hkernel'.trans hkernel⟩

theorem release_isOk_iff (env : Env) (wanted : UidMap Bool) (uid : Uid) (eng : Engine) :
    (eng.release env wanted uid).isOk = true ↔
      (uid ∉ wanted → env.gateOk uid = true ∧ uid ∈ eng.gate.kernel) := by
  unfold Engine.release
  split_ifs with hwanted
  · exact iff_of_true rfl fun hnot => absurd (by simpa using hwanted) hnot
  · rw [setBlocked_isOk_iff]
    simp only [Bool.false_eq_true, false_or]
    exact ⟨fun h _ => h, fun h => h (by simpa using hwanted)⟩

theorem release_kernel_of_ne {env : Env} {wanted : UidMap Bool} {uid u : Uid}
    {eng eng' : Engine} (h : eng.release env wanted uid = .ok eng') (hne : u ≠ uid) :
    u ∈ eng'.gate.kernel ↔ u ∈ eng.gate.kernel := by
  unfold Engine.release at h
  split_ifs at h
  · rw [Outcome.ok.inj h]
  · exact mem_kernel_setBlocked_ok h hne

theorem releases_isOk_iff {env : Env} {wanted : UidMap Bool} {l : List Uid} {eng : Engine}
    (hnodup : l.Nodup) :
    (Outcome.forEach (Engine.release env wanted) l eng).isOk = true ↔
      ∀ uid ∈ l, uid ∉ wanted → env.gateOk uid = true ∧ uid ∈ eng.gate.kernel := by
  induction l generalizing eng with
  | nil => simp
  | cons uid l ih =>
      obtain ⟨hfresh, hrest⟩ := List.nodup_cons.mp hnodup
      have hfirst := release_isOk_iff env wanted uid eng
      rw [Outcome.forEach_cons, List.forall_mem_cons, ← hfirst]
      cases hstep : eng.release env wanted uid with
      | err eng' => simp
      | ok eng' =>
          simp only [Outcome.bind_ok, ih hrest, Outcome.isOk_ok, true_and]
          refine forall₂_congr fun other hother => ?_
          have hne : other ≠ uid := fun heq => hfresh (heq ▸ hother)
          rw [release_kernel_of_ne hstep hne]

/-- **When a tick's updates of the gate all go through.** -/
theorem enforce_isOk_iff {env : Env} {vs : List Verdict} {eng : Engine} :
    (eng.enforce env vs).isOk = true ↔ UpdatesAccepted env vs eng := by
  have hnodup : ((env.wantOrder.arrange (want vs).toList).map Prod.fst).Nodup :=
    nodup_map_fst_arrange env.wantOrder (want vs)
  have hkeys (u : Uid) :
      u ∈ (env.wantOrder.arrange (want vs).toList).map Prod.fst ↔ u ∈ want vs := by
    rw [((env.wantOrder.perm _).map Prod.fst).mem_iff, ExtTreeMap.map_fst_toList_eq_keys,
      ExtTreeMap.mem_keys]
  have hwanted := @transitions_isOk_iff env _
    { eng with gate := eng.gate.setBlockIndex (blockedNames vs) } hnodup
  simp only [IterOrder.mem_arrange] at hwanted
  simp only [Engine.enforce]
  cases hloop : Outcome.forEach (Engine.transition env)
      (env.wantOrder.arrange (want vs).toList)
      { eng with gate := eng.gate.setBlockIndex (blockedNames vs) } with
  | err eng' =>
      rw [hloop] at hwanted
      exact iff_of_false Bool.false_ne_true fun h => Bool.false_ne_true (hwanted.mpr h.wanted)
  | ok eng' =>
      rw [hloop] at hwanted
      have hdistinct : eng'.blocked.toList.Nodup :=
        ExtTreeSet.distinct_toList.imp ReflCmp.ne_of_cmp_ne_eq
      rw [Outcome.bind_ok, releases_isOk_iff hdistinct]
      have hsame (u : Uid) (hu : u ∉ want vs) := transitions_of_not_mem hloop (mt (hkeys u).mp hu)
      constructor
      · intro h
        refine ⟨hwanted.mp rfl, fun uid hblocked hnot => ?_⟩
        obtain ⟨hblocked', hkernel⟩ := hsame uid hnot
        obtain ⟨hok, hmem⟩ := h uid (ExtTreeSet.mem_toList.mpr (hblocked'.mpr hblocked)) hnot
        exact ⟨hok, hkernel.mp hmem⟩
      · intro h uid hblocked hnot
        obtain ⟨hblocked', hkernel⟩ := hsame uid hnot
        obtain ⟨hok, hmem⟩ := h.released uid (hblocked'.mp (ExtTreeSet.mem_toList.mp hblocked)) hnot
        exact ⟨hok, hkernel.mpr hmem⟩

/-! ## What a tick kills -/

/-- The entry of the rules that is reached last about the uid evaluates to block. -/
def WantedBlocked (vs : List Verdict) (uid : Uid) : Prop :=
  lastValue (vs.map fun v => (v.uid, v.block)) uid = some true

/-- The uid is not blocked and is to be, and no update before it is refused. -/
def TurnsBlocked (env : Env) (vs : List Verdict) (eng : Engine) (uid : Uid) : Prop :=
  uid ∉ eng.blocked ∧ ∃ before after,
    env.wantOrder.arrange (want vs).toList = before ++ (uid, true) :: after ∧
      ∀ entry ∈ before, UpdateAccepted env eng entry

/-- A sweep is due and no update is refused; of the uids to be blocked that the process
is shown under, this is the last one. -/
structure Sweeps (env : Env) (vs : List Verdict) (eng : Engine) (pid : Int) (uid : Uid) :
    Prop where
  due : sweepSecs ≤ env.epoch - eng.lastSweep
  accepted : UpdatesAccepted env vs eng
  wanted : WantedBlocked vs uid
  last : ∀ other, WantedBlocked vs other → env.procs.RunsUnder pid other →
    other = uid ∨ env.procs.Before other uid

/-- The loop over the wanted state comes to a uid that is not blocked and is to
be, and `p` runs under it. -/
def LoopKills (env : Env) (eng : Engine) (l : List (Uid × Bool)) (p : Int × Uid) : Prop :=
  ∃ before uid after, l = before ++ (uid, true) :: after ∧
    (∀ entry ∈ before, UpdateAccepted env eng entry) ∧ uid ∉ eng.blocked ∧
      p ∈ killed env.procs (.ofList [uid])

theorem loopKills_cons {env : Env} {eng : Engine} {entry : Uid × Bool} {l : List (Uid × Bool)}
    {p : Int × Uid} :
    LoopKills env eng (entry :: l) p ↔
      (entry.2 = true ∧ entry.1 ∉ eng.blocked ∧ p ∈ killed env.procs (.ofList [entry.1])) ∨
        UpdateAccepted env eng entry ∧ LoopKills env eng l p := by
  constructor
  · rintro ⟨before, uid, after, hl, haccepted, hnew, hmem⟩
    cases before with
    | nil =>
        obtain ⟨rfl, -⟩ := List.cons.inj hl
        exact .inl ⟨rfl, hnew, hmem⟩
    | cons first before =>
        obtain ⟨rfl, htail⟩ := List.cons.inj hl
        obtain ⟨hfirst, hrest⟩ := List.forall_mem_cons.mp haccepted
        exact .inr ⟨hfirst, before, uid, after, htail, hrest, hnew, hmem⟩
  · rintro (⟨hblock, hnew, hmem⟩ | ⟨hfirst, before, uid, after, hl, haccepted, hnew, hmem⟩)
    · exact ⟨[], entry.1, l, by rw [← hblock]; rfl, by simp, hnew, hmem⟩
    · exact ⟨entry :: before, uid, after, by rw [hl]; rfl,
        List.forall_mem_cons.mpr ⟨hfirst, haccepted⟩, hnew, hmem⟩

/-- A round for another uid does not change what the rest of the loop kills. -/
theorem loopKills_of_ok {env : Env} {eng eng' : Engine} {entry : Uid × Bool}
    {l : List (Uid × Bool)} {p : Int × Uid} (hfresh : entry.1 ∉ l.map Prod.fst)
    (hstep : eng.transition env entry = .ok eng') :
    LoopKills env eng' l p ↔ LoopKills env eng l p := by
  refine exists_congr fun before => exists_congr fun uid => exists_congr fun after =>
    and_congr_right fun hl => ?_
  have hne {u : Uid} (hu : u ∈ l.map Prod.fst) : u ≠ entry.1 := fun heq => hfresh (heq ▸ hu)
  have huid : uid ∈ l.map Prod.fst := by simp [hl]
  rw [(transition_of_ne hstep (hne huid)).1]
  refine and_congr_left fun _ => forall₂_congr fun other hother => ?_
  refine updateAccepted_of_ne hstep (hne ?_)
  rw [hl, List.map_append]
  exact List.mem_append_left _ (List.mem_map_of_mem hother)

/-- A round kills what runs under its uid, and the loop goes on unless the
update is refused. -/
theorem mem_transitionKills_cons {env : Env} {eng : Engine} {entry : Uid × Bool}
    {l : List (Uid × Bool)} {p : Int × Uid} :
    p ∈ transitionKills env (entry :: l) eng ↔
      (entry.2 = true ∧ entry.1 ∉ eng.blocked ∧ p ∈ killed env.procs (.ofList [entry.1])) ∨
        ∃ eng', eng.transition env entry = .ok eng' ∧ p ∈ transitionKills env l eng' := by
  have hclear : (entry.2 && !eng.blocked.contains entry.1) = true ↔
      entry.2 = true ∧ entry.1 ∉ eng.blocked := by
    rw [Bool.and_eq_true, Bool.not_eq_true', ← Bool.not_eq_true, ExtTreeSet.contains_iff_mem]
  have hhere : p ∈ (if entry.2 && !eng.blocked.contains entry.1
        then killed env.procs (.ofList [entry.1]) else []) ↔
      entry.2 = true ∧ entry.1 ∉ eng.blocked ∧ p ∈ killed env.procs (.ofList [entry.1]) := by
    split_ifs with h
    · obtain ⟨hblock, hnew⟩ := hclear.mp h
      exact ⟨fun hp => ⟨hblock, hnew, hp⟩, fun hp => hp.2.2⟩
    · exact iff_of_false List.not_mem_nil fun hp => h (hclear.mpr ⟨hp.1, hp.2.1⟩)
  rw [transitionKills, ← hhere]
  cases hstep : eng.transition env entry with
  | ok eng' => simp [List.mem_append]
  | err eng' => simp

/-- **What the loop over the wanted state kills.** -/
theorem mem_transitionKills_iff {env : Env} {l : List (Uid × Bool)} {eng : Engine}
    {p : Int × Uid} (hnodup : (l.map Prod.fst).Nodup) :
    p ∈ transitionKills env l eng ↔ LoopKills env eng l p := by
  induction l generalizing eng with
  | nil => simp [transitionKills, LoopKills]
  | cons entry l ih =>
      obtain ⟨hfresh, hrest⟩ := List.nodup_cons.mp hnodup
      rw [mem_transitionKills_cons, loopKills_cons]
      refine or_congr_right ?_
      rw [← transition_isOk_iff]
      cases hstep : eng.transition env entry with
      | err eng' => simp
      | ok eng' =>
          simp only [Outcome.ok.injEq, exists_eq_left', Outcome.isOk_ok, true_and]
          rw [ih hrest, loopKills_of_ok hfresh hstep]

theorem mem_killed_single {view : ProcView} {pid : Int} {uid uid' : Uid} :
    (pid, uid) ∈ killed view (.ofList [uid']) ↔
      uid = uid' ∧ view.RunsUnder pid uid ∧ view.signalled pid uid = true := by
  have hmem (u : Uid) : u ∈ (ExtTreeSet.ofList [uid'] : UidSet) ↔ u = uid' :=
    Iff.trans (by simp) eq_comm
  simp only [mem_killed_iff, hmem]
  constructor
  · rintro ⟨huid, hruns, hsignal, -⟩
    exact ⟨huid, hruns, hsignal⟩
  · rintro ⟨rfl, hruns, hsignal⟩
    exact ⟨rfl, hruns, hsignal, fun other hother _ => .inl hother⟩

/-- **What a tick kills.** -/
theorem mem_enforceKills_iff {env : Env} {vs : List Verdict} {eng : Engine} {pid : Int}
    {uid : Uid} :
    (pid, uid) ∈ eng.enforceKills env vs ↔
      env.procs.RunsUnder pid uid ∧ env.procs.signalled pid uid = true ∧
        (TurnsBlocked env vs eng uid ∨ Sweeps env vs eng pid uid) := by
  have hnodup : ((env.wantOrder.arrange (want vs).toList).map Prod.fst).Nodup :=
    nodup_map_fst_arrange env.wantOrder (want vs)
  have hsweep (eng' : Engine) (henforce : eng.enforce env vs = .ok eng') :
      eng'.lastSweep = eng.lastSweep ∧ ∀ u, u ∈ eng'.blocked ↔ WantedBlocked vs u := by
    obtain ⟨_, _, _, -, hframe⟩ := sameButBlocks_enforce env vs eng
    rw [henforce, Outcome.state_ok] at hframe
    refine ⟨by rw [hframe], fun u => ?_⟩
    rw [mem_blocked_of_enforce henforce, getElem?_want, WantedBlocked]
  rw [Engine.enforceKills, List.mem_append, mem_transitionKills_iff hnodup]
  constructor
  · rintro (⟨before, _, after, hlisting, haccepted, hnew, hmem⟩ | hmem)
    · obtain ⟨rfl, hruns, hsignal⟩ := mem_killed_single.mp hmem
      exact ⟨hruns, hsignal, .inl ⟨hnew, before, after, hlisting, haccepted⟩⟩
    · cases henforce : eng.enforce env vs with
      | err eng' =>
          rw [henforce] at hmem
          cases hmem
      | ok eng' =>
          obtain ⟨hlast, huids⟩ := hsweep eng' henforce
          simp only [henforce, Engine.sweepKills, hlast] at hmem
          split_ifs at hmem with hdue
          · obtain ⟨huid, hruns, hsignal, hlater⟩ := mem_killed_iff.mp hmem
            exact ⟨hruns, hsignal, .inr ⟨hdue, enforce_isOk_iff.mp (by rw [henforce]; rfl),
              (huids uid).mp huid, fun other hother => hlater other ((huids other).mpr hother)⟩⟩
          · cases hmem
  · rintro ⟨hruns, hsignal, ⟨hnew, before, after, hlisting, haccepted⟩ | hswept⟩
    · exact .inl ⟨before, uid, after, hlisting, haccepted, hnew,
        mem_killed_single.mpr ⟨rfl, hruns, hsignal⟩⟩
    · right
      have henforce := Outcome.eq_ok_of_isOk (enforce_isOk_iff.mpr hswept.accepted)
      obtain ⟨hlast, huids⟩ := hsweep _ henforce
      rw [henforce]
      simp only [Engine.sweepKills, hlast, if_pos hswept.due]
      exact mem_killed_iff.mpr ⟨(huids uid).mpr hswept.wanted, hruns, hsignal,
        fun other hother => hswept.last other ((huids other).mp hother)⟩

/-! ## Agreement with the gate -/

/-- Every process a tick signals is one that the identity check accepts under
the index of this tick, as far as its command line carries a name. -/
def Agree (env : Env) (s : Sys) (cmdline : Int → Option (List UInt8)) : Prop :=
  ∀ pid uid, (pid, uid) ∈ tickKills env s →
    ∀ raw pkg, cmdline pid = some raw → pkgFromCmdline raw = some pkg →
      (identityOk (tick env s).state.eng.gate.identity (fun _ => some raw) uid).1 = true

/-- Of the processes that run under a uid which becomes blocked, or is swept, each one
with a name has that of an entry of the rules that is about the uid and evaluates to
block. -/
def NamedByRules (env : Env) (s : Sys) (cmdline : Int → Option (List UInt8)) : Prop :=
  ∀ mid, refresh env s = .ok mid →
    ∀ pid uid, env.procs.RunsUnder pid uid → env.procs.signalled pid uid = true →
      (TurnsBlocked env ((mid.eng.prepare env).judge env) (mid.eng.prepare env) uid ∨
        Sweeps env ((mid.eng.prepare env).judge env) (mid.eng.prepare env) pid uid) →
      ∀ raw pkg, cmdline pid = some raw → pkgFromCmdline raw = some pkg →
        ∃ v ∈ (mid.eng.prepare env).judge env,
          v.uid = uid ∧ v.block = true ∧ packageOf v.key = some pkg

/-- The index a tick installs, however it ends after that. -/
theorem tick_identity {env : Env} {s mid : Sys} (hrefresh : refresh env s = .ok mid) :
    (tick env s).state.eng.gate.identity = blockedNames ((mid.eng.prepare env).judge env) := by
  have hindex := identity_enforce env ((mid.eng.prepare env).judge env) (mid.eng.prepare env)
  rcases tick_cases env s with ⟨mid', hfailed, -⟩ | ⟨mid', hrefresh', hrest⟩
  · rw [hrefresh] at hfailed
    cases hfailed
  · obtain rfl := Outcome.ok.inj (hrefresh'.symm.trans hrefresh)
    rcases hrest with ⟨eng, henforce, htick⟩ | ⟨eng, henforce, htick⟩
    · rw [henforce] at hindex
      rw [htick]
      exact hindex
    · rw [henforce] at hindex
      obtain ⟨_, _, _, hfinish⟩ := finishTick_frame env { mid' with eng := eng }
      rw [htick, Outcome.state_ok, hfinish]
      exact hindex

/-- **Exactly when a tick kills no process that the gate would spare.** -/
theorem agree_iff (env : Env) (s : Sys) (cmdline : Int → Option (List UInt8)) :
    Agree env s cmdline ↔ NamedByRules env s cmdline := by
  unfold Agree NamedByRules tickKills
  cases hrefresh : refresh env s with
  | err mid => simp
  | ok mid =>
      rw [tick_identity hrefresh]
      simp only [Outcome.ok.injEq, forall_eq', mem_enforceKills_iff]
      constructor
      · intro h pid uid hruns hsignal hreached raw pkg hraw hpkg
        have haccepted := h pid uid ⟨hruns, hsignal, hreached⟩ raw pkg hraw hpkg
        exact (mem_blockedNames_iff _ _ _).mp ((identityOk_of_readable hpkg).mp haccepted)
      · rintro h pid uid ⟨hruns, hsignal, hreached⟩ raw pkg hraw hpkg
        have hnamed := h pid uid hruns hsignal hreached raw pkg hraw hpkg
        exact (identityOk_of_readable hpkg).mpr ((mem_blockedNames_iff _ _ _).mpr hnamed)

/-- Two packages with one uid; the rules block the first of them. -/
def sharedByTwo : Sys where
  eng := { Engine.blank .start with
    rules := Rules.blocking "0:com.a"
    uidOf := insertAll [("0:com.a", 10001), ("0:com.b", 10001)] ∅ }
  fs := ⟨none, none, none, none⟩

/-- One process runs, under the uid of both. -/
def oneRunning : Env :=
  { Env.quiet 100 with
    procs := { ProcView.quiet with
      pids := some [500]
      pidUid := fun pid => if pid = 500 then some 10001 else none
      signalled := fun pid _ => pid = 500 } }

/-- It carries the name of the second package. -/
def secondName : List UInt8 := "com.b".toUTF8.toList ++ [0]

/-- A process of a package that no rule blocks is killed. -/
theorem not_agree : ¬ ∀ env s cmdline, Agree env s cmdline := by
  intro h
  have hkilled : ((500 : Int), (10001 : Uid)) ∈ tickKills oneRunning sharedByTwo := by
    decide +kernel
  have haccepted := h oneRunning sharedByTwo (fun _ => some secondName) 500 10001 hkilled
    secondName "com.b" rfl (by decide +kernel)
  revert haccepted
  decide +kernel

end Ningshi
