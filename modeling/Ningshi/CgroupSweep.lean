import Ningshi.KillAgreement

/-!
# The cgroup fast path of the sweep

For a uid with a cgroup directory the sweep kills what `cgroup.procs` of that
directory lists, and the pass over `/proc` leaves the uid out.  The file names
the processes directly in the cgroup and none in the cgroups below it.
`sweepComplete_iff` says exactly when every process is found all the same.
-/

namespace Ningshi

open Std FiniteMap

/-! ## A process table with cgroups -/

/-- A cgroup: the one of a uid, `apps/uid_<uid>`, one that stands elsewhere, or
one below another. -/
inductive Cgroup where
  | app (uid : Uid)
  | elsewhere
  | child (parent : Cgroup) (name : String)
  deriving DecidableEq

/-- The uid in whose directory the cgroup lies. -/
def Cgroup.home : Cgroup → Option Uid
  | .app uid => some uid
  | .elsewhere => none
  | .child parent _ => parent.home

structure CgroupTable where
  /-- owner and cgroup of each process -/
  procs : ExtTreeMap Int (Uid × Cgroup) compare
  /-- the uids that have a directory -/
  dirs : UidSet
  /-- a cgroup with a process in it is there -/
  rooted : ∀ (pid : Int) (p : Uid × Cgroup), procs[pid]? = some p →
    ∀ uid, p.2.home = some uid → uid ∈ dirs

def CgroupTable.owner (t : CgroupTable) (pid : Int) : Option Uid := t.procs[pid]?.map Prod.fst

/-- The one cgroup the process is directly in. -/
def CgroupTable.place (t : CgroupTable) (pid : Int) : Option Cgroup := t.procs[pid]?.map Prod.snd

/-- What the daemon reads while the table stays as it is; the kernel may list
the pids of a file in any order. -/
structure CgroupTable.Shows (t : CgroupTable) (view : ProcView) : Prop where
  pids : ∃ pids, view.pids = some pids ∧ ∀ pid, pid ∈ pids ↔ (t.owner pid).isSome
  pidUid : ∀ pid, view.pidUid pid = t.owner pid
  dir : ∀ uid ∈ t.dirs, ∃ pids, view.cgroupProcs uid = some pids ∧
    ∀ pid, pid ∈ pids ↔ t.place pid = some (.app uid)
  noDir : ∀ uid, uid ∉ t.dirs → view.cgroupProcs uid = none
  /-- a signal is delivered to a process that still has the uid -/
  signalled : ∀ pid uid, view.signalled pid uid = true ↔ t.owner pid = some uid

/-! ## The targets -/

/-- The process gets a signal. -/
def Signalled (view : ProcView) (uids : UidSet) (pid : Int) : Prop :=
  ∃ uid, (pid, uid) ∈ killed view uids

section Found

variable {t : CgroupTable} {view : ProcView} (h : t.Shows view) (uids : UidSet) (pid : Int)
  (uid : Uid)

include h

theorem CgroupTable.Shows.isSome_cgroupProcs :
    (view.cgroupProcs uid).isSome = true ↔ uid ∈ t.dirs := by
  by_cases hdir : uid ∈ t.dirs
  · obtain ⟨pids, hpids, -⟩ := h.dir uid hdir
    simp [hpids, hdir]
  · simp [h.noDir uid hdir, hdir]

/-- A uid with a directory has what is directly in its cgroup, any other what it owns. -/
theorem CgroupTable.Shows.runsUnder_iff :
    view.RunsUnder pid uid ↔ 1 < pid ∧
      (uid ∈ t.dirs → t.place pid = some (.app uid)) ∧
      (uid ∉ t.dirs → t.owner pid = some uid) := by
  refine and_congr_right fun _ => ?_
  by_cases hdir : uid ∈ t.dirs
  · obtain ⟨pids, hpids, hmem⟩ := h.dir uid hdir
    simp [hpids, hmem, hdir]
  · obtain ⟨pids, hpids, hmem⟩ := h.pids
    simp only [h.noDir uid hdir, hpids, Option.getD_some, hmem, h.pidUid, hdir, false_imp_iff,
      not_false_iff, true_imp_iff, true_and]
    exact ⟨And.right, fun howner => ⟨by rw [howner]; rfl, howner⟩⟩

/-- **Which processes the sweep kills.** -/
theorem mem_killed_shows :
    (pid, uid) ∈ killed view uids ↔
      1 < pid ∧ uid ∈ uids ∧ t.owner pid = some uid ∧
        (uid ∈ t.dirs → t.place pid = some (.app uid)) := by
  rw [mem_killed_iff, h.runsUnder_iff, h.signalled]
  constructor
  · rintro ⟨huid, ⟨hpid, hplace, -⟩, howner, -⟩
    exact ⟨hpid, huid, howner, hplace⟩
  · rintro ⟨hpid, huid, howner, hplace⟩
    refine ⟨huid, ⟨hpid, hplace, fun _ => howner⟩, howner, fun other hother hruns => ?_⟩
    obtain ⟨-, hplace', howner'⟩ := (h.runsUnder_iff pid other).mp hruns
    by_cases hdir' : other ∈ t.dirs
    · by_cases hdir : uid ∈ t.dirs
      · -- it is directly in one cgroup only
        have hsame := (hplace' hdir').symm.trans (hplace hdir)
        exact .inl (by simpa using hsame)
      · refine .inr ⟨(h.isSome_cgroupProcs other).mpr hdir', fun hsome => ?_⟩
        exact absurd ((h.isSome_cgroupProcs uid).mp hsome) hdir
    · exact .inl (Option.some.inj ((howner' hdir').symm.trans howner))

omit pid uid in
/-- The processes signalled, by whatever uid they were listed under. -/
theorem signalled_iff (pid : Int) :
    Signalled view uids pid ↔ 1 < pid ∧ ∃ uid ∈ uids, t.owner pid = some uid ∧
      (uid ∈ t.dirs → t.place pid = some (.app uid)) := by
  simp only [Signalled, mem_killed_shows h uids pid]
  constructor
  · rintro ⟨uid, hpid, huid, hrest⟩
    exact ⟨hpid, uid, huid, hrest⟩
  · rintro ⟨hpid, uid, huid, hrest⟩
    exact ⟨uid, hpid, huid, hrest⟩

end Found

/-! ## Without the fast path -/

/-- No uid has a directory. -/
def ProcView.withoutCgroups (view : ProcView) : ProcView :=
  { view with cgroupProcs := fun _ => none }

/-- The same processes, all of them in cgroups elsewhere. -/
def CgroupTable.withoutDirs (t : CgroupTable) : CgroupTable where
  procs := t.procs.map fun _ p => (p.1, .elsewhere)
  dirs := ∅
  rooted := by
    intro pid p hp uid huid
    rw [ExtTreeMap.getElem?_map, Option.map_eq_some_iff] at hp
    obtain ⟨q, -, rfl⟩ := hp
    cases huid

theorem CgroupTable.owner_withoutDirs (t : CgroupTable) (pid : Int) :
    t.withoutDirs.owner pid = t.owner pid := by
  simp only [owner, withoutDirs, ExtTreeMap.getElem?_map, Option.map_map, Function.comp_def]

theorem CgroupTable.Shows.withoutCgroups {t : CgroupTable} {view : ProcView} (h : t.Shows view) :
    t.withoutDirs.Shows view.withoutCgroups where
  pids := by
    simp only [CgroupTable.owner_withoutDirs]
    exact h.pids
  pidUid pid := (h.pidUid pid).trans (t.owner_withoutDirs pid).symm
  dir uid huid := absurd huid ExtTreeSet.not_mem_empty
  noDir _ _ := rfl
  signalled pid uid := by
    rw [CgroupTable.owner_withoutDirs]
    exact h.signalled pid uid

/-- The pass over `/proc` finds every process. -/
theorem signalled_withoutCgroups {t : CgroupTable} {view : ProcView} (h : t.Shows view)
    (uids : UidSet) (pid : Int) :
    Signalled view.withoutCgroups uids pid ↔
      1 < pid ∧ ∃ uid ∈ uids, t.owner pid = some uid := by
  rw [signalled_iff h.withoutCgroups]
  simp only [CgroupTable.owner_withoutDirs]
  constructor
  · rintro ⟨hpid, uid, huid, howner, -⟩
    exact ⟨hpid, uid, huid, howner⟩
  · rintro ⟨hpid, uid, huid, howner⟩
    exact ⟨hpid, uid, huid, howner, fun hdir => absurd hdir ExtTreeSet.not_mem_empty⟩

/-- The sweep signals the processes of the uids, which is what it does without
any cgroup directory. -/
structure SweepComplete (t : CgroupTable) (view : ProcView) (uids : UidSet) : Prop where
  exact : ∀ pid, Signalled view uids pid ↔ 1 < pid ∧ ∃ uid ∈ uids, t.owner pid = some uid
  same : ∀ pid, Signalled view uids pid ↔ Signalled view.withoutCgroups uids pid

/-- **Exactly when the fast path finds what the pass over `/proc` finds.** -/
theorem sweepComplete_iff {t : CgroupTable} {view : ProcView} (h : t.Shows view)
    (uids : UidSet) :
    SweepComplete t view uids ↔
      ∀ pid uid, 1 < pid → uid ∈ uids → t.owner pid = some uid → uid ∈ t.dirs →
        t.place pid = some (.app uid) := by
  constructor
  · rintro ⟨hexact, -⟩ pid uid hpid huid howner hdir
    obtain ⟨-, v, -, howner', hplace⟩ :=
      (signalled_iff h uids pid).mp ((hexact pid).mpr ⟨hpid, uid, huid, howner⟩)
    obtain rfl := Option.some.inj (howner'.symm.trans howner)
    exact hplace hdir
  · intro hdirect
    have hexact (pid : Int) :
        Signalled view uids pid ↔ 1 < pid ∧ ∃ uid ∈ uids, t.owner pid = some uid := by
      rw [signalled_iff h]
      constructor
      · rintro ⟨hpid, uid, huid, howner, -⟩
        exact ⟨hpid, uid, huid, howner⟩
      · rintro ⟨hpid, uid, huid, howner⟩
        exact ⟨hpid, uid, huid, howner, hdirect pid uid hpid huid howner⟩
    exact ⟨hexact, fun pid => (hexact pid).trans (signalled_withoutCgroups h uids pid).symm⟩

/-! ## A nested cgroup -/

/-- What the kernel shows of a table, its files sorted by pid. -/
def CgroupTable.view (t : CgroupTable) : ProcView where
  pids := some t.procs.keys
  pidUid := t.owner
  topApp := []
  cgroupProcs := fun uid =>
    if uid ∈ t.dirs then some (t.procs.keys.filter fun pid => t.place pid = some (.app uid))
    else none
  drm := none
  signalled := fun pid uid => t.owner pid = some uid

theorem CgroupTable.shows_view (t : CgroupTable) : t.Shows t.view where
  pids := ⟨_, rfl, fun pid => by simp [owner]⟩
  pidUid _ := rfl
  dir uid hdir := ⟨_, if_pos hdir, fun pid => by
    have hlisted (hplace : t.place pid = some (.app uid)) : pid ∈ t.procs := by
      obtain ⟨p, hp, -⟩ := Option.map_eq_some_iff.mp hplace
      exact ExtTreeMap.mem_iff_isSome_getElem?.mpr (by rw [hp]; rfl)
    simpa using hlisted⟩
  noDir uid hdir := if_neg hdir
  signalled _ _ := decide_eq_true_iff

/-- Process 5000 sits below the directory of its uid. -/
def nestedTable : CgroupTable where
  procs := insertAll [(5000, (10001, .child (.app 10001) "pid_5000"))] ∅
  dirs := .ofList [10001] compare
  rooted := by
    intro pid p hp uid huid
    rw [getElem?_insertAll, ExtTreeMap.getElem?_empty, Option.or_none] at hp
    obtain ⟨-, rfl⟩ : pid = 5000 ∧ p = (10001, .child (.app 10001) "pid_5000") := by
      simpa using mem_of_lastValue_eq_some hp
    obtain rfl := Option.some.inj huid
    decide

/-- Process 5000 is directly in the directory of its uid, and 5001 has none. -/
def flatEntries : List (Int × (Uid × Cgroup)) :=
  [(5000, (10001, .app 10001)), (5001, (10002, .elsewhere))]

theorem mem_flatEntries {pid : Int} {p : Uid × Cgroup}
    (h : (insertAll flatEntries ∅ : ExtTreeMap Int (Uid × Cgroup) compare)[pid]? = some p) :
    p = (10001, .app 10001) ∨ p = (10002, .elsewhere) := by
  rw [getElem?_insertAll, ExtTreeMap.getElem?_empty, Option.or_none] at h
  have hentry := mem_of_lastValue_eq_some h
  simp only [flatEntries, List.mem_cons, Prod.mk.injEq, List.not_mem_nil, or_false] at hentry
  exact hentry.imp (fun h => h.2) fun h => h.2

def flatTable : CgroupTable where
  procs := insertAll flatEntries ∅
  dirs := .ofList [10001] compare
  rooted := by
    intro pid p hp uid huid
    obtain rfl | rfl := mem_flatEntries hp
    · obtain rfl := Option.some.inj huid
      decide
    · cases huid

/-- Both are found. -/
theorem sweepComplete_iff_flat :
    SweepComplete flatTable flatTable.view (.ofList [10001, 10002] compare) ∧
      killed flatTable.view (.ofList [10001, 10002] compare) = [(5000, 10001), (5001, 10002)] := by
  refine ⟨(sweepComplete_iff flatTable.shows_view _).mpr fun pid uid _ _ howner hdir => ?_,
    by decide⟩
  obtain ⟨p, hp, rfl⟩ := Option.map_eq_some_iff.mp howner
  have hplace : flatTable.place pid = some p.2 := Option.map_eq_some_iff.mpr ⟨p, hp, rfl⟩
  obtain rfl | rfl := mem_flatEntries hp
  · exact hplace
  · exact absurd hdir (by decide)

/-- The process is not found. -/
theorem not_sweepComplete :
    ¬ SweepComplete nestedTable nestedTable.view (.ofList [10001] compare) := by
  intro h
  have hrunning : (1 : Int) < 5000 ∧
      ∃ uid ∈ (.ofList [10001] compare : UidSet), nestedTable.owner 5000 = some uid :=
    ⟨by decide, 10001, by decide, by decide⟩
  obtain ⟨uid, hkilled⟩ := (h.exact 5000).mpr hrunning
  have hnone : killed nestedTable.view (.ofList [10001] compare) = [] := by decide
  rw [hnone] at hkilled
  cases hkilled

end Ningshi
