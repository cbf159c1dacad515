import Ningshi.Lib.Transition
import Ningshi.Packages

/-!
# `proc.rs`: a kill and the reuse of pid numbers

`kill_pid_if_uid` reads the owner of a pid, opens a pidfd for the pid and sends
`SIGKILL` through it.  The descriptor pins a process, but the owner was read
before it was opened.  Any number of such calls run here step by step, while
processes exit and their pid numbers are given to new processes.

`delivered_requested` says that a signal reaches processes of the requested uid
only, in every run in which no pid number changes hands between the check and
the open of a call; `exists_misdelivered` that it reaches a process of any other
uid where one does.
-/

namespace Ningshi

open Std Transition

/-! ## The process table -/

/-- A process.  Its serial number, unlike its pid, is never used again. -/
structure Proc where
  serial : Nat
  uid : Uid
  deriving DecidableEq

/-- The running processes by pid. -/
abbrev ProcTable := ExtTreeMap Int Proc compare

/-- A descriptor for the process that had this pid when it was opened. -/
structure Pidfd where
  pid : Int
  proc : Proc
  deriving DecidableEq

/-- Owner of `/proc/<pid>`. -/
def pidUid (table : ProcTable) (pid : Int) : Option Uid := table[pid]?.map Proc.uid

def pidfdOpen (table : ProcTable) (pid : Int) : Option Pidfd := table[pid]?.map (Pidfd.mk pid)

/-- Is a signal delivered?  Not when the pinned process has exited. -/
def pidfdSendSignal (table : ProcTable) (fd : Pidfd) : Bool := table[fd.pid]? = some fd.proc

/-- `kill_pid_if_uid` when nothing happens in between. -/
def killPidIfUid (table : ProcTable) (pid : Int) (uid : Uid) : Bool :=
  if pidUid table pid ≠ some uid then false
  else
    match pidfdOpen table pid with
    | some fd => pidfdSendSignal table fd
    | none => false

/-! ## Calls, step by step -/

/-- How far a call has got. -/
inductive KillCall where
  | idle
  | started (pid : Int) (uid : Uid)
  /-- the pid had this owner -/
  | checked (pid : Int) (uid : Uid)
  | opened (uid : Uid) (fd : Pidfd)
  | returned (sent : Bool)
  deriving DecidableEq

/-- A delivered `SIGKILL`: the process it reached and the uid it was meant for. -/
structure Delivery where
  proc : Proc
  requested : Uid

structure Machine where
  table : ProcTable
  /-- serial number of the next process -/
  serial : Nat
  calls : Nat → KillCall
  delivered : List Delivery

def Machine.setCall (t : Nat) (call : KillCall) (m : Machine) : Machine :=
  { m with calls := Function.update m.calls t call }

/-- The next step of a call. -/
def Machine.advance (t : Nat) (m : Machine) : Machine :=
  match m.calls t with
  -- the owner is read here, and not again
  | .started pid uid =>
      m.setCall t (if pidUid m.table pid ≠ some uid then .returned false else .checked pid uid)
  -- pins whatever process has the pid by now
  | .checked pid uid =>
      m.setCall t
        (match pidfdOpen m.table pid with
        | some fd => .opened uid fd
        | none => .returned false)
  | .opened uid fd =>
      let sent := pidfdSendSignal m.table fd
      { m.setCall t (.returned sent) with
        delivered := if sent then m.delivered ++ [⟨fd.proc, uid⟩] else m.delivered }
  | .idle => m
  | .returned _ => m

/-- The process with this pid exits. -/
def Machine.exit (pid : Int) (m : Machine) : Machine := { m with table := m.table.erase pid }

/-- A new process gets this pid. -/
def Machine.spawn (pid : Int) (uid : Uid) (m : Machine) : Machine :=
  { m with table := m.table.insert pid ⟨m.serial, uid⟩, serial := m.serial + 1 }

inductive KillStep where
  | call (t : Nat) (pid : Int) (uid : Uid)
  | advance (t : Nat)
  /-- killed or on its own -/
  | exit (pid : Int)
  /-- only a free pid is given away -/
  | spawn (pid : Int) (uid : Uid)

def Machine.next (m : Machine) : KillStep → Option Machine
  | .call t pid uid =>
      match m.calls t with
      | .idle => some (m.setCall t (.started pid uid))
      | .returned _ => some (m.setCall t (.started pid uid))
      | _ => none
  | .advance t => some (m.advance t)
  | .exit pid => if m.table.contains pid then some (m.exit pid) else none
  | .spawn pid uid => if m.table.contains pid then none else some (m.spawn pid uid)

/-- No call has begun, and the processes have been started. -/
def Machine.Initial (m : Machine) : Prop :=
  (∀ t, m.calls t = .idle) ∧ m.delivered = [] ∧
    ∀ (pid : Int) (p : Proc), m.table[pid]? = some p → p.serial < m.serial

def killRace : System Machine KillStep := .ofNext Machine.Initial Machine.next

@[simp] theorem Machine.setCall_self (t : Nat) (call : KillCall) (m : Machine) :
    (m.setCall t call).calls t = call := by simp [Machine.setCall]

theorem Machine.setCall_of_ne {t t' : Nat} (h : t' ≠ t) (call : KillCall) (m : Machine) :
    (m.setCall t call).calls t' = m.calls t' := by simp [Machine.setCall, h]

@[simp] theorem Machine.setCall_table (t : Nat) (call : KillCall) (m : Machine) :
    (m.setCall t call).table = m.table := rfl

@[simp] theorem Machine.setCall_serial (t : Nat) (call : KillCall) (m : Machine) :
    (m.setCall t call).serial = m.serial := rfl

@[simp] theorem Machine.setCall_delivered (t : Nat) (call : KillCall) (m : Machine) :
    (m.setCall t call).delivered = m.delivered := rfl

/-- **What a step does.** -/
theorem Machine.next_cases {m m' : Machine} {step : KillStep} (h : m.next step = some m') :
    (∃ t pid uid, step = .call t pid uid ∧ m' = m.setCall t (.started pid uid)) ∨
      (∃ t, step = .advance t ∧ m' = m.advance t) ∨
      (∃ pid, step = .exit pid ∧ m' = m.exit pid) ∨
      ∃ pid uid, step = .spawn pid uid ∧ m' = m.spawn pid uid := by
  cases step with
  | call t pid uid =>
      refine .inl ⟨t, pid, uid, rfl, ?_⟩
      simp only [Machine.next] at h
      cases hcall : m.calls t <;> simp_all
  | advance t => exact .inr (.inl ⟨t, rfl, (Option.some.inj h).symm⟩)
  | exit pid =>
      refine .inr (.inr (.inl ⟨pid, rfl, ?_⟩))
      simp only [Machine.next] at h
      split_ifs at h
      exact (Option.some.inj h).symm
  | spawn pid uid =>
      refine .inr (.inr (.inr ⟨pid, uid, rfl, ?_⟩))
      simp only [Machine.next] at h
      split_ifs at h
      exact (Option.some.inj h).symm

/-- Which process has a pid after a spawn. -/
theorem Machine.getElem?_spawn (pid pid' : Int) (uid : Uid) (m : Machine) :
    (m.spawn pid uid).table[pid']? =
      if pid = pid' then some ⟨m.serial, uid⟩ else m.table[pid']? := by
  simp only [Machine.spawn, ExtTreeMap.getElem?_insert, LawfulEqCmp.compare_eq_iff_eq]

theorem Machine.getElem?_of_exit {pid pid' : Int} {p : Proc} {m : Machine}
    (h : (m.exit pid).table[pid']? = some p) : m.table[pid']? = some p := by
  simp only [Machine.exit, ExtTreeMap.getElem?_erase] at h
  split_ifs at h
  exact h

/-- **A call that is not interrupted** returns what `killPidIfUid` returns. -/
theorem advance_uninterrupted {m : Machine} {t : Nat} {pid : Int} {uid : Uid}
    (hcall : m.calls t = .started pid uid) :
    (((m.advance t).advance t).advance t).calls t =
      .returned (killPidIfUid m.table pid uid) := by
  by_cases howner : pidUid m.table pid ≠ some uid
  · have hfirst : m.advance t = m.setCall t (.returned false) := by
      simp only [Machine.advance, hcall, if_pos howner]
    have hstay : (m.setCall t (.returned false)).advance t = m.setCall t (.returned false) := by
      simp only [Machine.advance, Machine.setCall_self]
    rw [hfirst, hstay, hstay, Machine.setCall_self, killPidIfUid, if_pos howner]
  · have hfirst : m.advance t = m.setCall t (.checked pid uid) := by
      simp only [Machine.advance, hcall, if_neg howner]
    rw [hfirst, killPidIfUid, if_neg howner]
    cases hopen : pidfdOpen m.table pid with
    | none => simp [Machine.advance, hopen]
    | some fd => simp [Machine.advance, hopen]

/-! ## Runs -/

/-- No pid number is given to a process of another uid between the check and
the open of a call. -/
def KeepsOwner : Machine → KillStep → Prop
  | m, .spawn pid uid => ∀ t wanted, m.calls t = .checked pid wanted → uid = wanted
  | _, _ => True

/-- What such a run keeps. -/
structure OnTarget (m : Machine) : Prop where
  checked : ∀ (t : Nat) (pid : Int) (uid : Uid) (p : Proc),
    m.calls t = .checked pid uid → m.table[pid]? = some p → p.uid = uid
  opened : ∀ t uid fd, m.calls t = .opened uid fd → fd.proc.uid = uid
  delivered : ∀ d ∈ m.delivered, d.proc.uid = d.requested

theorem onTarget_setCall {m : Machine} {t : Nat} {call : KillCall} (hm : OnTarget m)
    (hchecked : ∀ (pid : Int) (uid : Uid) (p : Proc), call = .checked pid uid →
      m.table[pid]? = some p → p.uid = uid)
    (hopened : ∀ uid fd, call = .opened uid fd → fd.proc.uid = uid) :
    OnTarget (m.setCall t call) := by
  refine ⟨fun t' pid uid p hcall hp => ?_, fun t' uid fd hcall => ?_, hm.delivered⟩
  · by_cases ht : t' = t
    · subst ht
      rw [Machine.setCall_self] at hcall
      exact hchecked pid uid p hcall hp
    · rw [Machine.setCall_of_ne ht] at hcall
      exact hm.checked t' pid uid p hcall hp
  · by_cases ht : t' = t
    · subst ht
      rw [Machine.setCall_self] at hcall
      exact hopened uid fd hcall
    · rw [Machine.setCall_of_ne ht] at hcall
      exact hm.opened t' uid fd hcall

/-- The steps of a call stay on target whatever the table looks like. -/
theorem onTarget_advance {m : Machine} (t : Nat) (hm : OnTarget m) :
    OnTarget (m.advance t) := by
  unfold Machine.advance
  cases hcall : m.calls t with
  | idle => exact hm
  | returned sent => exact hm
  | started pid uid =>
      refine onTarget_setCall hm (fun pid' uid' p hchecked hp => ?_) fun uid' fd hopened => ?_
      · split_ifs at hchecked with howner
        obtain ⟨rfl, rfl⟩ := KillCall.checked.inj hchecked
        rw [ne_eq, not_not, pidUid, hp] at howner
        exact Option.some.inj howner
      · split_ifs at hopened
  | checked pid uid =>
      refine onTarget_setCall hm (fun pid' uid' p hchecked hp => ?_) fun uid' fd hopened => ?_
      · split at hchecked <;> cases hchecked
      · split at hopened
        next fd' hopen =>
          obtain ⟨rfl, rfl⟩ := KillCall.opened.inj hopened
          obtain ⟨p, hp, rfl⟩ := Option.map_eq_some_iff.mp hopen
          exact hm.checked t pid uid p hcall hp
        next => cases hopened
  | opened uid fd =>
      have hset : OnTarget (m.setCall t (.returned (pidfdSendSignal m.table fd))) :=
        onTarget_setCall hm (by simp) (by simp)
      refine ⟨hset.checked, hset.opened, fun d hd => ?_⟩
      dsimp only at hd
      split_ifs at hd
      · rcases List.mem_append.mp hd with hd | hd
        · exact hm.delivered d hd
        · rw [List.mem_singleton.mp hd]
          exact hm.opened t uid fd hcall
      · exact hm.delivered d hd

/-- **A step that meets the condition stays on target.** -/
theorem onTarget_next {m m' : Machine} {step : KillStep} (hm : OnTarget m)
    (hkeeps : KeepsOwner m step) (hstep : m.next step = some m') : OnTarget m' := by
  rcases Machine.next_cases hstep with ⟨t, pid, uid, rfl, rfl⟩ | ⟨t, rfl, rfl⟩ |
    ⟨pid, rfl, rfl⟩ | ⟨pid, uid, rfl, rfl⟩
  · exact onTarget_setCall hm (by simp) (by simp)
  · exact onTarget_advance t hm
  · -- An exit takes the pid away, whoever had checked it.
    exact ⟨fun t pid' wanted p hcall hp =>
      hm.checked t pid' wanted p hcall (Machine.getElem?_of_exit hp), hm.opened, hm.delivered⟩
  · refine ⟨fun t pid' wanted p hcall hp => ?_, hm.opened, hm.delivered⟩
    rw [Machine.getElem?_spawn] at hp
    split_ifs at hp with hpid
    · -- The new process stands under a pid that is checked: this is the condition.
      obtain rfl := Option.some.inj hp
      subst hpid
      exact hkeeps t wanted hcall
    · exact hm.checked t pid' wanted p hcall hp

/-- **A `SIGKILL` reaches processes of the requested uid only.** -/
theorem delivered_requested {m : Machine} (hm : killRace.ReachableWhen KeepsOwner m) :
    ∀ d ∈ m.delivered, d.proc.uid = d.requested := by
  have htarget : OnTarget m := by
    refine hm.invariant ?_ fun s step s' hs hkeeps hstep => onTarget_next hs hkeeps hstep
    rintro s ⟨hidle, hdelivered, -⟩
    refine ⟨fun t pid uid p hcall => ?_, fun t uid fd hcall => ?_, fun d hd => ?_⟩
    · rw [hidle t] at hcall
      cases hcall
    · rw [hidle t] at hcall
      cases hcall
    · rw [hdelivered] at hd
      cases hd
  exact htarget.delivered

/-! ## What the descriptor pins -/

/-- All processes of the table and of the descriptors have been started. -/
structure Started (m : Machine) : Prop where
  running : ∀ (pid : Int) (p : Proc), m.table[pid]? = some p → p.serial < m.serial
  pinned : ∀ t uid fd, m.calls t = .opened uid fd → fd.proc.serial < m.serial

theorem started_setCall {m : Machine} {t : Nat} {call : KillCall} (hm : Started m)
    (hopened : ∀ uid fd, call = .opened uid fd → fd.proc.serial < m.serial) :
    Started (m.setCall t call) := by
  refine ⟨hm.running, fun t' uid fd hcall => ?_⟩
  by_cases ht : t' = t
  · subst ht
    rw [Machine.setCall_self] at hcall
    exact hopened uid fd hcall
  · rw [Machine.setCall_of_ne ht] at hcall
    exact hm.pinned t' uid fd hcall

theorem started_advance {m : Machine} (t : Nat) (hm : Started m) : Started (m.advance t) := by
  unfold Machine.advance
  cases hcall : m.calls t with
  | idle => exact hm
  | returned sent => exact hm
  | started pid uid =>
      refine started_setCall hm fun uid' fd hopened => ?_
      split_ifs at hopened
  | checked pid uid =>
      refine started_setCall hm fun uid' fd hopened => ?_
      split at hopened
      next fd' hopen =>
        obtain ⟨-, rfl⟩ := KillCall.opened.inj hopened
        obtain ⟨p, hp, rfl⟩ := Option.map_eq_some_iff.mp hopen
        exact hm.running pid p hp
      next => cases hopened
  | opened uid fd =>
      have hset : Started (m.setCall t (.returned (pidfdSendSignal m.table fd))) :=
        started_setCall hm (by simp)
      exact ⟨hset.running, hset.pinned⟩

theorem started_next {m m' : Machine} {step : KillStep} (hm : Started m)
    (hstep : m.next step = some m') : Started m' := by
  rcases Machine.next_cases hstep with ⟨t, pid, uid, rfl, rfl⟩ | ⟨t, rfl, rfl⟩ |
    ⟨pid, rfl, rfl⟩ | ⟨pid, uid, rfl, rfl⟩
  · exact started_setCall hm (by simp)
  · exact started_advance t hm
  · exact ⟨fun pid' p hp => hm.running pid' p (Machine.getElem?_of_exit hp), hm.pinned⟩
  · refine ⟨fun pid' p hp => ?_,
      fun t uid' fd hcall => Nat.lt_succ_of_lt (hm.pinned t uid' fd hcall)⟩
    rw [Machine.getElem?_spawn] at hp
    split_ifs at hp
    · obtain rfl := Option.some.inj hp
      exact Nat.lt_succ_self m.serial
    · exact Nat.lt_succ_of_lt (hm.running pid' p hp)

theorem started_of_reachable {m : Machine} (hm : killRace.Reachable m) : Started m := by
  refine System.ReachableWhen.invariant ?_
    (fun s step s' (hs : Started s) _ (hstep : s.next step = some s') =>
      started_next hs hstep) hm
  rintro s ⟨hidle, -, hrunning⟩
  refine ⟨hrunning, fun t uid fd hcall => ?_⟩
  rw [hidle t] at hcall
  cases hcall

/-- **A pid number that changes hands after the open** does not redirect the
signal. -/
theorem not_sent_to_recycled {m : Machine} {t : Nat} {uid : Uid} {fd : Pidfd}
    (hm : killRace.Reachable m) (hcall : m.calls t = .opened uid fd) (uid' : Uid) :
    pidfdSendSignal (m.spawn fd.pid uid').table fd = false := by
  have hpinned := (started_of_reachable hm).pinned t uid fd hcall
  rw [pidfdSendSignal, Machine.getElem?_spawn, if_pos rfl, decide_eq_false_iff_not]
  intro heq
  -- The new process has the next serial number, the pinned one an earlier.
  have hserial : m.serial = fd.proc.serial := congrArg Proc.serial (Option.some.inj heq)
  omega

theorem reachable_advance {cond : Machine → KillStep → Prop} {m : Machine} (t : Nat)
    (hm : killRace.ReachableWhen cond m) (hcond : cond m (.advance t)) :
    killRace.ReachableWhen cond (m.advance t) :=
  .step hm hcond (rfl : m.next (.advance t) = some (m.advance t))

theorem reachable_exit {cond : Machine → KillStep → Prop} {m : Machine} {pid : Int}
    (hrunning : m.table.contains pid = true) (hm : killRace.ReachableWhen cond m)
    (hcond : cond m (.exit pid)) : killRace.ReachableWhen cond (m.exit pid) := by
  have hstep : m.next (.exit pid) = some (m.exit pid) := if_pos hrunning
  exact .step hm hcond hstep

/-- **A pid number that changes hands before the open** leads to a process of
whatever uid the new owner has. -/
theorem exists_misdelivered {m : Machine} {t : Nat} {pid : Int} {wanted : Uid}
    (hm : killRace.Reachable m) (hcall : m.calls t = .checked pid wanted)
    (hfree : m.table.contains pid = false) (uid : Uid) :
    ∃ m', killRace.Reachable m' ∧ ⟨⟨m.serial, uid⟩, wanted⟩ ∈ m'.delivered := by
  have hspawned : killRace.Reachable (m.spawn pid uid) := by
    refine .step hm trivial (?_ : m.next (.spawn pid uid) = some (m.spawn pid uid))
    simp only [Machine.next, hfree, if_neg Bool.false_ne_true]
  have hcall' : (m.spawn pid uid).calls t = .checked pid wanted := hcall
  have hopened : (m.spawn pid uid).advance t =
      (m.spawn pid uid).setCall t (.opened wanted ⟨pid, m.serial, uid⟩) := by
    simp [Machine.advance, hcall', pidfdOpen, Machine.getElem?_spawn]
  have hsignalled : (((m.spawn pid uid).advance t).advance t).delivered =
      m.delivered ++ [⟨⟨m.serial, uid⟩, wanted⟩] := by
    rw [hopened]
    simp [Machine.advance, pidfdSendSignal, Machine.spawn]
  refine ⟨((m.spawn pid uid).advance t).advance t, ?_, ?_⟩
  · exact reachable_advance t (reachable_advance t hspawned trivial) trivial
  · rw [hsignalled]
    exact List.mem_append_right _ List.mem_cons_self

/-- Process 4000 belongs to uid 10001. -/
def oneProcess : Machine := ⟨FiniteMap.insertAll [(4000, ⟨0, 10001⟩)] ∅, 1, fun _ => .idle, []⟩

theorem oneProcess_init : killRace.init oneProcess := by
  refine ⟨fun _ => rfl, rfl, fun pid p hp => ?_⟩
  have hall : ∀ q ∈ oneProcess.table.toList, q.2.serial < oneProcess.serial := by decide +kernel
  exact hall (pid, p) (ExtTreeMap.mem_toList_iff_getElem?_eq_some.mpr hp)

/-- A call for a process has checked its pid. -/
theorem oneProcess_checked {cond : Machine → KillStep → Prop}
    (hcall : cond oneProcess (.call 0 4000 10001))
    (hadvance : cond (oneProcess.setCall 0 (.started 4000 10001)) (.advance 0)) :
    killRace.ReachableWhen cond ((oneProcess.setCall 0 (.started 4000 10001)).advance 0) :=
  reachable_advance 0 (.step (.init oneProcess_init) hcall
    (rfl : oneProcess.next (.call 0 4000 10001) = some _)) hadvance

/-- The call kills the process it was made for. -/
def oneProcessKilled : Machine :=
  (((oneProcess.setCall 0 (.started 4000 10001)).advance 0).advance 0).advance 0

theorem delivered_requested_oneProcess :
    oneProcessKilled.delivered.length = 1 ∧
      ∀ d ∈ oneProcessKilled.delivered, d.proc.uid = d.requested := by
  refine ⟨by decide +kernel, delivered_requested ?_⟩
  exact reachable_advance 0
    (reachable_advance 0 (oneProcess_checked trivial trivial) trivial) trivial

/-- The checked process exits and a process of another app gets its pid. -/
theorem not_delivered_requested :
    ¬ ∀ m, killRace.Reachable m → ∀ d ∈ m.delivered, d.proc.uid = d.requested := by
  intro h
  have hchecked : killRace.Reachable
      ((oneProcess.setCall 0 (.started 4000 10001)).advance 0) :=
    oneProcess_checked trivial trivial
  have hrunning : ((oneProcess.setCall 0 (.started 4000 10001)).advance 0).table.contains 4000 =
      true := by decide +kernel
  have hexited : killRace.Reachable
      (((oneProcess.setCall 0 (.started 4000 10001)).advance 0).exit 4000) :=
    reachable_exit hrunning hchecked trivial
  have hcall : (((oneProcess.setCall 0 (.started 4000 10001)).advance 0).exit 4000).calls 0 =
      .checked 4000 10001 := by decide +kernel
  obtain ⟨m, hm, hdelivered⟩ :=
    exists_misdelivered hexited hcall (by decide +kernel) 10002
  have huid := h m hm _ hdelivered
  revert huid
  decide

end Ningshi
