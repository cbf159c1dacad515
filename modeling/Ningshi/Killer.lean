import Ningshi.Identity
import Ningshi.KillRace
import Ningshi.Lib.SwapRemove
import Ningshi.Lib.Trace

/-!
# `gate.rs`: the killer thread

The thread that reads the kernel's events queues a pid and a uid for each of
them.  The killer thread pins every queued process with a descriptor and goes
round the pinned ones, until they exit, come to the foreground or time out.
Here it takes one step for each look at something it shares: the queue, the
mirror of the block map, the identity index, the process table.  In between the
engine updates the block map and the index, processes come and go, and the other
end of the queue is dropped.

`killChecked_of_reachable` says that a `SIGKILL` follows a check of the block
list in every run in which nothing is pending when the killer finds the other
end of the queue dropped.
-/

namespace Ningshi

open Std SwapRemove Trace Transition

/-! ## The thread -/

/-- A queued pid.  The number tells messages with the same content apart. -/
structure QueuedKill where
  id : Nat
  pid : UInt32
  uid : Uid
  deriving DecidableEq

/-- An entry of `pending`. -/
structure PendingKill where
  pidfd : Nat
  msg : QueuedKill
  /-- when it was pinned, in ms -/
  started : Nat
  deriving DecidableEq

/-- Where the thread is.  An entry that is being looked at has been copied out
of `pending`, where it stands at index `i`. -/
inductive KillerPhase where
  /-- `recv` or `recv_timeout` -/
  | receiving
  /-- `pidfd_open` -/
  | opening (msg : QueuedKill)
  /-- `try_recv` -/
  | draining
  /-- has the pinned process exited? -/
  | polling (i : Nat)
  /-- `read_oom_score_adj` -/
  | reading (i : Nat) (p : PendingKill)
  /-- first half of `kill_if_blocked` -/
  | checking (i : Nat) (p : PendingKill)
  /-- second half of `kill_if_blocked` -/
  | identifying (i : Nat) (p : PendingKill)
  | killing (i : Nat) (p : PendingKill)
  | counting (i : Nat) (p : PendingKill)
  /-- the other end of the queue is gone -/
  | shutdown
  | shutdownCounting (p : PendingKill)
  | done
  deriving DecidableEq

/-- What is done with messages and descriptors. -/
inductive Act where
  | queued (msg : QueuedKill)
  | opened (msg : QueuedKill) (fd : Nat)
  | polled (fd : Nat)
  /-- was the uid found in the mirror of the block map? -/
  | checked (msg : QueuedKill) (found : Bool)
  /-- `SIGKILL`; was it delivered? -/
  | signalled (msg : QueuedKill) (fd : Nat) (sent : Bool)
  | closed (fd : Nat)
  | counted (msg : QueuedKill)
  deriving DecidableEq

structure Killer where
  table : ProcTable
  /-- serial number of the next process -/
  serial : Nat
  gate : Gate
  /-- an update of the block map that the mirror still lacks -/
  updating : Option (Uid × Bool)
  /-- in ms -/
  clock : Nat
  queue : List QueuedKill
  /-- number of the next message -/
  nextId : Nat
  senderDropped : Bool
  /-- open descriptors -/
  fds : ExtTreeMap Nat Pidfd compare
  pending : List PendingKill
  phase : KillerPhase
  /-- a `u64` that goes up by one for each kill -/
  killCount : UidMap Nat
  killSkipped : Nat
  identitySkipped : Nat
  /-- what has been done, newest first -/
  trace : List Act

def timeoutMs : Nat := 300

/-- What the system answers to a step of the thread. -/
structure Answers where
  /-- the descriptor the kernel gives, if it has one -/
  fd : Option Nat
  /-- `oom_score_adj` of a running process; `none` when it cannot be opened, read or
  parsed -/
  oomScoreAdj : Option Int
  cmdline : Nat → Option (List UInt8)

namespace Killer

def goto (phase : KillerPhase) (k : Killer) : Killer := { k with phase := phase }

def record (act : Act) (k : Killer) : Killer := { k with trace := act :: k.trace }

def pidfdOpen (fd : Nat) (pinned : Pidfd) (msg : QueuedKill) (k : Killer) : Killer :=
  { k with
    fds := k.fds.insert fd pinned
    pending := k.pending ++ [⟨fd, msg, k.clock⟩]
    trace := .opened msg fd :: k.trace }

def close (fd : Nat) (k : Killer) : Killer :=
  { k with fds := k.fds.erase fd, trace := .closed fd :: k.trace }

/-- Signal and close. -/
def pidfdKill (msg : QueuedKill) (fd : Nat) (k : Killer) : Killer :=
  let sent := (k.fds[fd]?).any (pidfdSendSignal k.table)
  (k.record (.signalled msg fd sent)).close fd

def swapRemove (i : Nat) (k : Killer) : Killer :=
  { k with pending := SwapRemove.swapRemove k.pending i }

def count (msg : QueuedKill) (k : Killer) : Killer :=
  { k with
    killCount := k.killCount.insert msg.uid (k.killCount[msg.uid]?.getD 0 + 1)
    trace := .counted msg :: k.trace }

/-- A descriptor is readable when the pinned process has exited. -/
def readable (fd : Nat) (k : Killer) : Bool :=
  (k.fds[fd]?).any fun pinned => !pidfdSendSignal k.table pinned

/-- `None` when no process has the pid, and when the read fails. -/
def readOomScoreAdj (pid : UInt32) (ans : Answers) (k : Killer) : Option Int :=
  if k.table.contains pid.toNat then ans.oomScoreAdj else none

/-- The next step of the thread; `none` while it waits and when it has ended. -/
def advance (ans : Answers) (k : Killer) : Option Killer :=
  match k.phase with
  | .receiving =>
      match k.queue with
      | msg :: rest => some ({ k with queue := rest }.goto (.opening msg))
      | [] =>
          if k.senderDropped then some (k.goto .shutdown)
          -- without anything pending it waits for good
          else if k.pending = [] then none
          else some (k.goto (.polling 0))
  | .opening msg =>
      match ans.fd, Ningshi.pidfdOpen k.table msg.pid.toNat with
      | some fd, some pinned =>
          if fd ∈ k.fds then none else some ((k.pidfdOpen fd pinned msg).goto .draining)
      | _, _ => some (k.goto .draining)
  | .draining =>
      match k.queue with
      | msg :: rest => some ({ k with queue := rest }.goto (.opening msg))
      | [] => some (k.goto (.polling 0))
  | .polling i =>
      match k.pending[i]? with
      | none => some (k.goto .receiving)
      | some p =>
          let polled := k.record (.polled p.pidfd)
          if k.readable p.pidfd then
            some (((polled.close p.pidfd).swapRemove i).goto (.polling i))
          else some (polled.goto (.reading i p))
  | .reading i p =>
      match k.readOomScoreAdj p.msg.pid ans with
      | none => some (((k.close p.pidfd).swapRemove i).goto (.polling i))
      | some adj =>
          if adj = 0 ∨ timeoutMs ≤ k.clock - p.started then some (k.goto (.checking i p))
          else some (k.goto (.polling (i + 1)))
  | .checking i p =>
      let found := k.gate.mirror.contains p.msg.uid
      let checked := k.record (.checked p.msg found)
      if found then some (checked.goto (.identifying i p))
      else
        let skipped := { checked with killSkipped := checked.killSkipped + 1 }
        some (((skipped.close p.pidfd).swapRemove i).goto (.polling i))
  | .identifying i p =>
      if (identityOk k.gate.identity ans.cmdline p.msg.uid).1 then some (k.goto (.killing i p))
      else
        let skipped := { k with identitySkipped := k.identitySkipped + 1 }
        some (((skipped.close p.pidfd).swapRemove i).goto (.polling i))
  | .killing i p => some ((k.pidfdKill p.msg p.pidfd).goto (.counting i p))
  | .counting i p => some (((k.count p.msg).swapRemove i).goto (.polling i))
  | .shutdown =>
      match k.pending with
      -- killed right away, without a look at the block list
      | p :: rest =>
          some (({ k with pending := rest }.pidfdKill p.msg p.pidfd).goto (.shutdownCounting p))
      | [] => some (k.goto .done)
  | .shutdownCounting p => some ((k.count p.msg).goto .shutdown)
  | .done => none

end Killer

/-! ## Runs -/

inductive KillerStep where
  | advance (ans : Answers)
  /-- an event of the kernel is queued -/
  | send (pid : UInt32) (uid : Uid)
  | dropSender
  /-- first half of `set_blocked`: the kernel map -/
  | kernel (uid : Uid) (blocked : Bool)
  /-- second half of `set_blocked` -/
  | mirror
  | setBlockIndex (index : UidMap (List String))
  | exit (pid : Int)
  | spawn (pid : Int) (uid : Uid)
  | wait (ms : Nat)

namespace Killer

def send (pid : UInt32) (uid : Uid) (k : Killer) : Killer :=
  let msg : QueuedKill := ⟨k.nextId, pid, uid⟩
  { k with
    queue := k.queue ++ [msg]
    nextId := k.nextId + 1
    trace := .queued msg :: k.trace }

def next (k : Killer) : KillerStep → Option Killer
  | .advance ans => k.advance ans
  | .send pid uid => if k.senderDropped then none else some (k.send pid uid)
  | .dropSender => if k.senderDropped then none else some { k with senderDropped := true }
  | .kernel uid blocked =>
      -- the kernel refuses to remove what it does not hold
      if k.updating.isSome ∨ ¬(blocked ∨ uid ∈ k.gate.kernel) then none
      else
        some { k with
          gate := { k.gate with kernel := applyBlock uid blocked k.gate.kernel }
          updating := some (uid, blocked) }
  | .mirror =>
      k.updating.map fun (uid, blocked) =>
        { k with
          gate := { k.gate with mirror := applyBlock uid blocked k.gate.mirror }
          updating := none }
  | .setBlockIndex index =>
      if k.updating.isSome then none else some { k with gate := k.gate.setBlockIndex index }
  | .exit pid =>
      if k.table.contains pid then some { k with table := k.table.erase pid } else none
  | .spawn pid uid =>
      if k.table.contains pid then none
      else
        some { k with
          table := k.table.insert pid ⟨k.serial, uid⟩
          serial := k.serial + 1 }
  | .wait ms => some { k with clock := k.clock + ms }

/-- The thread has just been started. -/
structure Initial (k : Killer) : Prop where
  running : ∀ (pid : Int) (p : Proc), k.table[pid]? = some p → p.serial < k.serial
  gate : k.gate = .start
  updating : k.updating = none
  queue : k.queue = []
  nextId : k.nextId = 0
  senderDropped : k.senderDropped = false
  fds : k.fds = ∅
  pending : k.pending = []
  phase : k.phase = .receiving
  killSkipped : k.killSkipped = 0
  identitySkipped : k.identitySkipped = 0
  trace : k.trace = []

end Killer

def killerThread : System Killer KillerStep := .ofNext Killer.Initial Killer.next

/-! ## What a step does -/

/-- The phases the thread goes to without doing anything else. -/
inductive GoesOn (k : Killer) (ans : Answers) : KillerPhase → KillerPhase → Prop where
  | timeout (hqueue : k.queue = []) (hpending : k.pending ≠ []) :
      GoesOn k ans .receiving (.polling 0)
  | unopened (msg : QueuedKill)
      (hnone : ans.fd = none ∨ pidfdOpen k.table msg.pid.toNat = none) :
      GoesOn k ans (.opening msg) .draining
  | drained (hqueue : k.queue = []) : GoesOn k ans .draining (.polling 0)
  | wrap (i : Nat) (hend : k.pending[i]? = none) : GoesOn k ans (.polling i) .receiving
  | due (i : Nat) (p : PendingKill) {adj : Int}
      (hread : k.readOomScoreAdj p.msg.pid ans = some adj)
      (hdue : adj = 0 ∨ timeoutMs ≤ k.clock - p.started) :
      GoesOn k ans (.reading i p) (.checking i p)
  | later (i : Nat) (p : PendingKill) {adj : Int}
      (hread : k.readOomScoreAdj p.msg.pid ans = some adj)
      (hdue : ¬(adj = 0 ∨ timeoutMs ≤ k.clock - p.started)) :
      GoesOn k ans (.reading i p) (.polling (i + 1))
  | identified (i : Nat) (p : PendingKill)
      (hok : (identityOk k.gate.identity ans.cmdline p.msg.uid).1 = true) :
      GoesOn k ans (.identifying i p) (.killing i p)

namespace Killer

/-- An entry is taken out of `pending`, and the thread looks at the one that is
now in its place. -/
def remove (i : Nat) (k : Killer) : Killer := (k.swapRemove i).goto (.polling i)

/-- What a step of the thread makes of its state. -/
inductive Advanced (k : Killer) (ans : Answers) : Killer → Prop where
  | goesOn {phase phase' : KillerPhase} (hphase : k.phase = phase)
      (hnext : GoesOn k ans phase phase') : Advanced k ans (k.goto phase')
  | receive {msg : QueuedKill} {rest : List QueuedKill}
      (hphase : k.phase = .receiving ∨ k.phase = .draining) (hqueue : k.queue = msg :: rest) :
      Advanced k ans ({ k with queue := rest }.goto (.opening msg))
  | disconnect (hphase : k.phase = .receiving) (hqueue : k.queue = [])
      (hdropped : k.senderDropped = true) : Advanced k ans (k.goto .shutdown)
  | pin {msg : QueuedKill} {fd : Nat} {pinned : Pidfd} (hphase : k.phase = .opening msg)
      (hopen : Ningshi.pidfdOpen k.table msg.pid.toNat = some pinned) (hfree : fd ∉ k.fds) :
      Advanced k ans ((k.pidfdOpen fd pinned msg).goto .draining)
  | exited {i : Nat} {p : PendingKill} (hphase : k.phase = .polling i)
      (hentry : k.pending[i]? = some p) (hexited : k.readable p.pidfd = true) :
      Advanced k ans (((k.record (.polled p.pidfd)).close p.pidfd).remove i)
  | look {i : Nat} {p : PendingKill} (hphase : k.phase = .polling i)
      (hentry : k.pending[i]? = some p) (hrunning : k.readable p.pidfd = false) :
      Advanced k ans ((k.record (.polled p.pidfd)).goto (.reading i p))
  | gone {i : Nat} {p : PendingKill} (hphase : k.phase = .reading i p)
      (hread : k.readOomScoreAdj p.msg.pid ans = none) :
      Advanced k ans ((k.close p.pidfd).remove i)
  | passed {i : Nat} {p : PendingKill} (hphase : k.phase = .checking i p)
      (hfound : p.msg.uid ∈ k.gate.mirror) :
      Advanced k ans ((k.record (.checked p.msg true)).goto (.identifying i p))
  | unblocked {i : Nat} {p : PendingKill} (hphase : k.phase = .checking i p)
      (hfound : p.msg.uid ∉ k.gate.mirror) :
      Advanced k ans (({ k.record (.checked p.msg false) with
        killSkipped := k.killSkipped + 1 }.close p.pidfd).remove i)
  | misnamed {i : Nat} {p : PendingKill} (hphase : k.phase = .identifying i p)
      (hother : (identityOk k.gate.identity ans.cmdline p.msg.uid).1 = false) :
      Advanced k ans (({ k with identitySkipped := k.identitySkipped + 1 }.close p.pidfd).remove i)
  | kill {i : Nat} {p : PendingKill} (hphase : k.phase = .killing i p) :
      Advanced k ans ((k.pidfdKill p.msg p.pidfd).goto (.counting i p))
  | count {i : Nat} {p : PendingKill} (hphase : k.phase = .counting i p) :
      Advanced k ans ((k.count p.msg).remove i)
  | shutdownKill {p : PendingKill} {rest : List PendingKill} (hphase : k.phase = .shutdown)
      (hpending : k.pending = p :: rest) :
      Advanced k ans
        (({ k with pending := rest }.pidfdKill p.msg p.pidfd).goto (.shutdownCounting p))
  | shutdownCount {p : PendingKill} (hphase : k.phase = .shutdownCounting p) :
      Advanced k ans ((k.count p.msg).goto .shutdown)
  | finish (hphase : k.phase = .shutdown) (hpending : k.pending = []) :
      Advanced k ans (k.goto .done)

/-- **What a step of the thread does.** -/
theorem advance_cases {k k' : Killer} {ans : Answers} (hstep : k.advance ans = some k') :
    Advanced k ans k' := by
  unfold advance at hstep
  cases hphase : k.phase with
  | receiving =>
      simp only [hphase] at hstep
      cases hqueue : k.queue with
      | cons msg rest =>
          simp only [hqueue] at hstep
          exact Option.some.inj hstep ▸ .receive (.inl hphase) hqueue
      | nil =>
          simp only [hqueue] at hstep
          split_ifs at hstep with hdropped hpending
          · exact Option.some.inj hstep ▸ .disconnect hphase hqueue hdropped
          · exact Option.some.inj hstep ▸ .goesOn hphase (.timeout hqueue hpending)
  | opening msg =>
      simp only [hphase] at hstep
      split at hstep
      next fd pinned _ hopen =>
        split_ifs at hstep with hfree
        exact Option.some.inj hstep ▸ .pin hphase hopen hfree
      next hnot =>
        refine Option.some.inj hstep ▸ .goesOn hphase (.unopened msg ?_)
        cases hfd : ans.fd with
        | none => exact .inl rfl
        | some fd =>
            cases hopen : Ningshi.pidfdOpen k.table msg.pid.toNat with
            | none => exact .inr rfl
            | some pinned => exact absurd hopen (hnot fd pinned hfd)
  | draining =>
      simp only [hphase] at hstep
      cases hqueue : k.queue with
      | cons msg rest =>
          simp only [hqueue] at hstep
          exact Option.some.inj hstep ▸ .receive (.inr hphase) hqueue
      | nil =>
          simp only [hqueue] at hstep
          exact Option.some.inj hstep ▸ .goesOn hphase (.drained hqueue)
  | polling i =>
      simp only [hphase] at hstep
      cases hentry : k.pending[i]? with
      | none =>
          simp only [hentry] at hstep
          exact Option.some.inj hstep ▸ .goesOn hphase (.wrap i hentry)
      | some p =>
          simp only [hentry] at hstep
          split_ifs at hstep with hexited
          · exact Option.some.inj hstep ▸ .exited hphase hentry hexited
          · exact Option.some.inj hstep ▸ .look hphase hentry (Bool.eq_false_iff.mpr hexited)
  | reading i p =>
      simp only [hphase] at hstep
      split at hstep
      next hread => exact Option.some.inj hstep ▸ .gone hphase hread
      next adj hread =>
        split_ifs at hstep with hdue
        · exact Option.some.inj hstep ▸ .goesOn hphase (.due i p hread hdue)
        · exact Option.some.inj hstep ▸ .goesOn hphase (.later i p hread hdue)
  | checking i p =>
      simp only [hphase] at hstep
      split_ifs at hstep with hfound
      · rw [hfound] at hstep
        exact Option.some.inj hstep ▸ .passed hphase hfound
      · rw [Bool.eq_false_iff.mpr hfound] at hstep
        exact Option.some.inj hstep ▸ .unblocked hphase hfound
  | identifying i p =>
      simp only [hphase] at hstep
      split_ifs at hstep with hok
      · exact Option.some.inj hstep ▸ .goesOn hphase (.identified i p hok)
      · exact Option.some.inj hstep ▸ .misnamed hphase (Bool.eq_false_iff.mpr hok)
  | killing i p =>
      simp only [hphase] at hstep
      exact Option.some.inj hstep ▸ .kill hphase
  | counting i p =>
      simp only [hphase] at hstep
      exact Option.some.inj hstep ▸ .count hphase
  | shutdown =>
      simp only [hphase] at hstep
      cases hpending : k.pending with
      | nil =>
          simp only [hpending] at hstep
          exact Option.some.inj hstep ▸ .finish hphase hpending
      | cons p rest =>
          simp only [hpending] at hstep
          exact Option.some.inj hstep ▸ .shutdownKill hphase hpending
  | shutdownCounting p =>
      simp only [hphase] at hstep
      exact Option.some.inj hstep ▸ .shutdownCount hphase
  | done => simp [hphase] at hstep

/-- Two states with the same thread. -/
structure SameThread (k k' : Killer) : Prop where
  queue : k'.queue = k.queue
  nextId : k'.nextId = k.nextId
  fds : k'.fds = k.fds
  pending : k'.pending = k.pending
  phase : k'.phase = k.phase
  killCount : k'.killCount = k.killCount
  killSkipped : k'.killSkipped = k.killSkipped
  identitySkipped : k'.identitySkipped = k.identitySkipped
  trace : k'.trace = k.trace

/-- **What a step does**: the thread takes it, or a message is queued, or the
thread is left alone. -/
theorem next_cases {k k' : Killer} {step : KillerStep} (hstep : k.next step = some k') :
    (∃ ans, step = .advance ans ∧ Advanced k ans k') ∨ (∃ pid uid, k' = k.send pid uid) ∨
      SameThread k k' := by
  cases step with
  | advance ans => exact .inl ⟨ans, rfl, advance_cases hstep⟩
  | send pid uid =>
      simp only [next] at hstep
      split_ifs at hstep
      exact .inr (.inl ⟨pid, uid, (Option.some.inj hstep).symm⟩)
  | mirror =>
      obtain ⟨update, -, rfl⟩ := Option.map_eq_some_iff.mp hstep
      exact .inr (.inr ⟨rfl, rfl, rfl, rfl, rfl, rfl, rfl, rfl, rfl⟩)
  | wait ms =>
      obtain rfl := Option.some.inj hstep
      exact .inr (.inr ⟨rfl, rfl, rfl, rfl, rfl, rfl, rfl, rfl, rfl⟩)
  | _ =>
      simp only [next] at hstep
      split_ifs at hstep
      obtain rfl := Option.some.inj hstep
      exact .inr (.inr ⟨rfl, rfl, rfl, rfl, rfl, rfl, rfl, rfl, rfl⟩)

end Killer

/-! ## Checks before kills -/

/-- A signal follows a check, made after the message was queued, that found its
uid in the mirror. -/
def KillChecked (act : Act) (earlier : List Act) : Prop :=
  ∀ msg fd sent, act = .signalled msg fd sent → After (.checked msg true) (.queued msg) earlier

/-- Nothing is pending when the thread finds the other end of the queue dropped. -/
def DisconnectsIdle (k : Killer) : KillerStep → Prop
  | .advance _ => k.phase = .receiving → k.queue = [] → k.senderDropped = true → k.pending = []
  | _ => True

instance (k : Killer) : (step : KillerStep) → Decidable (DisconnectsIdle k step)
  | .advance _ => inferInstanceAs (Decidable (_ → _ → _ → _))
  | .send _ _ => .isTrue trivial
  | .dropSender => .isTrue trivial
  | .kernel _ _ => .isTrue trivial
  | .mirror => .isTrue trivial
  | .setBlockIndex _ => .isTrue trivial
  | .exit _ => .isTrue trivial
  | .spawn _ _ => .isTrue trivial
  | .wait _ => .isTrue trivial

def KillerPhase.isShutdown : KillerPhase → Bool
  | .shutdown => true
  | .shutdownCounting _ => true
  | _ => false

/-- What must have happened to the entry a phase is about. -/
def KillerPhase.Justified (trace : List Act) : KillerPhase → Prop
  | .opening msg => .queued msg ∈ trace
  | .reading _ p => .queued p.msg ∈ trace
  | .checking _ p => .queued p.msg ∈ trace
  | .identifying _ p => After (.checked p.msg true) (.queued p.msg) trace
  | .killing _ p => After (.checked p.msg true) (.queued p.msg) trace
  | _ => True

theorem KillerPhase.Justified.cons {phase : KillerPhase} {trace : List Act}
    (h : phase.Justified trace) (act : Act) : phase.Justified (act :: trace) := by
  cases phase with
  | opening msg => exact List.mem_cons_of_mem act h
  | reading i p => exact List.mem_cons_of_mem act h
  | checking i p => exact List.mem_cons_of_mem act h
  | identifying i p => exact After.cons h act
  | killing i p => exact After.cons h act
  | _ => exact h

/-- What a run keeps. -/
structure Careful (k : Killer) : Prop where
  kills : Always KillChecked k.trace
  queue : ∀ msg ∈ k.queue, .queued msg ∈ k.trace
  pending : ∀ p ∈ k.pending, .queued p.msg ∈ k.trace
  phase : k.phase.Justified k.trace
  shutdown : k.phase.isShutdown = true → k.pending = []

namespace Careful

variable {k : Killer}

theorem gotoShutdown (hk : Careful k) {phase : KillerPhase} (hphase : phase.Justified k.trace)
    (hpending : k.pending = []) : Careful (k.goto phase) :=
  ⟨hk.kills, hk.queue, hk.pending, hphase, fun _ => hpending⟩

theorem goto (hk : Careful k) {phase : KillerPhase} (hphase : phase.Justified k.trace)
    (hrunning : phase.isShutdown = false) : Careful (k.goto phase) :=
  ⟨hk.kills, hk.queue, hk.pending, hphase,
    fun hshutdown => absurd (hrunning.symm.trans hshutdown) Bool.false_ne_true⟩

theorem record (hk : Careful k) (act : Act) (hact : KillChecked act k.trace) :
    Careful (k.record act) := by
  refine ⟨always_cons.mpr ⟨hact, hk.kills⟩, fun msg hmsg => ?_, fun p hp => ?_,
    hk.phase.cons act, hk.shutdown⟩
  · exact List.mem_cons_of_mem act (hk.queue msg hmsg)
  · exact List.mem_cons_of_mem act (hk.pending p hp)

theorem close (hk : Careful k) (fd : Nat) : Careful (k.close fd) := by
  have h := hk.record (.closed fd) (by simp [KillChecked])
  exact ⟨h.kills, h.queue, h.pending, h.phase, h.shutdown⟩

theorem count (hk : Careful k) (msg : QueuedKill) : Careful (k.count msg) := by
  have h := hk.record (.counted msg) (by simp [KillChecked])
  exact ⟨h.kills, h.queue, h.pending, h.phase, h.shutdown⟩

theorem swapRemove (hk : Careful k) (i : Nat) : Careful (k.swapRemove i) := by
  refine ⟨hk.kills, hk.queue, fun p hp => hk.pending p (mem_of_mem_swapRemove hp), hk.phase,
    fun hphase => ?_⟩
  rw [Killer.swapRemove, hk.shutdown hphase, swapRemove_nil]

theorem pidfdKill (hk : Careful k) {msg : QueuedKill}
    (hchecked : After (.checked msg true) (.queued msg) k.trace) (fd : Nat) :
    Careful (k.pidfdKill msg fd) := by
  refine (hk.record _ ?_).close fd
  intro msg' fd' sent' hact
  obtain ⟨rfl, -, -⟩ := Act.signalled.inj hact
  exact hchecked

theorem pidfdOpen (hk : Careful k) {msg : QueuedKill} (hmsg : .queued msg ∈ k.trace) (fd : Nat)
    (pinned : Pidfd) (hphase : k.phase.isShutdown = false) :
    Careful (k.pidfdOpen fd pinned msg) := by
  have h := hk.record (.opened msg fd) (by simp [KillChecked])
  refine ⟨h.kills, h.queue, fun p hp => ?_, h.phase, fun hshutdown => ?_⟩
  rcases List.mem_append.mp hp with hp | hp
  · exact h.pending p hp
  · rw [List.mem_singleton.mp hp]
    exact List.mem_cons_of_mem _ hmsg
  · exact absurd (hphase.symm.trans hshutdown) Bool.false_ne_true

theorem receive (hk : Careful k) {msg : QueuedKill} {rest : List QueuedKill}
    (hqueue : k.queue = msg :: rest) :
    Careful ({ k with queue := rest }.goto (.opening msg)) := by
  have hqueued := hk.queue
  rw [hqueue] at hqueued
  exact ⟨hk.kills, fun m hm => hqueued m (List.mem_cons_of_mem msg hm), hk.pending,
    hqueued msg List.mem_cons_self, fun h => by cases h⟩

theorem remove (hk : Careful k) (i : Nat) : Careful (k.remove i) :=
  (hk.swapRemove i).goto trivial rfl

end Careful

theorem justified_of_goesOn {k : Killer} {ans : Answers} {phase phase' : KillerPhase}
    {trace : List Act} (h : GoesOn k ans phase phase') (hphase : phase.Justified trace) :
    phase'.Justified trace ∧ phase'.isShutdown = false := by
  cases h with
  | due => exact ⟨hphase, rfl⟩
  | identified => exact ⟨hphase, rfl⟩
  | _ => exact ⟨trivial, rfl⟩

/-- **A step of the thread that meets the condition** sends no unchecked signal. -/
theorem careful_advance {k k' : Killer} {ans : Answers} (hk : Careful k)
    (hidle : DisconnectsIdle k (.advance ans)) (hstep : Killer.Advanced k ans k') :
    Careful k' := by
  have hjustified := hk.phase
  cases hstep with
  | goesOn hphase hnext =>
      obtain ⟨hnext, hrunning⟩ := justified_of_goesOn hnext (hphase ▸ hjustified)
      exact hk.goto hnext hrunning
  | receive _ hqueue => exact hk.receive hqueue
  | disconnect hphase hqueue hdropped =>
      exact hk.gotoShutdown trivial (hidle hphase hqueue hdropped)
  | @pin msg fd pinned hphase _ _ =>
      rw [hphase] at hjustified
      exact (hk.pidfdOpen hjustified fd pinned (by rw [hphase]; rfl)).goto trivial rfl
  | @exited i p _ _ _ => exact ((hk.record _ (by simp [KillChecked])).close p.pidfd).remove i
  | @look i p _ hentry _ =>
      have hpolled : Careful (k.record (.polled p.pidfd)) := hk.record _ (by simp [KillChecked])
      exact hpolled.goto (hpolled.pending p (List.mem_of_getElem? hentry)) rfl
  | @gone i p _ _ => exact (hk.close p.pidfd).remove i
  | passed hphase _ =>
      -- the check the kill rests on
      rw [hphase] at hjustified
      exact (hk.record _ (by simp [KillChecked])).goto (after_cons_self hjustified) rfl
  | @unblocked i p _ _ =>
      have h := hk.record (.checked p.msg false) (by simp [KillChecked])
      have hskipped : Careful { k.record (.checked p.msg false) with
          killSkipped := k.killSkipped + 1 } := ⟨h.kills, h.queue, h.pending, h.phase, h.shutdown⟩
      exact (hskipped.close p.pidfd).remove i
  | @misnamed i p _ _ =>
      have hskipped : Careful { k with identitySkipped := k.identitySkipped + 1 } :=
        ⟨hk.kills, hk.queue, hk.pending, hk.phase, hk.shutdown⟩
      exact (hskipped.close p.pidfd).remove i
  | @kill i p hphase =>
      rw [hphase] at hjustified
      exact (hk.pidfdKill hjustified p.pidfd).goto trivial rfl
  | @count i p _ => exact (hk.count p.msg).remove i
  | shutdownKill hphase hpending =>
      -- nothing is pending by the time the thread gets here
      rw [hk.shutdown (by rw [hphase]; rfl)] at hpending
      cases hpending
  | @shutdownCount p hphase =>
      exact (hk.count p.msg).gotoShutdown trivial (hk.shutdown (by rw [hphase]; rfl))
  | finish _ _ => exact hk.goto trivial rfl

theorem careful_send {k : Killer} (hk : Careful k) (pid : UInt32) (uid : Uid) :
    Careful (k.send pid uid) := by
  have h := hk.record (.queued ⟨k.nextId, pid, uid⟩) (by simp [KillChecked])
  refine ⟨h.kills, fun msg hmsg => ?_, h.pending, h.phase, h.shutdown⟩
  rcases List.mem_append.mp hmsg with hmsg | hmsg
  · exact h.queue msg hmsg
  · rw [List.mem_singleton.mp hmsg]
    exact List.mem_cons_self

/-- **A step that meets the condition**, of the thread or around it. -/
theorem careful_next {k k' : Killer} {step : KillerStep} (hk : Careful k)
    (hidle : DisconnectsIdle k step) (hstep : k.next step = some k') : Careful k' := by
  rcases Killer.next_cases hstep with ⟨ans, rfl, hadvanced⟩ | ⟨pid, uid, rfl⟩ | hsame
  · exact careful_advance hk hidle hadvanced
  · exact careful_send hk pid uid
  · exact ⟨hsame.trace ▸ hk.kills, hsame.queue ▸ hsame.trace ▸ hk.queue,
      hsame.pending ▸ hsame.trace ▸ hk.pending, hsame.phase ▸ hsame.trace ▸ hk.phase,
      hsame.phase ▸ hsame.pending ▸ hk.shutdown⟩

/-- **Every kill re-checks the block list first**, in a run in which nothing is
pending when the thread finds the other end of the queue dropped. -/
theorem killChecked_of_reachable {k : Killer}
    (hk : killerThread.ReachableWhen DisconnectsIdle k) : Always KillChecked k.trace := by
  have hcareful : Careful k := by
    refine hk.invariant (fun s hs => ?_) fun s step s' hs hidle hstep =>
      careful_next hs hidle hstep
    have hempty : Always KillChecked ([] : List Act) := always_nil
    refine ⟨hs.trace ▸ hempty, ?_, ?_, ?_, fun _ => hs.pending⟩
    · rw [hs.queue]
      simp
    · rw [hs.pending]
      simp
    · rw [hs.phase]
      trivial
  exact hcareful.kills

/-- Process 4000 belongs to uid 10001. -/
def oneTarget : Killer where
  table := FiniteMap.insertAll [(4000, ⟨0, 10001⟩)] ∅
  serial := 1
  gate := .start
  updating := none
  clock := 0
  queue := []
  nextId := 0
  senderDropped := false
  fds := ∅
  pending := []
  phase := .receiving
  killCount := ∅
  killSkipped := 0
  identitySkipped := 0
  trace := []

theorem oneTarget_init : killerThread.init oneTarget := by
  have hall : ∀ q ∈ oneTarget.table.toList, q.2.serial < oneTarget.serial := by decide +kernel
  exact ⟨fun pid p hp => hall (pid, p) (ExtTreeMap.mem_toList_iff_getElem?_eq_some.mpr hp),
    rfl, rfl, rfl, rfl, rfl, rfl, rfl, rfl, rfl, rfl, rfl⟩

/-- The process is in the foreground and shows its name. -/
def foreground : Answers := ⟨some 3, some 0, fun _ => some "com.game".toUTF8.toList⟩

/-- The uid is blocked, and a launch of its process is queued. -/
def launch : List KillerStep :=
  [.kernel 10001 true, .mirror,
    .setBlockIndex (FiniteMap.insertAll [(10001, ["com.game"])] ∅), .send 4000 10001]

/-- The killer handles the launch. -/
theorem killChecked_of_reachable_launch :
    ∃ k, runWhen Killer.next DisconnectsIdle
        (launch ++ List.replicate 8 (.advance foreground)) oneTarget = some k ∧
      .signalled ⟨0, 4000, 10001⟩ 3 true ∈ k.trace ∧ Always KillChecked k.trace := by
  have hsent : ((runWhen Killer.next DisconnectsIdle
      (launch ++ List.replicate 8 (.advance foreground)) oneTarget).any fun k =>
        .signalled ⟨0, 4000, 10001⟩ 3 true ∈ k.trace) = true := by decide +kernel
  obtain ⟨k, hk, hsignalled⟩ := (Option.any_eq_true _ _).mp hsent
  exact ⟨k, hk, of_decide_eq_true hsignalled,
    killChecked_of_reachable (System.reachableWhen_runWhen (.init oneTarget_init) hk)⟩

/-- The process is pinned but not in the foreground; the uid is unblocked, and
the other end of the queue dropped. -/
def shutdownRun : List KillerStep :=
  launch ++ List.replicate 6 (.advance { foreground with oomScoreAdj := some (-1000) }) ++
    [.kernel 10001 false, .mirror, .dropSender] ++ List.replicate 2 (.advance foreground)

/-- The process is killed although nothing was checked. -/
theorem not_killChecked_of_reachable :
    ¬ ∀ k, killerThread.Reachable k → Always KillChecked k.trace := by
  intro h
  let msg : QueuedKill := ⟨0, 4000, 10001⟩
  have htrace : (runFrom Killer.next shutdownRun oneTarget).map Killer.trace =
      some [.closed 3, .signalled msg 3 true, .polled 3, .opened msg 3, .queued msg] := by
    decide +kernel
  obtain ⟨k, hk, hkTrace⟩ := Option.map_eq_some_iff.mp htrace
  have halways := h k (System.reachable_runFrom (.init oneTarget_init) hk)
  rw [hkTrace, always_cons, always_cons] at halways
  have hchecked := (halways.2.1 msg 3 true rfl).mem
  revert hchecked
  decide

end Ningshi
