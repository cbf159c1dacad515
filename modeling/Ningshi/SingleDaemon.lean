import Mathlib.Logic.Function.Basic
import Ningshi.Lib.Transition

/-!
# `main.rs`: only one daemon

`service.sh` and a shell can both start the daemon, at any time.  Each process
opens the lock file, takes the lock or exits, attaches its probes and replaces
the socket; it can be killed anywhere in between, and the kernel then gives up
the lock and the probes in an order of its own.

`oneDaemon_of_reachable` says that at most one process has got past the lock,
that the probes of two processes are attached together only while one of them
is on its way out, and that the socket leads to the daemon that runs.
-/

namespace Ningshi

open Transition

/-- A process, under a number that is never used again. -/
abbrev ProcId := Nat

/-- How far a process has got; the file is the lock file it has opened. -/
inductive ProcPhase where
  | unborn
  | started
  | opened (file : Nat)
  | locked (file : Nat)
  /-- `Gate::start` has attached the probes -/
  | gated (file : Nat)
  /-- `listen` has removed the socket file -/
  | cleared (file : Nat)
  | serving (file : Nat)
  /-- it has returned, failed or been killed -/
  | ending (file : Nat)
  | gone
  deriving DecidableEq

namespace ProcPhase

/-- The lock file a running process has opened. -/
def file : ProcPhase → Option Nat
  | opened f | locked f | gated f | cleared f | serving f => some f
  | _ => none

/-- The file a running process has got the lock of. -/
def lock : ProcPhase → Option Nat
  | locked f | gated f | cleared f | serving f => some f
  | _ => none

/-- A running process whose gate has been started. -/
def hasGate : ProcPhase → Bool
  | gated _ | cleared _ | serving _ => true
  | _ => false

def ends : ProcPhase → Bool
  | ending _ => true
  | _ => false

end ProcPhase

/-- The processes, and what they share. -/
structure Host where
  phase : ProcId → ProcPhase
  /-- the file `daemon.lock` leads to -/
  lockFile : Option Nat
  nextFile : Nat
  /-- who has the lock of a file -/
  holder : Nat → Option ProcId
  /-- whose probes are attached -/
  probes : ProcId → Bool
  /-- whose socket `ningshi.sock` leads to -/
  sock : Option ProcId

inductive HostEvent where
  | start (p : ProcId)
  /-- `open` with `create(true)` -/
  | openLock (p : ProcId)
  /-- `flock` with `LOCK_EX | LOCK_NB` -/
  | flock (p : ProcId)
  | attach (p : ProcId)
  | removeSocket (p : ProcId)
  | bind (p : ProcId)
  /-- the process returns, fails or is killed -/
  | stop (p : ProcId)
  | unlock (p : ProcId)
  | detach (p : ProcId)
  | reap (p : ProcId)
  /-- `rm -rf /data/adb/ningshi` -/
  | wipe

namespace Host

def setPhase (s : Host) (p : ProcId) (phase : ProcPhase) : Host :=
  { s with phase := Function.update s.phase p phase }

/-- What a process does when it stops. -/
def stop (s : Host) (p : ProcId) : Option Host :=
  match s.phase p with
  | .started | .opened _ => some (s.setPhase p .gone)
  | .locked f | .gated f | .cleared f | .serving f => some (s.setPhase p (.ending f))
  | _ => none

def next (s : Host) : HostEvent → Option Host
  | .start p => if s.phase p = .unborn then some (s.setPhase p .started) else none
  | .openLock p =>
      if s.phase p = .started then
        let f := s.lockFile.getD s.nextFile
        some { s.setPhase p (.opened f) with
          lockFile := some f
          nextFile := max s.nextFile (f + 1) }
      else none
  | .flock p =>
      match s.phase p with
      | .opened f =>
          -- the second one exits
          if s.holder f = none then
            some { s.setPhase p (.locked f) with holder := Function.update s.holder f (some p) }
          else some (s.setPhase p .gone)
      | _ => none
  | .attach p =>
      match s.phase p with
      | .locked f =>
          some { s.setPhase p (.gated f) with probes := Function.update s.probes p true }
      | _ => none
  | .removeSocket p =>
      match s.phase p with
      | .gated f => some { s.setPhase p (.cleared f) with sock := none }
      | _ => none
  | .bind p =>
      match s.phase p with
      | .cleared f =>
          -- the path must be free
          if s.sock = none then some { s.setPhase p (.serving f) with sock := some p }
          else some (s.setPhase p (.ending f))
      | _ => none
  | .stop p => s.stop p
  | .unlock p =>
      match s.phase p with
      | .ending f =>
          if s.holder f = some p then some { s with holder := Function.update s.holder f none }
          else none
      | _ => none
  | .detach p =>
      if (s.phase p).ends then some { s with probes := Function.update s.probes p false }
      else none
  | .reap p =>
      match s.phase p with
      | .ending f =>
          if s.holder f = some p ∨ s.probes p = true then none else some (s.setPhase p .gone)
      | _ => none
  | .wipe => some { s with lockFile := none }

/-- The data directory is removed only while no daemon runs. -/
def Careful (s : Host) : HostEvent → Prop
  | .wipe => ∀ p, (s.phase p).file = none
  | _ => True

/-- After the boot of the device: no process yet, and of those before it only the
lock file and the socket file can be left. -/
structure Boots (s : Host) : Prop where
  phase : ∀ p, s.phase p = .unborn ∨ s.phase p = .gone
  holder : ∀ f, s.holder f = none
  probes : ∀ p, s.probes p = false
  sock : ∀ p, s.sock = some p → s.phase p = .gone

end Host

def host : System Host HostEvent := .ofNext Host.Boots Host.next

/-! ## What every step keeps -/

/-- What is shared fits how far a process has got. -/
inductive Host.Fits (s : Host) (p : ProcId) : ProcPhase → Prop
  | unborn (hprobes : s.probes p = false) (hsock : s.sock ≠ some p) : Fits s p .unborn
  | started (hprobes : s.probes p = false) (hsock : s.sock ≠ some p) : Fits s p .started
  | opened {f : Nat} (hprobes : s.probes p = false) (hsock : s.sock ≠ some p)
      (hfile : s.lockFile = some f) : Fits s p (.opened f)
  | locked {f : Nat} (hprobes : s.probes p = false) (hsock : s.sock ≠ some p)
      (hfile : s.lockFile = some f) (hholder : s.holder f = some p) : Fits s p (.locked f)
  | gated {f : Nat} (hprobes : s.probes p = true) (hsock : s.sock ≠ some p)
      (hfile : s.lockFile = some f) (hholder : s.holder f = some p) : Fits s p (.gated f)
  | cleared {f : Nat} (hprobes : s.probes p = true) (hsock : s.sock = none)
      (hfile : s.lockFile = some f) (hholder : s.holder f = some p) : Fits s p (.cleared f)
  | serving {f : Nat} (hprobes : s.probes p = true) (hsock : s.sock = some p)
      (hfile : s.lockFile = some f) (hholder : s.holder f = some p) : Fits s p (.serving f)
  | ending {f : Nat} : Fits s p (.ending f)
  | gone (hprobes : s.probes p = false) : Fits s p .gone

/-- The invariant of the processes of a device. -/
def Host.Sound (s : Host) : Prop := ∀ p, s.Fits p (s.phase p)

section Steps

variable {s s' : Host} {p q : ProcId} {f f' : Nat} {phase : ProcPhase}

theorem Host.Fits.lockFile (h : s.Fits p phase) (hfile : phase.file = some f) :
    s.lockFile = some f := by
  cases h with
  | opened _ _ h => exact h.trans hfile
  | locked _ _ h => exact h.trans hfile
  | gated _ _ h => exact h.trans hfile
  | cleared _ _ h => exact h.trans hfile
  | serving _ _ h => exact h.trans hfile
  | _ => cases hfile

/-- A process with a lock has the lock of the file the path leads to. -/
theorem Host.Fits.holder (h : s.Fits p phase) (hlock : phase.lock = some f) :
    s.lockFile = some f ∧ s.holder f = some p := by
  cases h with
  | locked _ _ h h' => exact Option.some.inj hlock ▸ ⟨h, h'⟩
  | gated _ _ h h' => exact Option.some.inj hlock ▸ ⟨h, h'⟩
  | cleared _ _ h h' => exact Option.some.inj hlock ▸ ⟨h, h'⟩
  | serving _ _ h h' => exact Option.some.inj hlock ▸ ⟨h, h'⟩
  | _ => cases hlock

/-- **At most one process has the lock.** -/
theorem Host.Sound.eq_of_lock (h : s.Sound) (hp : (s.phase p).lock = some f)
    (hq : (s.phase q).lock = some f') : p = q := by
  obtain ⟨hfile, hholder⟩ := (h p).holder hp
  obtain ⟨hfile', hholder'⟩ := (h q).holder hq
  obtain rfl := Option.some.inj (hfile.symm.trans hfile')
  exact Option.some.inj (hholder.symm.trans hholder')

/-- A step that leaves the socket alone and takes nothing from a process. -/
theorem Host.Fits.frame (h : s.Fits q phase) (hprobes : s'.probes q = s.probes q)
    (hsock : s'.sock = s.sock)
    (hfile : ∀ f, phase.file = some f → s.lockFile = some f → s'.lockFile = some f)
    (hholder : ∀ f, s.holder f = some q → s'.holder f = some q) : s'.Fits q phase := by
  cases h with
  | unborn hoff hno => exact .unborn (hprobes.trans hoff) (hsock ▸ hno)
  | started hoff hno => exact .started (hprobes.trans hoff) (hsock ▸ hno)
  | opened hoff hno hf => exact .opened (hprobes.trans hoff) (hsock ▸ hno) (hfile _ rfl hf)
  | locked hoff hno hf hh =>
      exact .locked (hprobes.trans hoff) (hsock ▸ hno) (hfile _ rfl hf) (hholder _ hh)
  | gated hon hno hf hh =>
      exact .gated (hprobes.trans hon) (hsock ▸ hno) (hfile _ rfl hf) (hholder _ hh)
  | cleared hon hnone hf hh =>
      exact .cleared (hprobes.trans hon) (hsock.trans hnone) (hfile _ rfl hf) (hholder _ hh)
  | serving hon hown hf hh =>
      exact .serving (hprobes.trans hon) (hsock.trans hown) (hfile _ rfl hf) (hholder _ hh)
  | ending => exact .ending
  | gone hoff => exact .gone (hprobes.trans hoff)

/-- A step of the process with the lock that changes the socket. -/
theorem Host.Fits.of_unlocked (h : s.Fits q phase) (hlock : phase.lock = none)
    (hprobes : s'.probes q = s.probes q) (hsock : s'.sock ≠ some q)
    (hfile : s'.lockFile = s.lockFile) : s'.Fits q phase := by
  cases h with
  | unborn hoff _ => exact .unborn (hprobes.trans hoff) hsock
  | started hoff _ => exact .started (hprobes.trans hoff) hsock
  | opened hoff _ hf => exact .opened (hprobes.trans hoff) hsock (hfile.trans hf)
  | ending => exact .ending
  | gone hoff => exact .gone (hprobes.trans hoff)
  | _ => cases hlock

/-- The process that moves fits its new phase, and so do all others. -/
theorem sound_setPhase (hphase : s'.phase = Function.update s.phase p phase)
    (hown : s'.Fits p phase) (hothers : ∀ q, q ≠ p → s'.Fits q (s.phase q)) : s'.Sound := by
  intro q
  rw [hphase]
  by_cases hq : q = p
  · subst hq
    rw [Function.update_self]
    exact hown
  · rw [Function.update_of_ne hq]
    exact hothers q hq

/-- A process moves, leaves the socket alone and takes nothing from another. -/
theorem Host.Sound.move (h : s.Sound) (hphase : s'.phase = Function.update s.phase p phase)
    (hown : s'.Fits p phase) (hsock : s'.sock = s.sock)
    (hprobes : ∀ q, q ≠ p → s'.probes q = s.probes q)
    (hfile : ∀ f, s.lockFile = some f → s'.lockFile = some f)
    (hholder : ∀ f q, q ≠ p → s.holder f = some q → s'.holder f = some q) : s'.Sound :=
  sound_setPhase hphase hown fun q hq =>
    (h q).frame (hprobes q hq) hsock (fun f _ => hfile f) fun f => hholder f q hq

/-- A process moves and nothing else changes. -/
theorem Host.Sound.goto (h : s.Sound) (hown : (s.setPhase p phase).Fits p phase) :
    (s.setPhase p phase).Sound :=
  h.move rfl hown rfl (fun _ _ => rfl) (fun _ hf => hf) fun _ _ _ hh => hh

/-- The process with the lock moves and changes the socket. -/
theorem Host.Sound.resock (h : s.Sound) (hlock : (s.phase p).lock = some f)
    (hphase : s'.phase = Function.update s.phase p phase) (hown : s'.Fits p phase)
    (hsock : ∀ q, q ≠ p → s'.sock ≠ some q) (hprobes : s'.probes = s.probes)
    (hfile : s'.lockFile = s.lockFile) : s'.Sound := by
  refine sound_setPhase hphase hown fun q hq => ?_
  have hnone : (s.phase q).lock = none := by
    cases hlock' : (s.phase q).lock with
    | none => rfl
    | some f' => exact absurd (h.eq_of_lock hlock' hlock) hq
  exact (h q).of_unlocked hnone (congrFun hprobes q) (hsock q hq) hfile

/-! ## Event by event -/

theorem Host.Sound.start (h : s.Sound) (hnext : s.next (.start p) = some s') : s'.Sound := by
  have hfits := h p
  simp only [Host.next] at hnext
  split_ifs at hnext with hphase
  obtain rfl := Option.some.inj hnext
  rw [hphase] at hfits
  cases hfits with
  | unborn hoff hno => exact h.goto (.started hoff hno)

theorem Host.Sound.openLock (h : s.Sound) (hnext : s.next (.openLock p) = some s') : s'.Sound := by
  have hfits := h p
  simp only [Host.next] at hnext
  split_ifs at hnext with hphase
  obtain rfl := Option.some.inj hnext
  rw [hphase] at hfits
  cases hfits with
  | started hoff hno =>
      refine h.move rfl (.opened hoff hno rfl) rfl (fun _ _ => rfl) (fun f hf => ?_)
        fun _ _ _ hh => hh
      -- a file that is there is opened, not created
      exact congrArg some (by rw [hf]; rfl)

/-- The lock is taken from nobody. -/
theorem Host.Sound.flock (h : s.Sound) (hnext : s.next (.flock p) = some s') : s'.Sound := by
  have hfits := h p
  simp only [Host.next] at hnext
  cases hphase : s.phase p with
  | opened f =>
      rw [hphase] at hnext hfits
      dsimp only at hnext
      cases hfits with
      | opened hoff hno hf =>
          split_ifs at hnext with hfree
          · obtain rfl := Option.some.inj hnext
            refine h.move rfl (.locked hoff hno hf (Function.update_self ..)) rfl (fun _ _ => rfl)
              (fun _ hf => hf) fun f' q _ hh => ?_
            rw [← hh]
            refine Function.update_of_ne ?_ _ _
            rintro rfl
            rw [hfree] at hh
            cases hh
          · obtain rfl := Option.some.inj hnext
            exact h.goto (.gone hoff)
  | _ =>
      rw [hphase] at hnext
      cases hnext

theorem Host.Sound.attach (h : s.Sound) (hnext : s.next (.attach p) = some s') : s'.Sound := by
  have hfits := h p
  simp only [Host.next] at hnext
  cases hphase : s.phase p with
  | locked f =>
      rw [hphase] at hnext hfits
      obtain rfl := Option.some.inj hnext
      cases hfits with
      | locked hoff hno hf hh =>
          exact h.move rfl (.gated (Function.update_self ..) hno hf hh) rfl
            (fun q hq => Function.update_of_ne hq ..) (fun _ hf => hf) fun _ _ _ hh => hh
  | _ =>
      rw [hphase] at hnext
      cases hnext

theorem Host.Sound.removeSocket (h : s.Sound) (hnext : s.next (.removeSocket p) = some s') :
    s'.Sound := by
  have hfits := h p
  simp only [Host.next] at hnext
  cases hphase : s.phase p with
  | gated f =>
      have hlock : (s.phase p).lock = some f := by rw [hphase]; rfl
      rw [hphase] at hnext hfits
      obtain rfl := Option.some.inj hnext
      cases hfits with
      | gated hon hno hf hh => exact h.resock hlock rfl (.cleared hon rfl hf hh) (by simp) rfl rfl
  | _ =>
      rw [hphase] at hnext
      cases hnext

theorem Host.Sound.bind (h : s.Sound) (hnext : s.next (.bind p) = some s') : s'.Sound := by
  have hfits := h p
  simp only [Host.next] at hnext
  cases hphase : s.phase p with
  | cleared f =>
      have hlock : (s.phase p).lock = some f := by rw [hphase]; rfl
      rw [hphase] at hnext hfits
      dsimp only at hnext
      cases hfits with
      | cleared hon hnone hf hh =>
          rw [if_pos hnone] at hnext
          obtain rfl := Option.some.inj hnext
          exact h.resock hlock rfl (.serving hon rfl hf hh)
            (fun q hq heq => hq (Option.some.inj heq).symm) rfl rfl
  | _ =>
      rw [hphase] at hnext
      cases hnext

/-- A process stops anywhere. -/
theorem Host.Sound.stop (h : s.Sound) (hstop : s.stop p = some s') : s'.Sound := by
  have hfits := h p
  unfold Host.stop at hstop
  cases hphase : s.phase p with
  | started =>
      rw [hphase] at hstop hfits
      obtain rfl := Option.some.inj hstop
      cases hfits with
      | started hoff _ => exact h.goto (.gone hoff)
  | opened f =>
      rw [hphase] at hstop hfits
      obtain rfl := Option.some.inj hstop
      cases hfits with
      | opened hoff _ _ => exact h.goto (.gone hoff)
  | locked f =>
      rw [hphase] at hstop
      exact Option.some.inj hstop ▸ h.goto .ending
  | gated f =>
      rw [hphase] at hstop
      exact Option.some.inj hstop ▸ h.goto .ending
  | cleared f =>
      rw [hphase] at hstop
      exact Option.some.inj hstop ▸ h.goto .ending
  | serving f =>
      rw [hphase] at hstop
      exact Option.some.inj hstop ▸ h.goto .ending
  | _ =>
      rw [hphase] at hstop
      cases hstop

/-- A process on its way out needs neither its lock nor its probes. -/
theorem Host.Sound.release (h : s.Sound) (hends : (s.phase p).ends = true)
    (hphase : s'.phase = s.phase) (hsock : s'.sock = s.sock) (hfile : s'.lockFile = s.lockFile)
    (hprobes : ∀ q, q ≠ p → s'.probes q = s.probes q)
    (hholder : ∀ f q, q ≠ p → s.holder f = some q → s'.holder f = some q) : s'.Sound := by
  intro q
  rw [hphase]
  by_cases hq : q = p
  · subst hq
    cases hends' : s.phase q with
    | ending f => exact .ending
    | _ =>
        rw [hends'] at hends
        cases hends
  · exact (h q).frame (hprobes q hq) hsock (fun f _ hf => hfile.trans hf) fun f => hholder f q hq

theorem Host.Sound.unlock (h : s.Sound) (hnext : s.next (.unlock p) = some s') : s'.Sound := by
  simp only [Host.next] at hnext
  cases hphase : s.phase p with
  | ending f =>
      rw [hphase] at hnext
      dsimp only at hnext
      split_ifs at hnext with hown
      obtain rfl := Option.some.inj hnext
      refine h.release (by rw [hphase]; rfl) rfl rfl rfl (fun _ _ => rfl) fun f' q hq hh => ?_
      rw [← hh]
      refine Function.update_of_ne ?_ _ _
      rintro rfl
      exact hq (Option.some.inj (hh.symm.trans hown))
  | _ =>
      rw [hphase] at hnext
      cases hnext

theorem Host.Sound.detach (h : s.Sound) (hnext : s.next (.detach p) = some s') : s'.Sound := by
  simp only [Host.next] at hnext
  split_ifs at hnext with hends
  obtain rfl := Option.some.inj hnext
  exact h.release hends rfl rfl rfl (fun q hq => Function.update_of_ne hq ..) fun _ _ _ hh => hh

theorem Host.Sound.reap (h : s.Sound) (hnext : s.next (.reap p) = some s') : s'.Sound := by
  simp only [Host.next] at hnext
  cases hphase : s.phase p with
  | ending f =>
      rw [hphase] at hnext
      dsimp only at hnext
      split_ifs at hnext with hheld
      obtain rfl := Option.some.inj hnext
      have hoff : s.probes p = false := by
        simpa using fun hon => hheld (.inr hon)
      exact h.goto (.gone hoff)
  | _ =>
      rw [hphase] at hnext
      cases hnext

/-- A careful wipe finds no process with a lock file. -/
theorem Host.Sound.wipe (h : s.Sound) (hcond : s.Careful .wipe) :
    Host.Sound { s with lockFile := none } := by
  intro q
  refine (h q).frame rfl rfl (fun f hf _ => ?_) fun _ hh => hh
  have hnone : (s.phase q).file = none := hcond q
  rw [hnone] at hf
  cases hf

/-- **Every step keeps it.** -/
theorem Host.Sound.next (h : s.Sound) {event : HostEvent} (hcond : s.Careful event)
    (hnext : s.next event = some s') : s'.Sound := by
  cases event with
  | start p => exact h.start hnext
  | openLock p => exact h.openLock hnext
  | flock p => exact h.flock hnext
  | attach p => exact h.attach hnext
  | removeSocket p => exact h.removeSocket hnext
  | bind p => exact h.bind hnext
  | stop p => exact h.stop hnext
  | unlock p => exact h.unlock hnext
  | detach p => exact h.detach hnext
  | reap p => exact h.reap hnext
  | wipe => exact Option.some.inj hnext ▸ h.wipe hcond

/-- The invariant of all runs. -/
theorem sound_of_reachableWhen (hs : host.ReachableWhen Host.Careful s) : s.Sound := by
  refine System.ReachableWhen.invariant (?_ : ∀ s, host.init s → s.Sound)
    (fun s event s' h hcond hnext => h.next hcond hnext) hs
  intro s hboot p
  rcases hboot.phase p with hphase | hphase
  · rw [hphase]
    refine .unborn (hboot.probes p) fun hsock => ?_
    rw [hboot.sock p hsock] at hphase
    cases hphase
  · rw [hphase]
    exact .gone (hboot.probes p)

/-- A process whose probes are attached has started its gate, or is on its way out. -/
theorem Host.Fits.lock_of_probes (h : s.Fits p phase) (hprobes : s.probes p = true) :
    phase.ends = true ∨ ∃ f, phase.lock = some f := by
  cases h with
  | gated => exact .inr ⟨_, rfl⟩
  | cleared => exact .inr ⟨_, rfl⟩
  | serving => exact .inr ⟨_, rfl⟩
  | ending => exact .inl rfl
  | unborn hoff _ => exact absurd (hprobes.symm.trans hoff) (by simp)
  | started hoff _ => exact absurd (hprobes.symm.trans hoff) (by simp)
  | opened hoff _ _ => exact absurd (hprobes.symm.trans hoff) (by simp)
  | locked hoff _ _ _ => exact absurd (hprobes.symm.trans hoff) (by simp)
  | gone hoff => exact absurd (hprobes.symm.trans hoff) (by simp)

/-- A running process the socket leads to serves. -/
theorem Host.Fits.serves_of_sock (h : s.Fits p phase) (hsock : s.sock = some p)
    (hruns : phase.file ≠ none) : s.probes p = true ∧ ∃ f, phase.lock = some f := by
  cases h with
  | serving hon _ _ _ => exact ⟨hon, _, rfl⟩
  | opened _ hno _ => exact absurd hsock hno
  | locked _ hno _ _ => exact absurd hsock hno
  | gated _ hno _ _ => exact absurd hsock hno
  | cleared _ hnone _ _ => exact absurd (hnone.symm.trans hsock) (by simp)
  | _ => exact absurd rfl hruns

/-- There is one daemon at a time. -/
structure Host.OneDaemon (s : Host) : Prop where
  /-- At most one process has got past the lock. -/
  alone : ∀ p q f f', (s.phase p).lock = some f → (s.phase q).lock = some f' → p = q
  /-- Two sets of probes are attached only while one process is on its way out. -/
  probes : ∀ p q, s.probes p = true → s.probes q = true →
    p = q ∨ (s.phase p).ends = true ∨ (s.phase q).ends = true
  /-- The socket leads to the daemon that serves. -/
  reaches : ∀ p f, s.phase p = .serving f → s.sock = some p
  /-- A running process it leads to has its probes attached, and nobody else who
  stays has. -/
  answers : ∀ p, s.sock = some p → (s.phase p).file ≠ none → s.probes p = true ∧
    ∀ q, q ≠ p → s.probes q = true → (s.phase q).ends = true

/-- **Only one daemon**, in whatever order processes start, proceed and end. -/
theorem oneDaemon_of_reachable (hs : host.ReachableWhen Host.Careful s) : s.OneDaemon := by
  have h := sound_of_reachableWhen hs
  refine ⟨fun p q f f' => h.eq_of_lock, fun p q hp hq => ?_, fun p f hphase => ?_,
    fun p hsock hruns => ?_⟩
  · rcases (h p).lock_of_probes hp with hends | ⟨f, hlock⟩
    · exact .inr (.inl hends)
    · rcases (h q).lock_of_probes hq with hends' | ⟨f', hlock'⟩
      · exact .inr (.inr hends')
      · exact .inl (h.eq_of_lock hlock hlock')
  · have hfits := h p
    rw [hphase] at hfits
    cases hfits with
    | serving _ hsock _ _ => exact hsock
  · obtain ⟨hprobes, f, hlock⟩ := (h p).serves_of_sock hsock hruns
    refine ⟨hprobes, fun q hq hq' => ?_⟩
    rcases (h q).lock_of_probes hq' with hends | ⟨f', hlock'⟩
    · exact hends
    · exact absurd (h.eq_of_lock hlock' hlock) hq

/-- A run without a wipe is a careful one. -/
theorem reachableWhen_runFrom {events : List HostEvent} (hwipe : .wipe ∉ events)
    (hs : host.ReachableWhen Host.Careful s) (hrun : runFrom Host.next events s = some s') :
    host.ReachableWhen Host.Careful s' := by
  induction events generalizing s with
  | nil => exact Option.some.inj hrun ▸ hs
  | cons event events ih =>
      obtain ⟨mid, hmid, hrest⟩ := Option.bind_eq_some_iff.mp hrun
      have hcond : s.Careful event := by
        cases event with
        | wipe => exact absurd List.mem_cons_self hwipe
        | _ => trivial
      exact ih (fun hmem => hwipe (List.mem_cons_of_mem _ hmem)) (.step hs hcond hmid) hrest

end Steps

/-- A device that has just booted. -/
def booted : Host := ⟨fun _ => .unborn, none, 0, fun _ => none, fun _ => false, none⟩

theorem boots_booted : booted.Boots where
  phase _ := .inl rfl
  holder _ := rfl
  probes _ := rfl
  sock _ hsock := nomatch hsock

/-- The second of two daemons exits; when the first is killed, its lock is given
up before its probes are, and a third daemon attaches its own. -/
def restartedRun : List HostEvent :=
  [.start 1, .start 2, .openLock 2, .openLock 1, .flock 1, .flock 2, .attach 1, .removeSocket 1,
    .bind 1, .start 3, .openLock 3, .stop 1, .unlock 1, .flock 3, .attach 3]

theorem oneDaemon_of_reachable_restartedRun : ∃ s, runFrom Host.next restartedRun booted = some s ∧
    s.probes 1 = true ∧ s.probes 3 = true ∧ s.OneDaemon := by
  have hrun : (runFrom Host.next restartedRun booted).map (fun s => (s.probes 1, s.probes 3)) =
      some (true, true) := by decide +kernel
  obtain ⟨s, hs, hprobes⟩ := Option.map_eq_some_iff.mp hrun
  obtain ⟨hone, hthree⟩ := Prod.mk.inj hprobes
  exact ⟨s, hs, hone, hthree, oneDaemon_of_reachable
    (reachableWhen_runFrom (by simp [restartedRun]) (.init boots_booted) hs)⟩

/-- Without the care a wipe under a running daemon lets a second one in. -/
example : (runFrom Host.next [.start 1, .openLock 1, .flock 1, .attach 1, .wipe, .start 2,
    .openLock 2, .flock 2, .attach 2] booted).map
      (fun s => ((s.phase 1).hasGate, (s.phase 2).hasGate)) = some (true, true) := by
  decide +kernel

end Ningshi
