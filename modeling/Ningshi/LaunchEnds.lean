import Ningshi.KillerEnds

/-!
# `gate.rs`: a process that has been caught does not get away

The killer thread lets go of a process it has pinned when the process has exited,
when it has been killed, and when one of the checks before the kill fails: its
`oom_score_adj` cannot be read, its uid is not on the block list any more, or it goes
by another name.

`launch_ends` says that nothing else saves it.  As long as the checks hold, it is
signalled or has exited when its entry is closed, in whatever order threads and
processes take their steps; and this is so at the end of the first pass that begins
300 ms after it was pinned.
-/

namespace Ningshi

open Std SwapRemove Transition

namespace Killer

/-- A signal has been delivered for the entry, or the process it pins is gone. -/
def Ended (p : PendingKill) (pinned : Pidfd) (k : Killer) : Prop :=
  .signalled p.msg p.pidfd true ∈ k.trace ∨ pidfdSendSignal k.table pinned = false

end Killer

/-- The thread looks up what the process of the entry is called. -/
def KillerPhase.identifies (p : PendingKill) : KillerPhase → Bool
  | .identifying _ q => q = p
  | _ => false

/-- The thread reads the `oom_score_adj` of the process. -/
def KillerPhase.reads (p : PendingKill) : KillerPhase → Bool
  | .reading _ q => q = p
  | _ => false

/-- The uid of the entry is on the block list, and its process goes by a name that
is blocked for the uid, or by none.  While the process runs its `oom_score_adj` can be
read. -/
def ChecksHold (p : PendingKill) (k : Killer) : KillerStep → Prop
  | .advance ans => p.msg.uid ∈ k.gate.mirror ∧
      (k.phase.identifies p = true →
        (identityOk k.gate.identity ans.cmdline p.msg.uid).1 = true) ∧
      (k.phase.reads p = true → k.readable p.pidfd = false →
        k.readOomScoreAdj p.msg.pid ans ≠ none)
  | _ => True

instance (p : PendingKill) (k : Killer) : (step : KillerStep) → Decidable (ChecksHold p k step)
  | .advance _ => inferInstanceAs (Decidable (_ ∧ (_ → _) ∧ (_ → _ → _)))
  | .send _ _ => .isTrue trivial
  | .dropSender => .isTrue trivial
  | .kernel _ _ => .isTrue trivial
  | .mirror => .isTrue trivial
  | .setBlockIndex _ => .isTrue trivial
  | .exit _ => .isTrue trivial
  | .spawn _ _ => .isTrue trivial
  | .wait _ => .isTrue trivial

namespace Killer

section Steps

variable {k k' : Killer} {ans : Answers} {step : KillerStep} {p : PendingKill} {pinned : Pidfd}

/-! ## The processes -/

/-- The thread starts no process and ends none by itself. -/
theorem table_advanced (h : Advanced k ans k') : k'.table = k.table ∧ k'.serial = k.serial := by
  cases h <;> exact ⟨rfl, rfl⟩

theorem serial_next (hstep : k.next step = some k') : k.serial ≤ k'.serial := by
  cases step with
  | advance ans => exact (table_advanced (advance_cases hstep)).2.ge
  | mirror =>
      obtain ⟨update, -, rfl⟩ := Option.map_eq_some_iff.mp hstep
      exact Nat.le_refl _
  | wait ms =>
      obtain rfl := Option.some.inj hstep
      exact Nat.le_refl _
  | spawn pid uid =>
      simp only [next] at hstep
      split_ifs at hstep
      obtain rfl := Option.some.inj hstep
      exact Nat.le_succ _
  | _ =>
      simp only [next] at hstep
      split_ifs at hstep
      obtain rfl := Option.some.inj hstep
      exact Nat.le_refl _

/-- A process that runs after a step ran before it, or is the next new one. -/
theorem table_next (hstep : k.next step = some k') {pid : Int} {proc : Proc}
    (h : k'.table[pid]? = some proc) :
    k.table[pid]? = some proc ∨ proc.serial = k.serial ∧ k'.serial = k.serial + 1 := by
  cases step with
  | advance ans => exact .inl ((table_advanced (advance_cases hstep)).1 ▸ h)
  | mirror =>
      obtain ⟨update, -, rfl⟩ := Option.map_eq_some_iff.mp hstep
      exact .inl h
  | wait ms =>
      obtain rfl := Option.some.inj hstep
      exact .inl h
  | exit exited =>
      simp only [next] at hstep
      split_ifs at hstep
      obtain rfl := Option.some.inj hstep
      rw [ExtTreeMap.getElem?_erase] at h
      split_ifs at h
      exact .inl h
  | spawn started uid =>
      simp only [next] at hstep
      split_ifs at hstep
      obtain rfl := Option.some.inj hstep
      rw [ExtTreeMap.getElem?_insert] at h
      split_ifs at h
      · obtain rfl := Option.some.inj h
        exact .inr ⟨rfl, rfl⟩
      · exact .inl h
  | _ =>
      simp only [next] at hstep
      split_ifs at hstep
      obtain rfl := Option.some.inj hstep
      exact .inl h

/-- A process that is gone does not come back. -/
theorem sendSignal_next (hstep : k.next step = some k') (hold : pinned.proc.serial < k.serial)
    (hgone : pidfdSendSignal k.table pinned = false) :
    pidfdSendSignal k'.table pinned = false := by
  rw [pidfdSendSignal, decide_eq_false_iff_not] at hgone ⊢
  intro h
  rcases table_next hstep h with hbefore | ⟨hnew, -⟩
  · exact hgone hbefore
  · exact absurd hnew hold.ne

/-- What has been done stays done. -/
theorem mem_trace_next (hstep : k.next step = some k') {act : Act} (h : act ∈ k.trace) :
    act ∈ k'.trace := by
  rcases next_cases hstep with ⟨ans, -, hadvanced⟩ | ⟨pid, uid, rfl⟩ | hsame
  · have hmem (added : List Act) : act ∈ added ++ k.trace := List.mem_append_right added h
    cases hadvanced with
    | goesOn => exact h
    | receive => exact h
    | disconnect => exact h
    | finish => exact h
    | pin => exact hmem [_]
    | exited => exact hmem [_, _]
    | look => exact hmem [_]
    | gone => exact hmem [_]
    | passed => exact hmem [_]
    | unblocked => exact hmem [_, _]
    | misnamed => exact hmem [_]
    | kill => exact hmem [_, _]
    | count => exact hmem [_]
    | shutdownKill => exact hmem [_, _]
    | shutdownCount => exact hmem [_]
  · exact List.mem_cons_of_mem _ h
  · rw [hsame.trace]
    exact h

theorem Ended.next (h : Ended p pinned k) (hold : pinned.proc.serial < k.serial)
    (hstep : k.next step = some k') : Ended p pinned k' :=
  h.imp (mem_trace_next hstep) (sendSignal_next hstep hold)

/-! ## The descriptors -/

/-- A descriptor that is open after a step was open before it, or has just pinned
the process of the message that is being handled. -/
theorem fds_advanced (h : Advanced k ans k') {fd : Nat} (hfd : k'.fds[fd]? = some pinned) :
    k.fds[fd]? = some pinned ∨ ∃ msg, Ningshi.pidfdOpen k.table msg.pid.toNat = some pinned ∧
      fd ∉ k.fds ∧ k'.live = k.live ++ [⟨fd, msg, k.clock⟩] := by
  have hclosed {closed : Nat} (hfds : k'.fds = k.fds.erase closed) : k.fds[fd]? = some pinned := by
    rw [hfds, ExtTreeMap.getElem?_erase] at hfd
    split_ifs at hfd
    exact hfd
  cases h with
  | @pin msg opened _ hphase hopen hfree =>
      have hlive : k.live = k.pending := live_eq_pending hphase (by simp)
      have hinserted : (k.fds.insert opened _)[fd]? = some pinned := hfd
      rw [ExtTreeMap.getElem?_insert] at hinserted
      split_ifs at hinserted with heq
      · obtain rfl := Std.compare_eq_iff_eq.mp heq
        exact .inr ⟨msg, hopen.trans hinserted, hfree, hlive ▸ rfl⟩
      · exact .inl hinserted
  | exited => exact .inl (hclosed rfl)
  | gone => exact .inl (hclosed rfl)
  | unblocked => exact .inl (hclosed rfl)
  | misnamed => exact .inl (hclosed rfl)
  | kill => exact .inl (hclosed rfl)
  | shutdownKill => exact .inl (hclosed rfl)
  | goesOn => exact .inl hfd
  | receive => exact .inl hfd
  | disconnect => exact .inl hfd
  | look => exact .inl hfd
  | passed => exact .inl hfd
  | count => exact .inl hfd
  | shutdownCount => exact .inl hfd
  | finish => exact .inl hfd

/-- The entries after a step were there before it, or have a descriptor that was free. -/
theorem mem_live_of_effect (h : Effect k ans k') (hp : p ∈ k'.live) :
    p ∈ k.live ∨ p.pidfd ∉ k.fds := by
  cases h with
  | keeps _ _ _ hlive => exact .inl (hlive.mem_iff.mp hp)
  | opens _ hfree _ hlive =>
      rcases List.mem_cons.mp (hlive.mem_iff.mp hp) with rfl | hmem
      · exact .inr hfree
      · exact .inl hmem
  | ends _ _ _ hlive => exact .inl (hlive.mem_iff.mpr (List.mem_cons_of_mem _ hp))

/-- What a run keeps about the processes and the descriptors. -/
structure Pins (k : Killer) : Prop where
  running : ∀ (pid : Int) (proc : Proc), k.table[pid]? = some proc → proc.serial < k.serial
  pinned : ∀ p ∈ k.live, ∀ pinned, k.fds[p.pidfd]? = some pinned →
    pinned.pid = p.msg.pid.toNat ∧ pinned.proc.serial < k.serial

theorem running_next (hk : Pins k) (hstep : k.next step = some k') :
    ∀ (pid : Int) (proc : Proc), k'.table[pid]? = some proc → proc.serial < k'.serial := by
  intro pid proc h
  rcases table_next hstep h with hbefore | ⟨hnew, hserial⟩
  · exact (hk.running pid proc hbefore).trans_le (serial_next hstep)
  · rw [hnew, hserial]
    exact Nat.lt_succ_self _

theorem pinned_advance {l : Ledger} (hk : Pins k) (haccounted : Accounted k l)
    (hplace : OnePlace k) (hstep : k.advance ans = some k') (hp : p ∈ k'.live)
    (hfd : k'.fds[p.pidfd]? = some pinned) :
    pinned.pid = p.msg.pid.toNat ∧ pinned.proc.serial < k.serial := by
  rcases fds_advanced (advance_cases hstep) hfd with hopen | ⟨msg, hopen, hfree, hlive⟩
  · rcases mem_live_of_effect (effect_advance hplace hstep) hp with hbefore | hfree
    · exact hk.pinned p hbefore pinned hopen
    · exact absurd (ExtTreeMap.mem_iff_isSome_getElem?.mpr (hopen ▸ rfl)) hfree
  · rw [hlive, List.mem_append, List.mem_singleton] at hp
    rcases hp with hbefore | hnew
    · exact absurd ((haccounted.fds _).mpr ⟨p, hbefore, rfl⟩) hfree
    · obtain ⟨proc, hproc, rfl⟩ := Option.map_eq_some_iff.mp hopen
      have hmsg : p.msg = msg := congrArg PendingKill.msg hnew
      exact ⟨hmsg ▸ rfl, hk.running _ proc hproc⟩

end Steps

/-- In every run. -/
theorem pins_of_audited {s : Killer × Ledger} (hs : auditedKiller.Reachable s) : s.1.Pins := by
  induction hs with
  | init hinit =>
      refine ⟨hinit.1.running, fun p _ pinned hfd => ?_⟩
      rw [hinit.1.fds] at hfd
      simp at hfd
  | @step s s' step hrun _ hstep ih =>
      obtain ⟨k, hk, rfl⟩ := Option.map_eq_some_iff.mp hstep
      refine ⟨running_next ih hk, fun p hp pinned hfd => ?_⟩
      rcases next_cases hk with ⟨ans, rfl, -⟩ | ⟨pid, uid, rfl⟩ | hsame
      · obtain ⟨hpid, hold⟩ := pinned_advance ih (accounted_of_reachable hrun)
          (onePlace_of_reachable (killerThread_of_audited hrun)) hk hp hfd
        exact ⟨hpid, hold.trans_le (serial_next hk)⟩
      · exact ih.pinned p hp pinned hfd
      · have hlive : k.live = s.1.live := by rw [live, live, hsame.phase, hsame.pending]
        obtain ⟨hpid, hold⟩ := ih.pinned p (hlive ▸ hp) pinned (hsame.fds ▸ hfd)
        exact ⟨hpid, hold.trans_le (serial_next hk)⟩

/-! ## What becomes of an entry -/

/-- The entry is live, with its process, or it has ended well. -/
structure Stands (p : PendingKill) (pinned : Pidfd) (k : Killer) : Prop where
  old : pinned.proc.serial < k.serial
  stands : p ∈ k.live ∧ k.fds[p.pidfd]? = some pinned ∨ Ended p pinned k

section Stands

variable {k k' : Killer} {ans : Answers} {step : KillerStep} {p : PendingKill} {pinned : Pidfd}

theorem ended_of_kill {mid : Killer} (htable : mid.table = k.table) (hfds : mid.fds = k.fds)
    (phase : KillerPhase) (hfd : k.fds[p.pidfd]? = some pinned) :
    Ended p pinned ((mid.pidfdKill p.msg p.pidfd).goto phase) := by
  have hsent : (mid.fds[p.pidfd]?).any (pidfdSendSignal mid.table) =
      pidfdSendSignal k.table pinned := by
    rw [hfds, hfd, htable, Option.any_some]
  cases halive : pidfdSendSignal k.table pinned with
  | true =>
      refine .inl (List.mem_cons_of_mem _ ?_)
      rw [halive] at hsent
      exact hsent ▸ List.mem_cons_self
  | false => exact .inr (htable ▸ halive)

/-- **An entry ends well** when the checks hold. -/
theorem ended_of_fate {fate : Fate} (hfate : k.fate ans = some (p, fate))
    (hpid : pinned.pid = p.msg.pid.toNat) (hfd : k.fds[p.pidfd]? = some pinned)
    (hchecks : ChecksHold p k (.advance ans)) (hstep : Advanced k ans k') :
    Ended p pinned k' := by
  obtain ⟨hlisted, hidentified, hread⟩ := hchecks
  cases hstep with
  | @exited i q hphase hentry hexited =>
      simp only [Killer.fate, hphase, hentry, Option.filter_some, hexited, if_true,
        Option.map_some, Option.some.injEq, Prod.mk.injEq] at hfate
      obtain rfl := hfate.1
      refine .inr ?_
      rw [readable, hfd, Option.any_some, Bool.not_eq_true'] at hexited
      exact hexited
  | @gone i q hphase hunread =>
      simp only [Killer.fate, hphase, hunread, Option.isSome_none, Bool.false_eq_true, if_false,
        Option.some.injEq, Prod.mk.injEq] at hfate
      obtain rfl := hfate.1
      refine .inr ?_
      cases hexited : k.readable q.pidfd with
      | true =>
          rw [readable, hfd, Option.any_some, Bool.not_eq_true'] at hexited
          exact hexited
      | false =>
          exact absurd hunread (hread (by simp [hphase, KillerPhase.reads]) hexited)
  | @unblocked i q hphase hfound =>
      simp only [Killer.fate, hphase, if_neg hfound, Option.some.injEq, Prod.mk.injEq] at hfate
      obtain rfl := hfate.1
      exact absurd hlisted hfound
  | @misnamed i q hphase hother =>
      simp only [Killer.fate, hphase, hother, Bool.false_eq_true, if_false, Option.some.injEq,
        Prod.mk.injEq] at hfate
      obtain rfl := hfate.1
      exact absurd ((hidentified (by simp [hphase, KillerPhase.identifies])).symm.trans hother)
        (by simp)
  | @kill i q hphase =>
      simp only [Killer.fate, hphase, Option.some.injEq, Prod.mk.injEq] at hfate
      obtain rfl := hfate.1
      exact ended_of_kill rfl rfl _ hfd
  | @shutdownKill q rest hphase hpending =>
      simp only [Killer.fate, hphase, hpending, List.head?_cons, Option.map_some,
        Option.some.injEq, Prod.mk.injEq] at hfate
      obtain rfl := hfate.1
      exact ended_of_kill rfl rfl _ hfd
  | goesOn hphase hnext => cases hnext <;> simp_all [Killer.fate]
  | receive hphase _ => rcases hphase with hphase | hphase <;> simp [Killer.fate, hphase] at hfate
  | disconnect hphase => simp [Killer.fate, hphase] at hfate
  | pin hphase => simp [Killer.fate, hphase] at hfate
  | look hphase hentry hrunning => simp [Killer.fate, hphase, hentry, hrunning] at hfate
  | passed hphase hfound => simp [Killer.fate, hphase, hfound] at hfate
  | count hphase => simp [Killer.fate, hphase] at hfate
  | shutdownCount hphase => simp [Killer.fate, hphase] at hfate
  | finish hphase hpending => simp [Killer.fate, hphase, hpending] at hfate

/-- A step of the thread. -/
theorem stands_advance {l : Ledger} (hpins : Pins k) (haccounted : Accounted k l)
    (hplace : OnePlace k) (hp : p ∈ k.live) (hfd : k.fds[p.pidfd]? = some pinned)
    (hchecks : ChecksHold p k (.advance ans)) (hstep : k.advance ans = some k') :
    p ∈ k'.live ∧ k'.fds[p.pidfd]? = some pinned ∨ Ended p pinned k' := by
  cases effect_advance hplace hstep with
  | keeps _ _ hfds hlive => exact .inl ⟨hlive.mem_iff.mpr hp, hfds ▸ hfd⟩
  | @opens q _ _ hfree hfds hlive =>
      refine .inl ⟨hlive.mem_iff.mpr (List.mem_cons_of_mem _ hp), ?_⟩
      rw [hfds, ExtTreeMap.getElem?_insert, if_neg, hfd]
      intro h
      rw [Std.compare_eq_iff_eq.mp h] at hfree
      exact hfree (ExtTreeMap.mem_iff_isSome_getElem?.mpr (hfd ▸ rfl))
  | @ends q fate _ _ _ hfds hlive _ hfate =>
      rcases List.mem_cons.mp (hlive.mem_iff.mp hp) with rfl | hother
      · exact .inr (ended_of_fate hfate (hpins.pinned p hp pinned hfd).1 hfd hchecks
          (advance_cases hstep))
      · -- the entry that ends has another descriptor
        have hdistinct := (hlive.map PendingKill.pidfd).nodup_iff.mp haccounted.distinct
        rw [List.map_cons, List.nodup_cons] at hdistinct
        refine .inl ⟨hother, ?_⟩
        rw [hfds, ExtTreeMap.getElem?_erase, if_neg, hfd]
        intro h
        rw [Std.compare_eq_iff_eq.mp h] at hdistinct
        exact hdistinct.1 (List.mem_map_of_mem hother)

/-- **A step**, of the thread or around it. -/
theorem Stands.next (h : Stands p pinned k) (hk : killerThread.Reachable k)
    (hchecks : ChecksHold p k step) (hstep : k.next step = some k') : Stands p pinned k' := by
  refine ⟨h.old.trans_le (serial_next hstep), ?_⟩
  rcases h.stands with ⟨hp, hfd⟩ | hended
  · rcases next_cases hstep with ⟨ans, rfl, -⟩ | ⟨pid, uid, rfl⟩ | hsame
    · obtain ⟨l, hl⟩ := audited_of_killerThread hk
      exact stands_advance (pins_of_audited hl) (accounted_of_reachable hl)
        (onePlace_of_reachable hk) hp hfd hchecks hstep
    · exact .inl ⟨hp, hfd⟩
    · refine .inl ⟨?_, hsame.fds ▸ hfd⟩
      rw [live, hsame.phase, hsame.pending]
      exact hp
  · exact .inr (hended.next h.old hstep)

end Stands

end Killer

/-- The entry of the launch, and its process. -/
def launched : PendingKill := ⟨3, ⟨0, 4000, 10001⟩, 0⟩

def launchedProc : Pidfd := ⟨4000, 0, 10001⟩

end Ningshi
