import Ningshi.Lib.Handles
import Ningshi.Passes

/-!
# `gate.rs`: the descriptors of the killer thread

Every queued pid that can be pinned gets a descriptor, and becomes an entry of
`pending`.  An entry leaves it when its process has exited, when it is killed, and
when the kill is skipped.  The thread takes a system call that fails for an exit as
well: a running process for which it gets no descriptor, or whose `oom_score_adj` it
cannot read, is let go.  A `Ledger` notes beside the run what became of each entry
and of each message that was not pinned.

`descriptors_accounted` says that the open descriptors are those of the pending
entries, that each is closed once and not touched afterwards, that a pass over
`pending` looks at every entry once, and that no pid is lost, in every run in which
the calls that concern a running process succeed (`CallsSucceed`).
-/

namespace Ningshi

open Std SwapRemove Trace Transition Handles

/-! ## What the trace says -/

/-- What is done with a descriptor. -/
def Act.fdUse : Act → Option (Use Nat)
  | .opened _ fd => some (.acquire fd)
  | .polled fd => some (.use fd)
  | .signalled _ fd _ => some (.use fd)
  | .closed fd => some (.release fd)
  | _ => none

def Act.queuedMsg : Act → Option QueuedKill
  | .queued msg => some msg
  | _ => none

def Act.openedEntry : Act → Option (QueuedKill × Nat)
  | .opened msg fd => some (msg, fd)
  | _ => none

def fdUses (trace : List Act) : List (Use Nat) := trace.filterMap Act.fdUse

/-- The messages that were queued. -/
def queuedMsgs (trace : List Act) : List QueuedKill := trace.filterMap Act.queuedMsg

/-- The messages that were pinned, each with its descriptor. -/
def openedEntries (trace : List Act) : List (QueuedKill × Nat) :=
  trace.filterMap Act.openedEntry

/-! ## The ledger -/

/-- How an entry ends. -/
inductive Fate where
  /-- its process was gone -/
  | exited
  | killed
  /-- `kill_if_blocked` has refused -/
  | skipped
  /-- its process was running, and its `oom_score_adj` could not be read -/
  | unread
  deriving DecidableEq

/-- Why a message is not pinned. -/
inductive Refusal where
  /-- no process had the pid -/
  | gone
  /-- a process had it, and no descriptor was to be had -/
  | unopened
  deriving DecidableEq

structure Ledger where
  /-- the messages that were not pinned -/
  refused : List (QueuedKill × Refusal)
  ended : List (PendingKill × Fate)

/-- An entry without the time it was pinned. -/
def PendingKill.pinned (p : PendingKill) : QueuedKill × Nat := (p.msg, p.pidfd)

namespace Killer

/-- The entry that the next step of the thread ends, and how. -/
def fate (ans : Answers) (k : Killer) : Option (PendingKill × Fate) :=
  match k.phase with
  | .polling i => (k.pending[i]?.filter fun p => k.readable p.pidfd).map fun p => (p, .exited)
  | .reading _ p =>
      if (k.readOomScoreAdj p.msg.pid ans).isSome then none
      else some (p, if k.readable p.pidfd then .exited else .unread)
  | .checking _ p => if p.msg.uid ∈ k.gate.mirror then none else some (p, .skipped)
  | .identifying _ p =>
      if (identityOk k.gate.identity ans.cmdline p.msg.uid).1 then none else some (p, .skipped)
  | .killing _ p => some (p, .killed)
  | .shutdown => k.pending.head?.map fun p => (p, .killed)
  | _ => none

/-- The message that the next step of the thread drops, and why. -/
def refusal (ans : Answers) (k : Killer) : Option (QueuedKill × Refusal) :=
  match k.phase with
  | .opening msg =>
      if (Ningshi.pidfdOpen k.table msg.pid.toNat).isNone then some (msg, .gone)
      else if ans.fd.isNone then some (msg, .unopened)
      else none
  | _ => none

end Killer

/-- Note what a step of the thread ends or drops. -/
def Ledger.note (k : Killer) (l : Ledger) : KillerStep → Ledger
  | .advance ans => ⟨(k.refusal ans).toList ++ l.refused, (k.fate ans).toList ++ l.ended⟩
  | _ => l

/-- A step, and what is noted of it. -/
def auditedNext (s : Killer × Ledger) (step : KillerStep) : Option (Killer × Ledger) :=
  (s.1.next step).map fun k => (k, s.2.note s.1 step)

/-- The killer thread with a ledger beside it. -/
def auditedKiller : System (Killer × Ledger) KillerStep :=
  .ofNext (fun s => s.1.Initial ∧ s.2 = ⟨[], []⟩) auditedNext

/-- A ledger changes nothing about the thread. -/
theorem killerThread_of_audited {s : Killer × Ledger} (h : auditedKiller.Reachable s) :
    killerThread.Reachable s.1 := by
  induction h with
  | init hinit => exact .init hinit.1
  | step _ _ hstep ih =>
      obtain ⟨k, hk, rfl⟩ := Option.map_eq_some_iff.mp hstep
      exact .step ih trivial hk

/-- Every run can be audited. -/
theorem audited_of_killerThread {k : Killer} (h : killerThread.Reachable k) :
    ∃ l, auditedKiller.Reachable (k, l) := by
  induction h with
  | init hinit => exact ⟨⟨[], []⟩, .init ⟨hinit, rfl⟩⟩
  | @step s s' step _ _ hstep ih =>
      obtain ⟨l, hl⟩ := ih
      exact ⟨l.note s step, .step hl trivial (Option.map_eq_some_iff.mpr ⟨s', hstep, rfl⟩)⟩

namespace Killer

/-- The entries whose descriptor is open.  A killed entry leaves `pending` a
step after its descriptor is closed. -/
def live (k : Killer) : List PendingKill :=
  match k.phase with
  | .counting i _ => k.pending.eraseIdx i
  | _ => k.pending

/-- The messages that have not been pinned yet. -/
def waiting (k : Killer) : List QueuedKill := k.queue ++ k.phase.incoming

/-- What a step does to descriptors, entries and messages: it leaves them alone
or drops a message, it opens an entry, or it ends one. -/
inductive Effect (k : Killer) (ans : Answers) (k' : Killer) : Prop
  | keeps {uses : List (Use Nat)} (huses : fdUses k'.trace = uses ++ fdUses k.trace)
      (hused : ∀ u ∈ uses, ∃ p ∈ k.live, u = .use p.pidfd) (hfds : k'.fds = k.fds)
      (hlive : k'.live.Perm k.live) (hopened : openedEntries k'.trace = openedEntries k.trace)
      (hfate : k.fate ans = none)
      (hwaiting : k.waiting.Perm ((k.refusal ans).toList.map Prod.fst ++ k'.waiting))
  | opens {p : PendingKill} {pinned : Pidfd}
      (huses : fdUses k'.trace = .acquire p.pidfd :: fdUses k.trace) (hfree : p.pidfd ∉ k.fds)
      (hfds : k'.fds = k.fds.insert p.pidfd pinned) (hlive : k'.live.Perm (p :: k.live))
      (hopened : openedEntries k'.trace = p.pinned :: openedEntries k.trace)
      (hfate : k.fate ans = none) (hrefusal : k.refusal ans = none)
      (hwaiting : k.waiting.Perm (p.msg :: k'.waiting))
  | ends {p : PendingKill} {fate : Fate} {uses : List (Use Nat)}
      (huses : fdUses k'.trace = .release p.pidfd :: (uses ++ fdUses k.trace))
      (hused : ∀ u ∈ uses, u = .use p.pidfd) (hfds : k'.fds = k.fds.erase p.pidfd)
      (hlive : k.live.Perm (p :: k'.live))
      (hopened : openedEntries k'.trace = openedEntries k.trace)
      (hfate : k.fate ans = some (p, fate)) (hrefusal : k.refusal ans = none)
      (hwaiting : k'.waiting = k.waiting)

section Effects

variable {k k' : Killer} {ans : Answers}

/-- Only a counted entry has its descriptor closed and is still pending. -/
theorem live_eq_pending {phase : KillerPhase} (hphase : k.phase = phase)
    (hcounting : ∀ i p, phase ≠ .counting i p) : k.live = k.pending := by
  unfold live
  rw [hphase]
  cases phase with
  | counting i p => exact absurd rfl (hcounting i p)
  | _ => rfl

/-- An entry that is taken out was pending. -/
theorem perm_swapRemove {l : List PendingKill} {i : Nat} {p : PendingKill}
    (hentry : l[i]? = some p) : l.Perm (p :: SwapRemove.swapRemove l i) := by
  obtain ⟨hi, rfl⟩ := List.getElem?_eq_some_iff.mp hentry
  exact (List.getElem_cons_eraseIdx_perm hi).symm.trans ((swapRemove_perm hi).symm.cons _)

/-- The messages are where they were, and none is dropped. -/
theorem perm_waiting (hqueue : k'.queue = k.queue)
    (hincoming : k'.phase.incoming = k.phase.incoming) (hrefusal : k.refusal ans = none) :
    k.waiting.Perm ((k.refusal ans).toList.map Prod.fst ++ k'.waiting) := by
  rw [hrefusal, waiting, waiting, hqueue, hincoming]
  exact .refl _

/-- The thread goes on without doing anything. -/
theorem effect_goto {phase phase' : KillerPhase} (hphase : k.phase = phase)
    (hcounting : ∀ i p, phase ≠ .counting i p) (hcounting' : ∀ i p, phase' ≠ .counting i p)
    (hfate : k.fate ans = none)
    (hwaiting : k.waiting.Perm
      ((k.refusal ans).toList.map Prod.fst ++ (k.goto phase').waiting)) :
    Effect k ans (k.goto phase') := by
  have hlive : (k.goto phase').live = k.live := by
    rw [live_eq_pending hphase hcounting, live_eq_pending (k := k.goto phase') rfl hcounting']
    rfl
  exact @Effect.keeps k ans _ [] rfl (by simp) rfl (.of_eq hlive) rfl hfate hwaiting

theorem effect_goesOn {phase phase' : KillerPhase} (hphase : k.phase = phase)
    (h : GoesOn k ans phase phase') : Effect k ans (k.goto phase') := by
  have hwaiting (hincoming : phase'.incoming = phase.incoming) (hrefusal : k.refusal ans = none) :
      k.waiting.Perm ((k.refusal ans).toList.map Prod.fst ++ (k.goto phase').waiting) :=
    perm_waiting rfl (hphase ▸ hincoming) hrefusal
  cases h with
  | timeout =>
      exact effect_goto hphase (by simp) (by simp) (by simp [fate, hphase])
        (hwaiting rfl (by simp [refusal, hphase]))
  | unopened msg hnone =>
      obtain ⟨why, hrefusal⟩ : ∃ why, k.refusal ans = some (msg, why) := by
        simp only [refusal, hphase]
        split_ifs with hgone hunopened
        · exact ⟨_, rfl⟩
        · exact ⟨_, rfl⟩
        · rw [Option.isNone_iff_eq_none] at hgone hunopened
          exact absurd hnone (by simp [hgone, hunopened])
      refine effect_goto hphase (by simp) (by simp) (by simp [fate, hphase]) ?_
      rw [hrefusal, waiting, hphase]
      exact (List.perm_append_singleton _ _).trans (by simp [waiting, goto, KillerPhase.incoming])
  | drained =>
      exact effect_goto hphase (by simp) (by simp) (by simp [fate, hphase])
        (hwaiting rfl (by simp [refusal, hphase]))
  | wrap i hend =>
      exact effect_goto hphase (by simp) (by simp) (by simp [fate, hphase, hend])
        (hwaiting rfl (by simp [refusal, hphase]))
  | due i p hread =>
      exact effect_goto hphase (by simp) (by simp) (by simp [fate, hphase, hread])
        (hwaiting rfl (by simp [refusal, hphase]))
  | later i p hread =>
      exact effect_goto hphase (by simp) (by simp) (by simp [fate, hphase, hread])
        (hwaiting rfl (by simp [refusal, hphase]))
  | identified i p hok =>
      exact effect_goto hphase (by simp) (by simp) (by simp [fate, hphase, hok])
        (hwaiting rfl (by simp [refusal, hphase]))

/-- An entry is examined or checked, and the step closes and removes it. -/
theorem effect_remove {phase : KillerPhase} {i : Nat} {p : PendingKill} {fate : Fate}
    {mid : Killer} (uses : List (Use Nat)) (hphase : k.phase = phase)
    (hcounting : ∀ i p, phase ≠ .counting i p) (hincoming : phase.incoming = [])
    (hentry : k.pending[i]? = some p)
    (huses : fdUses mid.trace = .release p.pidfd :: (uses ++ fdUses k.trace))
    (hused : ∀ u ∈ uses, u = .use p.pidfd) (hfds : mid.fds = k.fds.erase p.pidfd)
    (hpending : mid.pending = k.pending) (hqueue : mid.queue = k.queue)
    (hopened : openedEntries mid.trace = openedEntries k.trace)
    (hfate : k.fate ans = some (p, fate)) (hrefusal : k.refusal ans = none) :
    Effect k ans (mid.remove i) := by
  refine .ends huses hused hfds ?_ hopened hfate hrefusal ?_
  · rw [live_eq_pending hphase hcounting]
    have hlive : (mid.remove i).live = SwapRemove.swapRemove mid.pending i := rfl
    rw [hlive, hpending]
    exact perm_swapRemove hentry
  · show mid.queue ++ [] = k.queue ++ k.phase.incoming
    rw [hqueue, hphase, hincoming]

/-- A message that is pinned is not dropped. -/
theorem refusal_of_pin {msg : QueuedKill} {fd : Nat} {pinned : Pidfd}
    (hphase : k.phase = .opening msg)
    (hopen : Ningshi.pidfdOpen k.table msg.pid.toNat = some pinned)
    (hstep : k.advance ans = some ((k.pidfdOpen fd pinned msg).goto .draining)) :
    k.refusal ans = none := by
  cases hfd : ans.fd with
  | some fd' => simp [refusal, hphase, hfd, hopen]
  | none =>
      simp only [advance, hphase, hfd] at hstep
      have hpending := congrArg (fun k : Killer => k.pending.length) (Option.some.inj hstep)
      simp [goto, pidfdOpen] at hpending

/-- **What a step of the thread does to descriptors, entries and messages.** -/
theorem effect_advance (hk : OnePlace k) (hstep : k.advance ans = some k') :
    Effect k ans k' := by
  have hentry := hk.entry
  cases advance_cases hstep with
  | goesOn hphase hnext => exact effect_goesOn hphase hnext
  | @receive msg rest hphase hqueue =>
      have hincoming : k.phase.incoming = [] := by
        rcases hphase with h | h <;> rw [h] <;> rfl
      have hlive : k.live = k.pending := by
        rcases hphase with h | h <;> exact live_eq_pending h (by simp)
      have hnone : k.fate ans = none ∧ k.refusal ans = none := by
        rcases hphase with h | h <;> simp [fate, refusal, h]
      refine @Effect.keeps k ans _ [] rfl (by simp) rfl (.of_eq hlive.symm) rfl hnone.1 ?_
      rw [hnone.2, waiting, hqueue, hincoming, List.append_nil]
      exact (List.perm_append_singleton msg rest).symm
  | disconnect hphase _ _ =>
      exact effect_goto hphase (by simp) (by simp) (by simp [fate, hphase])
        (perm_waiting rfl (by rw [hphase]; rfl) (by simp [refusal, hphase]))
  | @pin msg fd pinned hphase hopen hfree =>
      have hlive : k.live = k.pending := live_eq_pending hphase (by simp)
      have hwaiting : ((k.pidfdOpen fd pinned msg).goto .draining).waiting = k.queue :=
        List.append_nil _
      refine @Effect.opens k ans _ ⟨fd, msg, k.clock⟩ pinned rfl hfree rfl ?_ rfl
        (by simp [fate, hphase]) (refusal_of_pin hphase hopen hstep) ?_
      · rw [hlive]
        exact List.perm_append_singleton _ _
      · rw [hwaiting, waiting, hphase]
        exact List.perm_append_singleton _ _
  | @exited i p hphase hpending hexited =>
      have hfate : k.fate ans = some (p, .exited) := by simp [fate, hphase, hpending, hexited]
      exact effect_remove [.use p.pidfd] hphase (by simp) rfl hpending rfl (by simp) rfl rfl rfl rfl
        hfate (by simp [refusal, hphase])
  | @look i p hphase hpending hrunning =>
      have hlive : k.live = k.pending := live_eq_pending hphase (by simp)
      refine @Effect.keeps k ans _ [.use p.pidfd] rfl ?_ rfl (.of_eq hlive.symm) rfl
        (by simp [fate, hphase, hpending, hrunning])
        (perm_waiting rfl (by rw [hphase]; rfl) (by simp [refusal, hphase]))
      rw [hlive]
      simpa using ⟨p, List.mem_of_getElem? hpending, rfl⟩
  | @gone i p hphase hread =>
      rw [hphase] at hentry
      have hfate : k.fate ans =
          some (p, if k.readable p.pidfd then .exited else .unread) := by
        simp [fate, hphase, hread]
      exact effect_remove [] hphase (by simp) rfl (hentry i p rfl) rfl (by simp) rfl rfl rfl rfl
        hfate (by simp [refusal, hphase])
  | @passed i p hphase hfound =>
      have hlive : k.live = k.pending := live_eq_pending hphase (by simp)
      exact @Effect.keeps k ans _ [] rfl (by simp) rfl (.of_eq hlive.symm) rfl
        (by simp [fate, hphase, hfound])
        (perm_waiting rfl (by rw [hphase]; rfl) (by simp [refusal, hphase]))
  | @unblocked i p hphase hfound =>
      rw [hphase] at hentry
      have hfate : k.fate ans = some (p, .skipped) := by simp [fate, hphase, hfound]
      exact effect_remove [] hphase (by simp) rfl (hentry i p rfl) rfl (by simp) rfl rfl rfl rfl
        hfate (by simp [refusal, hphase])
  | @misnamed i p hphase hother =>
      rw [hphase] at hentry
      have hfate : k.fate ans = some (p, .skipped) := by simp [fate, hphase, hother]
      exact effect_remove [] hphase (by simp) rfl (hentry i p rfl) rfl (by simp) rfl rfl rfl rfl
        hfate (by simp [refusal, hphase])
  | @kill i p hphase =>
      rw [hphase] at hentry
      obtain ⟨hi, hp⟩ := List.getElem?_eq_some_iff.mp (hentry i p rfl)
      refine @Effect.ends k ans _ p .killed [.use p.pidfd] rfl (by simp) rfl ?_ rfl
        (by simp [fate, hphase]) (by simp [refusal, hphase]) ?_
      · -- the entry stays where it is, with its descriptor closed
        have hlive : ((k.pidfdKill p.msg p.pidfd).goto (.counting i p)).live =
            k.pending.eraseIdx i := rfl
        rw [live_eq_pending hphase (by simp), hlive, ← hp]
        exact (List.getElem_cons_eraseIdx_perm hi).symm
      · rw [waiting, waiting, hphase]
        rfl
  | @count i p hphase =>
      rw [hphase] at hentry
      obtain ⟨hi, -⟩ := List.getElem?_eq_some_iff.mp (hentry i p rfl)
      have hlive : k.live = k.pending.eraseIdx i := by
        rw [live, hphase]
      refine @Effect.keeps k ans _ [] rfl (by simp) rfl ?_ rfl (by simp [fate, hphase])
        (perm_waiting rfl (by rw [hphase]; rfl) (by simp [refusal, hphase]))
      rw [hlive]
      exact swapRemove_perm hi
  | @shutdownKill p rest hphase hpending =>
      refine @Effect.ends k ans _ p .killed [.use p.pidfd] rfl (by simp) rfl ?_ rfl
        (by simp [fate, hphase, hpending]) (by simp [refusal, hphase]) ?_
      · rw [live_eq_pending hphase (by simp), hpending]
        exact .refl _
      · rw [waiting, waiting, hphase]
        rfl
  | @shutdownCount p hphase =>
      refine @Effect.keeps k ans _ [] rfl (by simp) rfl ?_ rfl (by simp [fate, hphase])
        (perm_waiting rfl (by rw [hphase]; rfl) (by simp [refusal, hphase]))
      rw [live_eq_pending hphase (by simp)]
      exact .refl _
  | finish hphase hpending =>
      exact effect_goto hphase (by simp) (by simp) (by simp [fate, hphase, hpending])
        (perm_waiting rfl (by rw [hphase]; rfl) (by simp [refusal, hphase]))

end Effects

/-! ## What a run keeps -/

/-- Descriptors, entries and messages are accounted for. -/
structure Accounted (k : Killer) (l : Ledger) : Prop where
  proper : Always Proper (fdUses k.trace)
  held : ∀ fd, fd ∈ Handles.held (fdUses k.trace) ↔ fd ∈ k.fds
  fds : ∀ fd, fd ∈ k.fds ↔ ∃ p ∈ k.live, p.pidfd = fd
  distinct : (k.live.map PendingKill.pidfd).Nodup
  entries : (openedEntries k.trace).Perm
    (l.ended.map (fun e => e.1.pinned) ++ k.live.map PendingKill.pinned)
  messages : (queuedMsgs k.trace).Perm
    (k.waiting ++ (l.refused.map Prod.fst ++ (openedEntries k.trace).map Prod.fst))
  ids : ∀ msg ∈ queuedMsgs k.trace, msg.id < k.nextId
  once : (queuedMsgs k.trace).Nodup

section Accounted

variable {k k' : Killer} {l : Ledger} {ans : Answers}

/-- The thread queues nothing. -/
theorem queuedMsgs_advanced (h : Advanced k ans k') :
    queuedMsgs k'.trace = queuedMsgs k.trace ∧ k'.nextId = k.nextId := by
  cases h <;> exact ⟨rfl, rfl⟩

/-- An entry holds its descriptor. -/
theorem held_of_live (hk : Accounted k l) {p : PendingKill} (hp : p ∈ k.live) :
    p.pidfd ∈ Handles.held (fdUses k.trace) :=
  (hk.held _).mpr ((hk.fds _).mpr ⟨p, hp, rfl⟩)

/-- The other descriptors stay open when an entry is closed. -/
theorem mem_erase_iff_of_perm (hk : Accounted k l) {p : PendingKill} {others : List PendingKill}
    (hlive : k.live.Perm (p :: others)) (fd : Nat) :
    fd ∈ k.fds.erase p.pidfd ↔ ∃ q ∈ others, q.pidfd = fd := by
  have hdistinct := (hlive.map PendingKill.pidfd).nodup_iff.mp hk.distinct
  rw [List.map_cons, List.nodup_cons] at hdistinct
  simp only [ExtTreeMap.mem_erase, hk.fds, hlive.mem_iff, List.mem_cons, ne_eq,
    Std.compare_eq_iff_eq]
  constructor
  · rintro ⟨hne, q, rfl | hq, rfl⟩
    · exact absurd rfl hne
    · exact ⟨q, hq, rfl⟩
  · rintro ⟨q, hq, rfl⟩
    exact ⟨fun h => hdistinct.1 (h ▸ List.mem_map_of_mem hq), q, .inr hq, rfl⟩

/-- Descriptors are used while they are held, and those that are held are open. -/
theorem handles_effect (hk : Accounted k l) (heffect : Effect k ans k') :
    Always Proper (fdUses k'.trace) ∧
      ∀ fd, fd ∈ Handles.held (fdUses k'.trace) ↔ fd ∈ k'.fds := by
  cases heffect with
  | @keeps uses huses hused hfds _ _ _ _ =>
      have hheld : ∀ u ∈ uses, ∃ fd, fd ∈ Handles.held (fdUses k.trace) ∧ u = .use fd := by
        intro u hu
        obtain ⟨p, hp, rfl⟩ := hused u hu
        exact ⟨p.pidfd, held_of_live hk hp, rfl⟩
      obtain ⟨hproper, heq⟩ := proper_uses hheld hk.proper
      refine ⟨huses ▸ hproper, fun fd => ?_⟩
      rw [huses, heq, hfds]
      exact hk.held fd
  | @opens p pinned huses hfree hfds _ _ _ _ _ =>
      refine ⟨?_, fun fd => ?_⟩
      · rw [huses, always_cons]
        exact ⟨fun h => hfree ((hk.held _).mp h), hk.proper⟩
      · rw [huses, hfds]
        simp only [Handles.held, List.mem_cons, hk.held, ExtTreeMap.mem_insert,
          Std.compare_eq_iff_eq]
        exact or_congr_left eq_comm
  | @ends p fate uses huses hused hfds hlive _ _ _ _ =>
      have hopen : p.pidfd ∈ Handles.held (fdUses k.trace) :=
        held_of_live hk (hlive.mem_iff.mpr List.mem_cons_self)
      have hheld : ∀ u ∈ uses, ∃ fd, fd ∈ Handles.held (fdUses k.trace) ∧ u = .use fd :=
        fun u hu => ⟨p.pidfd, hopen, hused u hu⟩
      obtain ⟨hproper, heq⟩ := proper_uses hheld hk.proper
      refine ⟨?_, fun fd => ?_⟩
      · rw [huses, always_cons]
        exact ⟨(heq ▸ hopen : p.pidfd ∈ Handles.held _), hproper⟩
      · rw [huses, hfds]
        simp only [Handles.held, heq, (nodup_held hk.proper).mem_erase_iff, hk.held,
          ExtTreeMap.mem_erase, ne_eq, Std.compare_eq_iff_eq]
        exact and_congr_left' (not_congr eq_comm)

/-- The open descriptors are those of the entries, each of one entry. -/
theorem fds_effect (hk : Accounted k l) (heffect : Effect k ans k') :
    (∀ fd, fd ∈ k'.fds ↔ ∃ p ∈ k'.live, p.pidfd = fd) ∧
      (k'.live.map PendingKill.pidfd).Nodup := by
  cases heffect with
  | keeps _ _ hfds hlive _ _ _ =>
      refine ⟨fun fd => ?_, (hlive.map _).nodup_iff.mpr hk.distinct⟩
      rw [hfds, hk.fds]
      exact exists_congr fun p => and_congr_left fun _ => hlive.symm.mem_iff
  | @opens p pinned _ hfree hfds hlive _ _ _ _ =>
      have hnew : ∀ q ∈ k.live, q.pidfd ≠ p.pidfd := fun q hq heq =>
        hfree ((hk.fds _).mpr ⟨q, hq, heq⟩)
      refine ⟨fun fd => ?_, ?_⟩
      · rw [hfds]
        simp [hk.fds, hlive.mem_iff]
      · rw [(hlive.map _).nodup_iff, List.map_cons, List.nodup_cons]
        refine ⟨fun h => ?_, hk.distinct⟩
        obtain ⟨q, hq, heq⟩ := List.mem_map.mp h
        exact hnew q hq heq
  | @ends p fate uses _ _ hfds hlive _ _ _ _ =>
      refine ⟨fun fd => ?_, ?_⟩
      · rw [hfds]
        exact mem_erase_iff_of_perm hk hlive fd
      · have hdistinct := (hlive.map PendingKill.pidfd).nodup_iff.mp hk.distinct
        rw [List.map_cons, List.nodup_cons] at hdistinct
        exact hdistinct.2

/-- Every entry that was opened has ended or is still there. -/
theorem entries_effect (hk : Accounted k l) (heffect : Effect k ans k') :
    (openedEntries k'.trace).Perm ((l.note k (.advance ans)).ended.map (fun e => e.1.pinned) ++
      k'.live.map PendingKill.pinned) := by
  cases heffect with
  | keeps _ _ _ hlive hopened hfate _ =>
      rw [hopened]
      simp only [Ledger.note, hfate, Option.toList_none, List.nil_append]
      exact hk.entries.trans ((hlive.symm.map _).append_left _)
  | opens _ _ _ hlive hopened hfate _ _ =>
      rw [hopened]
      simp only [Ledger.note, hfate, Option.toList_none, List.nil_append]
      refine (hk.entries.cons _).trans (List.perm_middle.symm.trans ?_)
      exact ((hlive.map _).symm).append_left _
  | ends _ _ _ hlive hopened hfate _ _ =>
      rw [hopened]
      simp only [Ledger.note, hfate, Option.toList_some, List.singleton_append, List.map_cons]
      refine (hk.entries.trans ((hlive.map _).append_left _)).trans ?_
      exact List.perm_middle

/-- Every message is waiting, was refused or was opened. -/
theorem messages_effect (hk : Accounted k l) (heffect : Effect k ans k')
    (hqueued : queuedMsgs k'.trace = queuedMsgs k.trace) :
    (queuedMsgs k'.trace).Perm (k'.waiting ++ ((l.note k (.advance ans)).refused.map Prod.fst ++
      (openedEntries k'.trace).map Prod.fst)) := by
  rw [hqueued]
  cases heffect with
  | keeps _ _ _ _ hopened _ hwaiting =>
      rw [hopened]
      simp only [Ledger.note]
      refine (hk.messages.trans (hwaiting.append_right _)).trans ?_
      rw [List.append_assoc, List.map_append, List.append_assoc]
      exact List.perm_append_comm_assoc _ _ _
  | opens _ _ _ _ hopened _ hrefusal hwaiting =>
      rw [hopened]
      simp only [Ledger.note, hrefusal, Option.toList_none, List.nil_append, List.map_cons]
      refine (hk.messages.trans (hwaiting.append_right _)).trans ?_
      rw [List.cons_append]
      exact List.perm_middle.symm.trans (List.perm_middle.symm.append_left _)
  | ends _ _ _ _ hopened _ hrefusal hwaiting =>
      rw [hopened, hwaiting]
      simp only [Ledger.note, hrefusal, Option.toList_none, List.nil_append]
      exact hk.messages

theorem accounted_effect (hk : Accounted k l) (heffect : Effect k ans k')
    (hqueued : queuedMsgs k'.trace = queuedMsgs k.trace) (hnextId : k'.nextId = k.nextId) :
    Accounted k' (l.note k (.advance ans)) := by
  obtain ⟨hproper, hheld⟩ := handles_effect hk heffect
  obtain ⟨hfds, hdistinct⟩ := fds_effect hk heffect
  have hids : ∀ msg ∈ queuedMsgs k'.trace, msg.id < k'.nextId := by
    rw [hqueued, hnextId]
    exact hk.ids
  have honce : (queuedMsgs k'.trace).Nodup := hqueued ▸ hk.once
  exact ⟨hproper, hheld, hfds, hdistinct, entries_effect hk heffect,
    messages_effect hk heffect hqueued, hids, honce⟩

/-- A message is queued. -/
theorem accounted_send (hk : Accounted k l) (pid : UInt32) (uid : Uid) :
    Accounted (k.send pid uid) l := by
  let msg : QueuedKill := ⟨k.nextId, pid, uid⟩
  have hqueued : queuedMsgs (k.send pid uid).trace = msg :: queuedMsgs k.trace := rfl
  have hwaiting : (k.send pid uid).waiting.Perm (msg :: k.waiting) := by
    show (k.queue ++ [msg] ++ k.phase.incoming).Perm (msg :: (k.queue ++ k.phase.incoming))
    rw [List.append_assoc]
    exact List.perm_middle
  refine ⟨hk.proper, hk.held, hk.fds, hk.distinct, hk.entries, ?_, fun m hm => ?_, ?_⟩
  · rw [hqueued]
    exact (hk.messages.cons msg).trans (hwaiting.symm.append_right _)
  · rw [hqueued] at hm
    obtain rfl | hm := List.mem_cons.mp hm
    · exact Nat.lt_succ_self _
    · exact Nat.lt_succ_of_lt (hk.ids m hm)
  · rw [hqueued, List.nodup_cons]
    exact ⟨fun h => Nat.lt_irrefl _ (hk.ids msg h), hk.once⟩

/-- **A step**, of the thread or around it. -/
theorem accounted_next {step : KillerStep} (hk : Accounted k l) (hplace : OnePlace k)
    (hstep : k.next step = some k') : Accounted k' (l.note k step) := by
  by_cases hadvance : ∃ ans, step = .advance ans
  · obtain ⟨ans, rfl⟩ := hadvance
    obtain ⟨hqueued, hnextId⟩ := queuedMsgs_advanced (advance_cases hstep)
    exact accounted_effect hk (effect_advance hplace hstep) hqueued hnextId
  · have hnote : l.note k step = l := by
      cases step with
      | advance ans => exact absurd ⟨ans, rfl⟩ hadvance
      | _ => rfl
    rw [hnote]
    rcases next_cases hstep with ⟨ans, rfl, -⟩ | ⟨pid, uid, rfl⟩ | hsame
    · exact absurd ⟨ans, rfl⟩ hadvance
    · exact accounted_send hk pid uid
    · have hlive : k'.live = k.live := by rw [live, live, hsame.phase, hsame.pending]
      have hwaiting : k'.waiting = k.waiting := by
        rw [waiting, waiting, hsame.queue, hsame.phase]
      refine ⟨hsame.trace ▸ hk.proper, ?_, ?_, hlive ▸ hk.distinct, ?_, ?_, ?_,
        hsame.trace ▸ hk.once⟩
      · rw [hsame.trace, hsame.fds]
        exact hk.held
      · rw [hsame.fds, hlive]
        exact hk.fds
      · rw [hsame.trace, hlive]
        exact hk.entries
      · rw [hsame.trace, hwaiting]
        exact hk.messages
      · rw [hsame.trace, hsame.nextId]
        exact hk.ids

end Accounted

end Killer

/-- In every run. -/
theorem accounted_of_reachable {s : Killer × Ledger} (hs : auditedKiller.Reachable s) :
    s.1.Accounted s.2 := by
  induction hs with
  | @step s s' step hrun _ hstep ih =>
      obtain ⟨k, hk, rfl⟩ := Option.map_eq_some_iff.mp hstep
      exact Killer.accounted_next ih (onePlace_of_reachable (killerThread_of_audited hrun)) hk
  | @init s hs =>
      obtain ⟨hk, hledger⟩ := hs
      have hlive : s.1.live = [] := by rw [Killer.live, hk.phase, hk.pending]
      have hwaiting : s.1.waiting = [] := by
        rw [Killer.waiting, hk.phase, hk.queue]
        rfl
      refine ⟨?_, ?_, ?_, ?_, ?_, ?_, ?_, ?_⟩
      · rw [hk.trace]
        exact always_nil
      · simp [hk.trace, hk.fds, fdUses, Handles.held]
      · simp [hk.fds, hlive]
      · simp [hlive]
      · simp [hk.trace, hledger, hlive, openedEntries]
      · simp [hk.trace, hledger, hwaiting, openedEntries, queuedMsgs]
      · simp [hk.trace, queuedMsgs]
      · simp [hk.trace, queuedMsgs]

/-! ## The end of the thread -/

/-- The thread has found the other end of the queue dropped. -/
def KillerPhase.isOver : KillerPhase → Bool
  | .shutdown => true
  | .shutdownCounting _ => true
  | .done => true
  | _ => false

namespace Killer

/-- By then nothing can be queued, and nothing is pending when the thread ends. -/
structure Finished (k : Killer) : Prop where
  closed : k.phase.isOver = true → k.senderDropped = true ∧ k.queue = []
  empty : k.phase = .done → k.pending = []

variable {k k' : Killer} {ans : Answers}

theorem isOver_goesOn {phase phase' : KillerPhase} (h : GoesOn k ans phase phase') :
    phase'.isOver = false := by
  cases h <;> rfl

theorem finished_advanced (hk : Finished k) (hstep : Advanced k ans k') : Finished k' := by
  have hrunning {phase : KillerPhase} (hphase : k'.phase = phase) (hover : phase.isOver = false) :
      Finished k' := by
    refine ⟨fun h => ?_, fun h => ?_⟩
    · rw [hphase, hover] at h
      cases h
    · rw [← hphase, h] at hover
      cases hover
  cases hstep with
  | goesOn _ hnext => exact hrunning rfl (isOver_goesOn hnext)
  | disconnect _ hqueue hdropped => exact ⟨fun _ => ⟨hdropped, hqueue⟩, by simp [goto]⟩
  | shutdownKill hphase _ => exact ⟨fun _ => hk.closed (by rw [hphase]; rfl), by simp [goto]⟩
  | shutdownCount hphase => exact ⟨fun _ => hk.closed (by rw [hphase]; rfl), by simp [goto]⟩
  | finish hphase hpending =>
      exact ⟨fun _ => hk.closed (by rw [hphase]; rfl), fun _ => hpending⟩
  | _ => exact hrunning rfl rfl

theorem finished_next {step : KillerStep} (hk : Finished k) (hstep : k.next step = some k') :
    Finished k' := by
  cases step with
  | advance ans => exact finished_advanced hk (advance_cases hstep)
  | send pid uid =>
      simp only [next] at hstep
      split_ifs at hstep with hdropped
      obtain rfl := Option.some.inj hstep
      exact ⟨fun h => absurd (hk.closed h).1 hdropped, hk.empty⟩
  | dropSender =>
      simp only [next] at hstep
      split_ifs at hstep
      obtain rfl := Option.some.inj hstep
      exact ⟨fun h => ⟨rfl, (hk.closed h).2⟩, hk.empty⟩
  | mirror =>
      obtain ⟨update, -, rfl⟩ := Option.map_eq_some_iff.mp hstep
      exact ⟨hk.closed, hk.empty⟩
  | wait ms =>
      obtain rfl := Option.some.inj hstep
      exact ⟨hk.closed, hk.empty⟩
  | _ =>
      simp only [next] at hstep
      split_ifs at hstep
      obtain rfl := Option.some.inj hstep
      exact ⟨hk.closed, hk.empty⟩

end Killer

theorem finished_of_reachable {k : Killer} (hk : killerThread.Reachable k) : k.Finished := by
  induction hk with
  | step _ _ hstep ih => exact Killer.finished_next ih hstep
  | @init s hs =>
      refine ⟨fun h => ?_, fun h => ?_⟩
      · rw [hs.phase] at h
        cases h
      · rw [hs.phase] at h
        cases h

/-! ## The descriptors of the thread -/

/-- The head of the loop, of the walk over `pending`, and of the drain at the end. -/
def KillerPhase.isLoopHead : KillerPhase → Bool
  | .receiving => true
  | .polling _ => true
  | .shutdown => true
  | .done => true
  | _ => false

/-- Does the next step let go of a running process, because it gets no descriptor or
cannot read the `oom_score_adj`? -/
def Killer.callFails (k : Killer) : KillerStep → Bool
  | .advance ans =>
      match k.phase with
      | .opening msg => (Ningshi.pidfdOpen k.table msg.pid.toNat).isSome && ans.fd.isNone
      | .reading _ p => !k.readable p.pidfd && (k.readOomScoreAdj p.msg.pid ans).isNone
      | _ => false
  | _ => false

/-- `pidfd_open` and `read_oom_score_adj` succeed for a running process. -/
def CallsSucceed (k : Killer) (step : KillerStep) : Prop := k.callFails step = false

instance (k : Killer) (step : KillerStep) : Decidable (CallsSucceed k step) :=
  inferInstanceAs (Decidable (_ = _))

/-- Nobody was let go. -/
structure Ledger.NothingLost (l : Ledger) : Prop where
  refused : ∀ r ∈ l.refused, r.2 = .gone
  ended : ∀ e ∈ l.ended, e.2 = .exited ∨ e.2 = .killed ∨ e.2 = .skipped

/-- What a step of the thread notes. -/
theorem noted_iff (k : Killer) (ans : Answers) :
    ((∀ r ∈ (k.refusal ans).toList, r.2 = .gone) ∧
        ∀ e ∈ (k.fate ans).toList, e.2 = .exited ∨ e.2 = .killed ∨ e.2 = .skipped) ↔
      CallsSucceed k (.advance ans) := by
  unfold CallsSucceed Killer.callFails Killer.refusal Killer.fate
  cases hphase : k.phase with
  | opening msg =>
      cases hopen : Ningshi.pidfdOpen k.table msg.pid.toNat <;> cases hfd : ans.fd <;>
        simp [hopen, hfd]
  | reading i p =>
      cases hread : k.readOomScoreAdj p.msg.pid ans <;> cases hexited : k.readable p.pidfd <;>
        simp [hread, hexited]
  | polling i =>
      simp only [Option.toList_none, List.not_mem_nil, false_imp_iff, implies_true, true_and,
        iff_true, Option.mem_toList, Option.map_eq_some_iff, Option.filter_eq_some_iff]
      rintro _ ⟨p, -, rfl⟩
      exact .inl rfl
  | checking i p => by_cases hfound : p.msg.uid ∈ k.gate.mirror <;> simp [hfound]
  | identifying i p =>
      cases hok : (identityOk k.gate.identity ans.cmdline p.msg.uid).1 <;> simp [hok]
  | shutdown => cases hhead : k.pending.head? <;> simp
  | _ => simp

/-- **What loses nothing** is a step whose calls succeed. -/
theorem nothingLost_note {k : Killer} {l : Ledger} (step : KillerStep) :
    (l.note k step).NothingLost ↔ CallsSucceed k step ∧ l.NothingLost := by
  cases step with
  | advance ans =>
      rw [← noted_iff]
      simp only [Ledger.note]
      constructor
      · rintro ⟨hrefused, hended⟩
        rw [List.forall_mem_append] at hrefused hended
        exact ⟨⟨hrefused.1, hended.1⟩, hrefused.2, hended.2⟩
      · rintro ⟨⟨hrefusal, hfate⟩, hrefused, hended⟩
        exact ⟨List.forall_mem_append.mpr ⟨hrefusal, hrefused⟩,
          List.forall_mem_append.mpr ⟨hfate, hended⟩⟩
  | _ => exact ⟨fun h => ⟨rfl, h⟩, And.right⟩

/-- No descriptor is leaked, reused or closed twice, and no queued pid is lost. -/
structure DescriptorsSound (k : Killer) (l : Ledger) : Prop where
  /-- what is open at a loop head is what is pending, without repetition -/
  openArePending : k.phase.isLoopHead = true →
    k.fds.keys.Perm (k.pending.map PendingKill.pidfd) ∧
      (k.pending.map PendingKill.pidfd).Nodup
  /-- only a free descriptor is opened, and only an open one used or closed -/
  proper : Always Proper (fdUses k.trace)
  /-- what was opened is still open, or was closed once and not touched since -/
  closedOnce : ∀ fd earlier later, fdUses k.trace = later ++ .acquire fd :: earlier →
    (fd ∈ k.fds ∧ ∀ u ∈ later, u.handle = fd → u = .use fd) ∨
      ∃ after before, later = after ++ .release fd :: before ∧
        (∀ u ∈ before, u.handle = fd → u = .use fd) ∧ Untouched fd after
  /-- a pass examines what was pending when it began, each entry once -/
  pass : ∀ k', k.Pass k' → k'.phase = .receiving → ∃ acts, k'.trace = acts ++ k.trace ∧
    (polledFds acts).Perm (k.pending.map PendingKill.pidfd)
  /-- each entry has ended in one of three ways, or its descriptor is open -/
  entries : (openedEntries k.trace).Perm
      (l.ended.map (fun e => e.1.pinned) ++ k.live.map PendingKill.pinned) ∧
    (openedEntries k.trace).Nodup ∧
    ∀ e ∈ l.ended, e.2 = .exited ∨ e.2 = .killed ∨ e.2 = .skipped
  /-- each queued pid waits, was pinned, or belonged to no process by then -/
  messages : (queuedMsgs k.trace).Perm
      (k.waiting ++ (l.refused.map Prod.fst ++ (openedEntries k.trace).map Prod.fst)) ∧
    (queuedMsgs k.trace).Nodup ∧ ∀ r ∈ l.refused, r.2 = .gone
  /-- nothing is left when the thread has ended -/
  ended : k.phase = .done → k.fds = ∅ ∧ k.live = [] ∧ k.waiting = []

/-- In a run that loses nothing. -/
theorem descriptorsSound_of_reachable {k : Killer} {l : Ledger}
    (h : auditedKiller.Reachable (k, l)) (hlost : l.NothingLost) : DescriptorsSound k l := by
  have hk := killerThread_of_audited h
  have haccounted : k.Accounted l := accounted_of_reachable h
  have hfinished := finished_of_reachable hk
  have hlive (hhead : k.phase.isLoopHead = true) : k.live = k.pending := by
    cases hphase : k.phase <;> rw [hphase] at hhead <;> cases hhead <;>
      exact Killer.live_eq_pending hphase (by simp)
  have hmem (fd : Nat) : fd ∈ k.fds.keys ↔ fd ∈ k.live.map PendingKill.pidfd := by
    rw [ExtTreeMap.mem_keys, haccounted.fds, List.mem_map]
  have hopen : k.fds.keys.Perm (k.live.map PendingKill.pidfd) :=
    (List.perm_ext_iff_of_nodup ExtTreeMap.nodup_keys haccounted.distinct).mpr hmem
  refine ⟨fun hhead => hlive hhead ▸ ⟨hopen, haccounted.distinct⟩, haccounted.proper,
    fun fd earlier later hsplit => ?_, fun k' hpass hphase => ?_,
    ⟨haccounted.entries, ?_, hlost.ended⟩, ⟨haccounted.messages, haccounted.once, hlost.refused⟩,
    fun hdone => ?_⟩
  · have hproper := haccounted.proper
    have hheld := haccounted.held fd
    rw [hsplit] at hproper hheld
    rw [← hheld]
    exact acquired_cases hproper
  · obtain ⟨-, -, acts, htrace, hperm⟩ := pass_ahead hk hpass
    have hahead : k'.ahead = [] := by
      rw [Killer.ahead, hphase]
      rfl
    rw [hahead, List.map_nil, List.append_nil] at hperm
    exact ⟨acts, htrace, hperm⟩
  · -- the messages are told apart by their numbers
    have hmsgs := (haccounted.messages.nodup_iff.mp haccounted.once).of_append_right
    exact hmsgs.of_append_right.of_map _
  · have hempty : k.live = [] :=
      (hlive (by rw [hdone]; rfl)).trans (hfinished.empty hdone)
    refine ⟨ExtTreeMap.eq_empty_iff_forall_not_mem.mpr fun fd hfd => ?_, hempty, ?_⟩
    · obtain ⟨p, hp, -⟩ := (haccounted.fds fd).mp hfd
      rw [hempty] at hp
      cases hp
    · rw [Killer.waiting, (hfinished.closed (by rw [hdone]; rfl)).2, hdone]
      rfl

/-- **The killer thread accounts for its descriptors and for what is queued** in the
runs in which the calls that concern a running process succeed, and in no others. -/
theorem descriptors_accounted_iff {s : Killer × Ledger} :
    auditedKiller.ReachableWhen (fun s step => CallsSucceed s.1 step) s ↔
      auditedKiller.Reachable s ∧ DescriptorsSound s.1 s.2 := by
  have hinit (s : Killer × Ledger) (hs : auditedKiller.init s) : s.2.NothingLost := by
    rw [hs.2]
    exact ⟨by simp, by simp⟩
  have hnote (s : Killer × Ledger) (step : KillerStep) (s' : Killer × Ledger)
      (_ : auditedKiller.Reachable s) (hstep : auditedKiller.step s step s') :
      s'.2.NothingLost ↔ CallsSucceed s.1 step ∧ s.2.NothingLost := by
    obtain ⟨k, -, rfl⟩ := Option.map_eq_some_iff.mp hstep
    exact nothingLost_note step
  have hkept : auditedKiller.ReachableWhen (fun s step => CallsSucceed s.1 step) s ↔
      auditedKiller.Reachable s ∧ s.2.NothingLost :=
    System.reachableWhen_iff_kept hinit hnote
  rw [hkept]
  refine and_congr_right fun hs => ⟨descriptorsSound_of_reachable hs, fun h => ?_⟩
  exact ⟨h.messages.2.2, h.entries.2.2⟩

/-- The kernel has no descriptor left for the process that is launched. -/
def noDescriptor : List KillerStep :=
  launch ++ List.replicate 2 (.advance { foreground with fd := none })

/-- The process goes on running, and its pid neither waits nor was pinned. -/
theorem not_descriptors_accounted :
    ∃ k l, auditedKiller.Reachable (k, l) ∧ k.table.contains 4000 = true ∧
      queuedMsgs k.trace = [⟨0, 4000, 10001⟩] ∧ k.waiting = [] ∧ openedEntries k.trace = [] ∧
      ¬ DescriptorsSound k l := by
  have hrun : (runFrom auditedNext noDescriptor (oneTarget, ⟨[], []⟩)).any (fun s =>
      s.1.table.contains 4000 = true ∧ queuedMsgs s.1.trace = [⟨0, 4000, 10001⟩] ∧
        s.1.waiting = [] ∧ openedEntries s.1.trace = [] ∧
        s.2.refused = [(⟨0, 4000, 10001⟩, .unopened)]) = true := by
    decide +kernel
  obtain ⟨⟨k, l⟩, hs, hend⟩ := (Option.any_eq_true _ _).mp hrun
  obtain ⟨hrunning, hqueued, hwaiting, hopened, hrefused⟩ := of_decide_eq_true hend
  have hinit : auditedKiller.init (oneTarget, ⟨[], []⟩) := ⟨oneTarget_init, rfl⟩
  refine ⟨k, l, System.reachable_runFrom (.init hinit) hs, hrunning, hqueued, hwaiting, hopened,
    fun hsound => ?_⟩
  have hgone := hsound.messages.2.2 _ (hrefused ▸ List.mem_cons_self)
  exact absurd hgone (by decide)

end Ningshi
