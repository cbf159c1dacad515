import Ningshi.Descriptors
import Ningshi.Drain
import Ningshi.HealthCounters
import Ningshi.Inotify

/-!
# `gate.rs` and `gate.bpf.c`: from the kernel to the signal

The programs in the kernel put their reports into the ring buffer, one thread
takes them out and queues a pid for the killer thread, and the killer thread sends
the signal.  The programs and the killer look at the block map and at its mirror at
different times, and the engine changes both in between.

`gate_conserves` says that nothing is lost, doubled or reordered on the way, and that
every signal answers a report of its own about a process whose uid was in the block
map when the report was made.
-/

namespace Ningshi

open Std Bursts Transition

/-- `struct event`, as it stands in the ring buffer. -/
def BpfEvent.item (e : BpfEvent) : List UInt8 := wordBytes e.tgid ++ wordBytes e.uid

/-- The gate at work. -/
structure Pipeline where
  bpf : GateBpf
  /-- what waits in the ring buffer, oldest first -/
  ring : List (List UInt8)
  drain : Drain
  killer : Killer
  /-- how entries of the killer have ended -/
  ledger : Ledger
  /-- the events submitted so far, each with the block map it met, newest first -/
  submitted : List (BpfEvent × UidMap UInt8)
  /-- the events taken out of the ring buffer, newest first -/
  taken : List SpawnEvent

inductive PipelineStep where
  /-- a program runs, or time passes in the kernel -/
  | program (step : BpfStep)
  /-- first half of `set_blocked`: the map of the programs -/
  | kernel (uid : Uid) (blocked : Bool)
  /-- the next item is taken out of the ring buffer -/
  | take (time : Nat)
  /-- the wake pipe: the thread ends and drops its end of the queue -/
  | wake
  /-- the killer thread, the rest of the engine, the processes, time -/
  | killer (step : KillerStep)

namespace Pipeline

/-- The thread handles the item it has taken out. -/
def handle (time : Nat) (item : List UInt8) (p : Pipeline) : Pipeline :=
  match SpawnEvent.ofItem time item with
  | none => p
  | some e =>
      { p with
        drain := p.drain.handle e
        killer := if p.drain.repeats e then p.killer else p.killer.send e.pid e.uid
        taken := e :: p.taken }

/-- Other steps than these are taken together with a thread of the gate. -/
def ownStep : KillerStep → Bool
  | .send _ _ => false
  | .dropSender => false
  | .kernel _ _ => false
  | _ => true

def next (p : Pipeline) : PipelineStep → Option Pipeline
  | .program (.setBlocked _ _) => none
  | .program step =>
      (p.bpf.next step).map fun g =>
        { p with
          bpf := g
          ring := p.ring ++ (p.bpf.submittedBy step).map BpfEvent.item
          submitted :=
            (p.bpf.submittedBy step).map (fun e => (e, p.bpf.blockedUids)) ++ p.submitted }
  | .kernel uid blocked =>
      (p.killer.next (.kernel uid blocked)).bind fun k =>
        (p.bpf.next (.setBlocked uid blocked)).map fun g => { p with bpf := g, killer := k }
  | .take time =>
      if p.killer.senderDropped ∨ time < newest p.taken then none
      else
        match p.ring with
        | [] => none
        | item :: rest => some ({ p with ring := rest }.handle time item)
  | .wake => (p.killer.next .dropSender).map fun k => { p with killer := k }
  | .killer step =>
      if ownStep step then
        (p.killer.next step).map fun k =>
          { p with killer := k, ledger := p.ledger.note p.killer step }
      else none

structure Initial (p : Pipeline) : Prop where
  bpf : p.bpf.Initial
  /-- the two threads have the same block map -/
  shared : p.bpf.blockedUids = p.killer.gate.kernel
  ring : p.ring = []
  drain : p.drain = ⟨∅, []⟩
  killer : p.killer.Initial
  ledger : p.ledger = ⟨[], []⟩
  submitted : p.submitted = []
  taken : p.taken = []

end Pipeline

def pipeline : System Pipeline PipelineStep := .ofNext Pipeline.Initial Pipeline.next

/-! ## What an event carries -/

def BpfEvent.source (e : BpfEvent) : UInt32 × Uid := (e.tgid, e.uid)

def SpawnEvent.source (e : SpawnEvent) : UInt32 × Uid := (e.pid, e.uid)

def QueuedKill.source (msg : QueuedKill) : UInt32 × Uid := (msg.pid, msg.uid)

/-- The thread reads what the programs have written. -/
theorem ofItem_item (time : Nat) (e : BpfEvent) :
    SpawnEvent.ofItem time e.item = some ⟨e.tgid, e.uid, time⟩ := by
  have hword (w : UInt32) : u32OfBytes w.toUInt8 (w >>> 8).toUInt8 (w >>> 16).toUInt8
      (w >>> 24).toUInt8 = w := by
    have hvalue := wordBytes_value w
    unfold u32OfBytes
    refine UInt32.toNat_inj.mp ?_
    rw [UInt32.toNat_ofNat', Nat.mod_eq_of_lt] <;> have hlt := w.toNat_lt <;> omega
  simp only [BpfEvent.item, wordBytes, List.cons_append, List.nil_append, SpawnEvent.ofItem, hword]

/-! ## Signals -/

def Act.signalledMsg : Act → Option QueuedKill
  | .signalled msg _ _ => some msg
  | _ => none

/-- The messages that were answered with a signal. -/
def signals (trace : List Act) : List QueuedKill := trace.filterMap Act.signalledMsg

/-- The messages of the entries that ended so. -/
def Ledger.endedAs (fate : Fate) (l : Ledger) : List QueuedKill :=
  (l.ended.filter fun e => e.2 = fate).map fun e => e.1.msg

namespace Killer

variable {k k' : Killer} {l : Ledger} {ans : Answers}

theorem endedAs_note :
    (l.note k (.advance ans)).endedAs .killed =
      ((k.fate ans).toList.filter fun e => e.2 = .killed).map (fun e => e.1.msg) ++
        l.endedAs .killed := by
  rw [Ledger.endedAs, Ledger.endedAs, Ledger.note, List.filter_append, List.map_append]

/-- The thread signals exactly the entries that end as killed. -/
theorem signals_advanced (h : Advanced k ans k') (hl : signals k.trace = l.endedAs .killed) :
    signals k'.trace = (l.note k (.advance ans)).endedAs .killed := by
  have hquiet (hfate : ∀ p, k.fate ans ≠ some (p, .killed))
      (hsignals : signals k'.trace = signals k.trace) :
      signals k'.trace = (l.note k (.advance ans)).endedAs .killed := by
    have hnone : ((k.fate ans).toList.filter fun e => e.2 = Fate.killed) = [] := by
      refine List.filter_eq_nil_iff.mpr ?_
      rintro ⟨p, fate⟩ he hkilled
      obtain rfl : fate = .killed := of_decide_eq_true hkilled
      exact hfate p (Option.mem_toList.mp he)
    rw [endedAs_note, hnone, hsignals, hl]
    rfl
  have hkill {p : PendingKill} (hfate : k.fate ans = some (p, .killed))
      (hsignals : signals k'.trace = p.msg :: signals k.trace) :
      signals k'.trace = (l.note k (.advance ans)).endedAs .killed := by
    rw [endedAs_note, hfate, hsignals, hl]
    rfl
  cases h with
  | goesOn hphase hnext =>
      refine hquiet (fun p => ?_) rfl
      cases hnext with
      | due i q hread => simp [fate, hphase, hread]
      | later i q hread => simp [fate, hphase, hread]
      | _ => simp [fate, hphase]
  | receive hphase _ =>
      refine hquiet (fun p => ?_) rfl
      rcases hphase with hphase | hphase <;> simp [fate, hphase]
  | kill hphase => exact hkill (by simp [fate, hphase]) rfl
  | shutdownKill hphase hpending => exact hkill (by simp [fate, hphase, hpending]) rfl
  | finish hphase hpending => exact hquiet (fun p => by simp [fate, hphase, hpending]) rfl
  | disconnect hphase => exact hquiet (fun p => by simp [fate, hphase]) rfl
  | pin hphase => exact hquiet (fun p => by simp [fate, hphase]) rfl
  | exited hphase => exact hquiet (fun p => by simp [fate, hphase]) rfl
  | look hphase => exact hquiet (fun p => by simp [fate, hphase]) rfl
  | gone hphase hread =>
      refine hquiet (fun p => ?_) rfl
      simp only [fate, hphase, hread]
      split_ifs <;> simp
  | passed hphase => exact hquiet (fun p => by simp [fate, hphase]) rfl
  | unblocked hphase => exact hquiet (fun p => by simp [fate, hphase]) rfl
  | misnamed hphase => exact hquiet (fun p => by simp [fate, hphase]) rfl
  | count hphase => exact hquiet (fun p => by simp [fate, hphase]) rfl
  | shutdownCount hphase => exact hquiet (fun p => by simp [fate, hphase]) rfl

theorem signals_next {step : KillerStep} (hstep : k.next step = some k')
    (hl : signals k.trace = l.endedAs .killed) :
    signals k'.trace = (l.note k step).endedAs .killed := by
  by_cases hadvance : ∃ ans, step = .advance ans
  · obtain ⟨ans, rfl⟩ := hadvance
    exact signals_advanced (advance_cases hstep) hl
  · have hnote : l.note k step = l := by
      cases step with
      | advance ans => exact absurd ⟨ans, rfl⟩ hadvance
      | _ => rfl
    rw [hnote, ← hl]
    rcases next_cases hstep with ⟨ans, rfl, -⟩ | ⟨pid, uid, rfl⟩ | hsame
    · exact absurd ⟨ans, rfl⟩ hadvance
    · rfl
    · rw [hsame.trace]

end Killer

theorem signals_of_audited {s : Killer × Ledger} (h : auditedKiller.Reachable s) :
    signals s.1.trace = s.2.endedAs .killed := by
  induction h with
  | init hinit =>
      obtain ⟨hk, hl⟩ := hinit
      rw [hk.trace, hl]
      rfl
  | step _ _ hstep ih =>
      obtain ⟨k, hk, rfl⟩ := Option.map_eq_some_iff.mp hstep
      exact Killer.signals_next hk ih

/-! ## What the programs submit -/

namespace GateBpf

/-- A program submits one event at most, and one of a blocked uid. -/
theorem submittedBy_cases (g : GateBpf) (step : BpfStep) :
    g.submittedBy step = [] ∨
      ∃ e, g.submittedBy step = [e] ∧ bpfBlocked g.blockedUids e.uid = true := by
  unfold submittedBy
  cases hreport : g.report step with
  | none => exact .inl rfl
  | some report =>
      obtain ⟨e, reserved⟩ := report
      cases reserved with
      | false => exact .inl rfl
      | true =>
          refine .inr ⟨e, rfl, ?_⟩
          cases step with
          | binderExit uid tgid reserved =>
              simp only [GateBpf.report] at hreport
              split_ifs at hreport with h
              obtain ⟨rfl, -⟩ := Prod.mk.inj (Option.some.inj hreport)
              exact (Bool.and_eq_true_iff.mp h).2
          | uidSwitch uid tgid reserved =>
              simp only [GateBpf.report] at hreport
              split_ifs at hreport with h
              obtain ⟨rfl, -⟩ := Prod.mk.inj (Option.some.inj hreport)
              exact h
          | _ => cases hreport

/-- Only the daemon changes the block map. -/
theorem blockedUids_next {g g' : GateBpf} {step : BpfStep} (hstep : g.next step = some g')
    (hstep' : ∀ uid blocked, step ≠ .setBlocked uid blocked) :
    g'.blockedUids = g.blockedUids := by
  cases step with
  | setBlocked uid blocked => exact absurd rfl (hstep' uid blocked)
  | clock now =>
      simp only [next] at hstep
      split_ifs at hstep
      obtain rfl := Option.some.inj hstep
      rfl
  | binderEntry uid tgid handle =>
      obtain rfl := Option.some.inj hstep
      cases handle with
      | none =>
          unfold binderEntry
          split_ifs <;> rfl
      | some handle =>
          simp only [binderEntry, recentlyReported]
          split_ifs <;> rfl
  | binderExit uid tgid reserved =>
      obtain rfl := Option.some.inj hstep
      unfold binderExit emit
      simp only
      split_ifs <;> rfl
  | uidSwitch uid tgid reserved =>
      obtain rfl := Option.some.inj hstep
      unfold uidSwitch emit
      split_ifs <;> rfl

end GateBpf

/-! ## The gate in a run -/

/-- Times that do not decrease. -/
theorem inOrder_cons {e : SpawnEvent} {past : List SpawnEvent} (horder : InOrder past)
    (htime : newest past ≤ e.time) : InOrder (e :: past) := by
  refine List.pairwise_cons.mpr ⟨fun earlier hearlier => ?_, horder⟩
  cases past with
  | nil => cases hearlier
  | cons last past =>
      rcases List.mem_cons.mp hearlier with rfl | hbefore
      · exact htime
      · exact ((List.pairwise_cons.mp horder).1 earlier hbefore).trans htime

/-- What the killer thread and the others do by themselves leaves the map of the
programs alone, and queues nothing. -/
theorem Killer.kept_of_ownStep {k k' : Killer} {step : KillerStep} (hstep : k.next step = some k')
    (hown : Pipeline.ownStep step = true) :
    k'.gate.kernel = k.gate.kernel ∧ queuedMsgs k'.trace = queuedMsgs k.trace := by
  cases step with
  | send => cases hown
  | dropSender => cases hown
  | kernel => cases hown
  | advance ans => cases Killer.advance_cases hstep <;> exact ⟨rfl, rfl⟩
  | mirror =>
      obtain ⟨update, -, rfl⟩ := Option.map_eq_some_iff.mp hstep
      exact ⟨rfl, rfl⟩
  | wait ms =>
      obtain rfl := Option.some.inj hstep
      exact ⟨rfl, rfl⟩
  | _ =>
      simp only [Killer.next] at hstep
      split_ifs at hstep
      obtain rfl := Option.some.inj hstep
      exact ⟨rfl, rfl⟩

namespace Pipeline

/-- What holds in every run. -/
structure Linked (p : Pipeline) : Prop where
  audited : auditedKiller.Reachable (p.killer, p.ledger)
  shared : p.bpf.blockedUids = p.killer.gate.kernel
  events : p.submitted.map Prod.fst = p.bpf.events
  blocked : ∀ x ∈ p.submitted, bpfBlocked x.2 x.1.uid = true
  drained : p.drain = Ningshi.drain p.taken
  order : InOrder p.taken
  /-- what was submitted has been taken out in this order, or waits -/
  fifo : ∃ waiting : List BpfEvent, p.ring = waiting.map BpfEvent.item ∧
    p.bpf.events.reverse.map BpfEvent.source =
      p.taken.reverse.map SpawnEvent.source ++ waiting.map BpfEvent.source
  queued : (queuedMsgs p.killer.trace).map QueuedKill.source = p.drain.queued.map SpawnEvent.source

variable {p p' : Pipeline}

theorem linked_program (hp : p.Linked) {step : BpfStep} {g : GateBpf}
    (hother : ∀ uid blocked, step ≠ .setBlocked uid blocked) (hstep : p.bpf.next step = some g) :
    Linked { p with
      bpf := g
      ring := p.ring ++ (p.bpf.submittedBy step).map BpfEvent.item
      submitted :=
        (p.bpf.submittedBy step).map (fun e => (e, p.bpf.blockedUids)) ++ p.submitted } := by
  have hevents := (GateBpf.counted_next hstep).events
  obtain ⟨waiting, hring, hfifo⟩ := hp.fifo
  have hshared := (GateBpf.blockedUids_next hstep hother).trans hp.shared
  rcases p.bpf.submittedBy_cases step with hnone | ⟨e, hone, hblocked⟩
  · rw [hnone, List.nil_append] at hevents
    refine ⟨hp.audited, hshared, ?_, ?_, hp.drained, hp.order, ⟨waiting, ?_, ?_⟩, hp.queued⟩
    · rw [hnone, hevents]
      exact hp.events
    · rw [hnone]
      exact hp.blocked
    · rw [hnone, hring]
      exact List.append_nil _
    · rw [hevents]
      exact hfifo
  · rw [hone, List.singleton_append] at hevents
    refine ⟨hp.audited, hshared, ?_, ?_, hp.drained, hp.order, ⟨waiting ++ [e], ?_, ?_⟩, hp.queued⟩
    · rw [hone, hevents]
      exact congrArg (e :: ·) hp.events
    · rw [hone]
      exact List.forall_mem_cons.mpr ⟨hblocked, hp.blocked⟩
    · rw [hone, hring, List.map_append, List.map_singleton, List.map_singleton]
    · rw [hevents, List.reverse_cons, List.map_append, hfifo, List.map_append, List.append_assoc]

/-- A step of the killer thread or of what is around it. -/
theorem linked_killer (hp : p.Linked) {step : KillerStep} {k : Killer}
    (hstep : p.killer.next step = some k) (hshared : p.bpf.blockedUids = k.gate.kernel)
    (hqueued : queuedMsgs k.trace = queuedMsgs p.killer.trace) :
    Linked { p with killer := k, ledger := p.ledger.note p.killer step } := by
  refine ⟨?_, hshared, hp.events, hp.blocked, hp.drained, hp.order, hp.fifo, ?_⟩
  · exact .step hp.audited trivial (Option.map_eq_some_iff.mpr ⟨k, hstep, rfl⟩)
  · rw [hqueued]
    exact hp.queued

theorem linked_handle (hp : p.Linked) {time : Nat} {item : List UInt8} {rest : List (List UInt8)}
    (hring : p.ring = item :: rest) (htime : newest p.taken ≤ time)
    (hsender : p.killer.senderDropped = false) :
    Linked ({ p with ring := rest }.handle time item) := by
  obtain ⟨waiting, hwaiting, hfifo⟩ := hp.fifo
  cases waiting with
  | nil =>
      rw [hwaiting] at hring
      cases hring
  | cons e waiting =>
      rw [hwaiting] at hring
      obtain ⟨rfl, rfl⟩ := List.cons.inj hring
      unfold handle
      rw [ofItem_item]
      have horder := inOrder_cons (e := ⟨e.tgid, e.uid, time⟩) hp.order htime
      have htaken : p.bpf.events.reverse.map BpfEvent.source =
          ((⟨e.tgid, e.uid, time⟩ : SpawnEvent) :: p.taken).reverse.map SpawnEvent.source ++
            waiting.map BpfEvent.source := by
        rw [hfifo, List.reverse_cons, List.map_append, List.append_assoc]
        rfl
      have hdrained : p.drain.handle ⟨e.tgid, e.uid, time⟩ =
          Ningshi.drain (⟨e.tgid, e.uid, time⟩ :: p.taken) := by rw [Ningshi.drain, hp.drained]
      by_cases hrepeats : p.drain.repeats ⟨e.tgid, e.uid, time⟩ = true
      · have hsame : p.drain.handle ⟨e.tgid, e.uid, time⟩ = p.drain := if_pos hrepeats
        simp only [hrepeats, if_true]
        exact ⟨hp.audited, hp.shared, hp.events, hp.blocked, hdrained, horder,
          ⟨waiting, rfl, htaken⟩,
          hp.queued.trans (congrArg (fun d => d.queued.map SpawnEvent.source) hsame.symm)⟩
      · have hqueued : (p.drain.handle ⟨e.tgid, e.uid, time⟩).queued =
            ⟨e.tgid, e.uid, time⟩ :: p.drain.queued := by rw [Drain.handle, if_neg hrepeats]
        have hsent : p.killer.next (.send e.tgid e.uid) = some (p.killer.send e.tgid e.uid) := by
          simp [Killer.next, hsender]
        simp only [hrepeats]
        refine ⟨?_, hp.shared, hp.events, hp.blocked, hdrained, horder, ⟨waiting, rfl, htaken⟩, ?_⟩
        · exact .step hp.audited trivial (Option.map_eq_some_iff.mpr ⟨_, hsent, rfl⟩)
        · rw [hqueued]
          exact congrArg (_ :: ·) hp.queued

theorem linked_next {step : PipelineStep} (hp : p.Linked) (hstep : p.next step = some p') :
    p'.Linked := by
  cases step with
  | program step =>
      have hother : ∀ uid blocked, step ≠ .setBlocked uid blocked := by
        rintro uid blocked rfl
        cases hstep
      have hmap : p.next (.program step) = (p.bpf.next step).map fun g =>
          { p with
            bpf := g
            ring := p.ring ++ (p.bpf.submittedBy step).map BpfEvent.item
            submitted :=
              (p.bpf.submittedBy step).map (fun e => (e, p.bpf.blockedUids)) ++ p.submitted } := by
        cases step with
        | setBlocked uid blocked => exact absurd rfl (hother uid blocked)
        | _ => rfl
      rw [hmap] at hstep
      obtain ⟨g, hg, rfl⟩ := Option.map_eq_some_iff.mp hstep
      exact linked_program hp hother hg
  | kernel uid blocked =>
      obtain ⟨k, hk, hstep⟩ := Option.bind_eq_some_iff.mp hstep
      obtain ⟨g, hg, rfl⟩ := Option.map_eq_some_iff.mp hstep
      obtain rfl := Option.some.inj hg
      have hkernel : k.gate.kernel = applyBlock uid blocked p.killer.gate.kernel ∧
          queuedMsgs k.trace = queuedMsgs p.killer.trace := by
        simp only [Killer.next] at hk
        split_ifs at hk
        obtain rfl := Option.some.inj hk
        exact ⟨rfl, rfl⟩
      have hshared : applyBlock uid blocked p.bpf.blockedUids = k.gate.kernel := by
        rw [hkernel.1, hp.shared]
      have hmid : Linked { p with
          bpf := { p.bpf with blockedUids := applyBlock uid blocked p.bpf.blockedUids }
          killer := k } := by
        refine ⟨?_, hshared, hp.events, hp.blocked, hp.drained, hp.order, hp.fifo, ?_⟩
        · exact .step hp.audited trivial (Option.map_eq_some_iff.mpr ⟨k, hk, rfl⟩)
        · rw [hkernel.2]
          exact hp.queued
      exact hmid
  | take time =>
      simp only [next] at hstep
      split_ifs at hstep with hguard
      push Not at hguard
      split at hstep
      next => cases hstep
      next item rest hring =>
        obtain rfl := Option.some.inj hstep
        exact linked_handle hp hring hguard.2 (Bool.eq_false_iff.mpr hguard.1)
  | wake =>
      obtain ⟨k, hk, rfl⟩ := Option.map_eq_some_iff.mp hstep
      have hsame : k.gate = p.killer.gate ∧ queuedMsgs k.trace = queuedMsgs p.killer.trace := by
        simp only [Killer.next] at hk
        split_ifs at hk
        obtain rfl := Option.some.inj hk
        exact ⟨rfl, rfl⟩
      exact linked_killer hp hk (hsame.1 ▸ hp.shared) hsame.2
  | killer step =>
      simp only [next] at hstep
      split_ifs at hstep with hown
      obtain ⟨k, hk, rfl⟩ := Option.map_eq_some_iff.mp hstep
      obtain ⟨hkernel, hqueued⟩ := Killer.kept_of_ownStep hk hown
      exact linked_killer hp hk (hkernel ▸ hp.shared) hqueued

end Pipeline

theorem linked_of_reachable {p : Pipeline} (hp : pipeline.Reachable p) : p.Linked := by
  induction hp with
  | step _ _ hstep ih => exact Pipeline.linked_next ih hstep
  | init hinit =>
      refine ⟨.init ⟨hinit.killer, hinit.ledger⟩, hinit.shared, ?_, ?_, ?_, ?_, ⟨[], ?_, ?_⟩, ?_⟩
      · rw [hinit.submitted, hinit.bpf.events]
        rfl
      · simp [hinit.submitted]
      · rw [hinit.drain, hinit.taken]
        rfl
      · rw [hinit.taken]
        exact List.Pairwise.nil
      · rw [hinit.ring]
        rfl
      · rw [hinit.bpf.events, hinit.taken]
        rfl
      · rw [hinit.killer.trace, hinit.drain]
        rfl

/-- Nothing is lost, doubled or reordered between the kernel and the signal. -/
structure Pipeline.Conserves (p : Pipeline) : Prop where
  /-- only processes with a blocked uid are reported -/
  reported : p.submitted.map Prod.fst = p.bpf.events ∧
    ∀ x ∈ p.submitted, bpfBlocked x.2 x.1.uid = true
  /-- the events have been taken out in their order, or wait in the ring buffer -/
  inOrder : ∃ waiting : List BpfEvent, p.ring = waiting.map BpfEvent.item ∧
    p.bpf.events.reverse.map BpfEvent.source =
      p.taken.reverse.map SpawnEvent.source ++ waiting.map BpfEvent.source
  /-- what is queued is the first event of each burst of a pid -/
  queued : (queuedMsgs p.killer.trace).map QueuedKill.source =
    (heads spawnBursts p.taken).map SpawnEvent.source
  /-- what was queued still waits, could not be pinned, has ended in one way, or is pending -/
  accounted : (queuedMsgs p.killer.trace).Nodup ∧ (queuedMsgs p.killer.trace).Perm
    (p.killer.waiting ++ (p.ledger.refused.map Prod.fst ++
      (p.ledger.ended.map (fun e => e.1.msg) ++ p.killer.live.map PendingKill.msg)))
  /-- a signal is sent for each entry that has ended as killed -/
  killed : signals p.killer.trace = p.ledger.endedAs .killed
  /-- and answers a report of its own -/
  answers : ((signals p.killer.trace).map QueuedKill.source).Subperm
    (p.bpf.events.map BpfEvent.source)

/-- **The gate conserves what the kernel reports**, however its threads, the engine
and the processes interleave. -/
theorem gate_conserves {p : Pipeline} (hp : pipeline.Reachable p) : p.Conserves := by
  have hlinked := linked_of_reachable hp
  have haccounted : p.killer.Accounted p.ledger := accounted_of_reachable hlinked.audited
  have hsignals := signals_of_audited hlinked.audited
  have hqueued : (queuedMsgs p.killer.trace).map QueuedKill.source =
      (heads spawnBursts p.taken).map SpawnEvent.source := by
    rw [hlinked.queued, hlinked.drained, queued_drain hlinked.order]
  have hperm : (queuedMsgs p.killer.trace).Perm
      (p.killer.waiting ++ (p.ledger.refused.map Prod.fst ++
        (p.ledger.ended.map (fun e => e.1.msg) ++ p.killer.live.map PendingKill.msg))) := by
    refine haccounted.messages.trans (.append_left _ (.append_left _ ?_))
    simpa [PendingKill.pinned, Function.comp_def] using haccounted.entries.map Prod.fst
  refine ⟨⟨hlinked.events, hlinked.blocked⟩, hlinked.fifo, hqueued, ⟨haccounted.once, hperm⟩,
    hsignals, ?_⟩
  have hkilled : (signals p.killer.trace).Subperm (queuedMsgs p.killer.trace) := by
    rw [hsignals]
    refine List.Subperm.trans ?_ hperm.symm.subperm
    have hended : (p.ledger.endedAs .killed).Sublist (p.ledger.ended.map fun e => e.1.msg) :=
      List.filter_sublist.map _
    exact (hended.trans ((List.sublist_append_left _ _).trans
      ((List.sublist_append_right _ _).trans (List.sublist_append_right _ _)))).subperm
  have htaken : (p.taken.map SpawnEvent.source).Subperm (p.bpf.events.map BpfEvent.source) := by
    obtain ⟨waiting, -, hfifo⟩ := hlinked.fifo
    rw [List.map_reverse, List.map_reverse] at hfifo
    refine (List.reverse_perm _).symm.subperm.trans (List.Subperm.trans ?_
      (List.reverse_perm _).subperm)
    rw [hfifo]
    exact (List.sublist_append_left _ _).subperm
  obtain ⟨queued, hsame, hsub⟩ := hkilled
  refine (hsame.map QueuedKill.source).symm.subperm.trans
    ((hsub.map QueuedKill.source).subperm.trans ?_)
  rw [hqueued]
  exact (heads_sublist p.taken |>.map _).subperm.trans htaken

/-- A gate that has just been started, on a device with one app. -/
def gateStart : Pipeline where
  bpf := ⟨∅, .empty, .empty, fun _ => 0, 0, []⟩
  ring := []
  drain := ⟨∅, []⟩
  killer := oneTarget
  ledger := ⟨[], []⟩
  submitted := []
  taken := []

/-- The app is blocked and started, which is reported twice. -/
def reportedTwice : List PipelineStep :=
  [.kernel 10001 true, .killer .mirror,
    .killer (.setBlockIndex (FiniteMap.insertAll [(10001, ["com.game"])] ∅)),
    .program (.uidSwitch 10001 4000 true), .program (.uidSwitch 10001 4000 true), .take 0, .take 1] ++
  List.replicate 8 (.killer (.advance foreground))

theorem gate_conserves_reportedTwice :
    ∃ p, runFrom Pipeline.next reportedTwice gateStart = some p ∧
      signals p.killer.trace = [⟨0, 4000, 10001⟩] ∧ p.bpf.events.length = 2 ∧ p.Conserves := by
  have hrun : ((runFrom Pipeline.next reportedTwice gateStart).any fun p =>
      signals p.killer.trace = [⟨0, 4000, 10001⟩] ∧ p.bpf.events.length = 2) = true := by
    decide +kernel
  obtain ⟨p, hp, hend⟩ := (Option.any_eq_true _ _).mp hrun
  obtain ⟨hsignals, hevents⟩ := of_decide_eq_true hend
  have hinit : pipeline.init gateStart :=
    ⟨⟨rfl, rfl, rfl, rfl⟩, rfl, rfl, rfl, oneTarget_init, rfl, rfl, rfl⟩
  exact ⟨p, hp, hsignals, hevents, gate_conserves (System.reachable_runFrom (.init hinit) hp)⟩

end Ningshi
