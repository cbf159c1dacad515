import Ningshi.Killer

/-!
# `gate.rs`: where a queued pid is

Between being queued and being closed, a message is in one place: in the queue,
in the hands of the thread, or among the pending ones.  It is checked once at
most, and leaves that place right after (`onePlace_of_reachable`).

So what is still pending when the killer finds the other end of the queue
dropped has not been checked, and the shutdown kills it all the same
(`exists_unchecked`).
-/

namespace Ningshi

open Std SwapRemove Trace Transition

/-- The message that has been received and not pinned. -/
def KillerPhase.incoming : KillerPhase → List QueuedKill
  | .opening msg => [msg]
  | _ => []

/-- The entry that is looked at, and its index. -/
def KillerPhase.entry : KillerPhase → Option (Nat × PendingKill)
  | .reading i p => some (i, p)
  | .checking i p => some (i, p)
  | .identifying i p => some (i, p)
  | .killing i p => some (i, p)
  | .counting i p => some (i, p)
  | _ => none

/-- The message that has passed a check and is still pending. -/
def KillerPhase.passed : KillerPhase → Option QueuedKill
  | .identifying _ p => some p.msg
  | .killing _ p => some p.msg
  | .counting _ p => some p.msg
  | _ => none

namespace Killer

variable {k k' : Killer}

/-- The messages the thread has yet to deal with. -/
def held (k : Killer) : List QueuedKill :=
  k.queue ++ (k.phase.incoming ++ k.pending.map PendingKill.msg)

/-- Every held message is held once, and is unchecked unless it has just passed. -/
structure OnePlace (k : Killer) : Prop where
  nodup : k.held.Nodup
  fresh : ∀ msg ∈ k.held, msg.id < k.nextId
  past : ∀ msg found, .checked msg found ∈ k.trace → msg.id < k.nextId
  unchecked : ∀ msg found, .checked msg found ∈ k.trace → msg ∈ k.held →
    k.phase.passed = some msg
  entry : ∀ i p, k.phase.entry = some (i, p) → k.pending[i]? = some p

theorem mem_held {k : Killer} {msg : QueuedKill} :
    msg ∈ k.held ↔ msg ∈ k.queue ∨ msg ∈ k.phase.incoming ∨ ∃ p ∈ k.pending, p.msg = msg := by
  simp only [held, List.mem_append, List.mem_map]

/-- Taking an entry out of `pending` takes its message away. -/
theorem held_swapRemove {i : Nat} {p : PendingKill} (hentry : k.pending[i]? = some p) :
    k.held.Perm (p.msg :: (k.swapRemove i).held) := by
  obtain ⟨hi, hp⟩ := List.getElem?_eq_some_iff.mp hentry
  have hpending : k.pending.Perm (p :: SwapRemove.swapRemove k.pending i) := by
    refine ((List.getElem_cons_eraseIdx_perm hi).symm.trans ?_)
    rw [hp]
    exact (swapRemove_perm hi).symm.cons p
  have hmessages := hpending.map PendingKill.msg
  exact ((hmessages.append_left _).append_left _).trans
    (((List.perm_middle).append_left _).trans List.perm_middle)

namespace OnePlace

/-- A step that adds nothing to what is held and checks nothing. -/
theorem shrink (hk : OnePlace k) (hheld : k'.held.Subperm k.held) (hnext : k'.nextId = k.nextId)
    (htrace : ∀ msg found, .checked msg found ∈ k'.trace → .checked msg found ∈ k.trace)
    (hpassed : ∀ msg ∈ k'.held, k.phase.passed = some msg → k'.phase.passed = some msg)
    (hentry : ∀ i p, k'.phase.entry = some (i, p) → k'.pending[i]? = some p) : OnePlace k' := by
  refine ⟨?_, fun msg hmsg => ?_, fun msg found h => ?_, fun msg found h hmsg => ?_, hentry⟩
  · obtain ⟨l, hperm, hsub⟩ := hheld
    exact hperm.nodup_iff.mp (hk.nodup.sublist hsub)
  · rw [hnext]
    exact hk.fresh msg (hheld.subset hmsg)
  · rw [hnext]
    exact hk.past msg found (htrace msg found h)
  · exact hpassed msg hmsg (hk.unchecked msg found (htrace msg found h) (hheld.subset hmsg))

/-- An entry is taken out. -/
theorem remove (hk : OnePlace k) {phase : KillerPhase} {i : Nat} {p : PendingKill}
    (hphase : k.phase = phase) (hentry : k.pending[i]? = some p) (hincoming : phase.incoming = [])
    (hpassed : phase.passed = none ∨ phase.passed = some p.msg) : OnePlace (k.remove i) := by
  subst hphase
  have hperm := held_swapRemove hentry
  have hheld : (k.remove i).held = (k.swapRemove i).held := by
    show _ ++ ([] ++ _) = _ ++ (k.phase.incoming ++ _)
    rw [hincoming]
    rfl
  have hgone : p.msg ∉ (k.swapRemove i).held :=
    (List.nodup_cons.mp (hperm.nodup_iff.mp hk.nodup)).1
  refine hk.shrink ?_ rfl (fun _ _ h => h) (fun msg hmsg h => ?_)
    (by simp [Killer.remove, goto, KillerPhase.entry])
  · rw [hheld]
    exact ((List.sublist_cons_self _ _).subperm).trans hperm.symm.subperm
  · rcases hpassed with hnone | hsome
    · exact absurd (hnone.symm.trans h) (by simp)
    · obtain rfl := Option.some.inj (hsome.symm.trans h)
      exact absurd (hheld ▸ hmsg) hgone

/-- The thread goes on to a phase that is about the same entry, or about none. -/
theorem goto (hk : OnePlace k) {phase phase' : KillerPhase} (hphase : k.phase = phase)
    (hincoming : phase'.incoming = phase.incoming)
    (hpassed : phase.passed = none ∨ phase'.passed = phase.passed)
    (hentry : phase'.entry = none ∨ phase'.entry = phase.entry) : OnePlace (k.goto phase') := by
  subst hphase
  refine hk.shrink ?_ rfl (fun _ _ h => h) (fun msg _ h => ?_) fun i p h => ?_
  · rw [held, Killer.goto, hincoming]
    exact .refl _
  · rcases hpassed with hnone | hsame
    · exact absurd (hnone.symm.trans h) (by simp)
    · exact hsame.trans h
  · rcases hentry with hnone | hsame
    · exact absurd (hnone.symm.trans h) (by simp)
    · exact hk.entry i p (hsame.symm.trans h)

theorem record (hk : OnePlace k) (act : Act) (hact : ∀ msg found, act ≠ .checked msg found) :
    OnePlace (k.record act) :=
  hk.shrink (.refl _) rfl
    (fun msg found h => (List.mem_cons.mp h).resolve_left (hact msg found).symm)
    (fun _ _ h => h) hk.entry

/-- An entry is copied out of `pending`. -/
theorem look (hk : OnePlace k) {i : Nat} {p : PendingKill} (hphase : k.phase = .polling i)
    (hentry : k.pending[i]? = some p) : OnePlace (k.goto (.reading i p)) := by
  refine hk.shrink ?_ rfl (fun _ _ h => h) (fun msg _ h => ?_) fun j q h => ?_
  · rw [held, held, hphase]
    exact .refl _
  · rw [hphase] at h
    cases h
  · obtain ⟨rfl, rfl⟩ := Prod.mk.inj (Option.some.inj h)
    exact hentry

theorem receive (hk : OnePlace k) {msg : QueuedKill} {rest : List QueuedKill}
    (hqueue : k.queue = msg :: rest) (hincoming : k.phase.incoming = [])
    (hpassed : k.phase.passed = none) :
    OnePlace ({ k with queue := rest }.goto (.opening msg)) := by
  refine hk.shrink ?_ rfl (fun _ _ h => h) (fun m _ h => ?_)
    (by simp [Killer.goto, KillerPhase.entry])
  · rw [held, held, hqueue, hincoming]
    exact List.perm_middle.subperm
  · rw [hpassed] at h
    cases h

/-- A process is pinned, or its message is dropped because it has gone. -/
theorem pidfdOpen (hk : OnePlace k) {msg : QueuedKill} (hphase : k.phase = .opening msg) (fd : Nat)
    (pinned : Pidfd) : OnePlace ((k.pidfdOpen fd pinned msg).goto .draining) := by
  refine hk.shrink ?_ rfl (fun m found h => ?_) (fun m _ h => ?_)
    (by simp [Killer.goto, KillerPhase.entry])
  · rw [held, held, hphase]
    simp only [Killer.goto, Killer.pidfdOpen, KillerPhase.incoming, List.map_append, List.map_cons,
      List.map_nil, List.nil_append]
    exact ((List.perm_append_comm).append_left _).subperm
  · exact (List.mem_cons.mp h).resolve_left (by simp)
  · rw [hphase] at h
    cases h

theorem unopened (hk : OnePlace k) {msg : QueuedKill} (hphase : k.phase = .opening msg) :
    OnePlace (k.goto .draining) := by
  refine hk.shrink ?_ rfl (fun _ _ h => h) (fun m _ h => ?_)
    (by simp [Killer.goto, KillerPhase.entry])
  · rw [held, held, hphase]
    exact ((List.sublist_cons_self _ _).append_left _).subperm
  · rw [hphase] at h
    cases h

/-- The check is the first one of its message. -/
theorem check (hk : OnePlace k) {i : Nat} {p : PendingKill} (hphase : k.phase = .checking i p)
    (found : Bool) : OnePlace ((k.record (.checked p.msg found)).goto (.identifying i p)) := by
  have hentry : k.pending[i]? = some p := hk.entry i p (by rw [hphase]; rfl)
  have hheld : ((k.record (.checked p.msg found)).goto (.identifying i p)).held = k.held := by
    rw [held, held, hphase]
    rfl
  have hmsg : p.msg ∈ k.held :=
    mem_held.mpr (.inr (.inr ⟨p, List.mem_of_getElem? hentry, rfl⟩))
  refine ⟨hheld ▸ hk.nodup, hheld ▸ hk.fresh, fun msg b h => ?_, fun msg b h hm => ?_,
    fun j q h => ?_⟩
  · rcases List.mem_cons.mp h with heq | h
    · obtain ⟨rfl, -⟩ := Act.checked.inj heq
      exact hk.fresh p.msg hmsg
    · exact hk.past msg b h
  · rcases List.mem_cons.mp h with heq | h
    · obtain ⟨rfl, -⟩ := Act.checked.inj heq
      rfl
    · have hold := hk.unchecked msg b h (hheld ▸ hm)
      rw [hphase] at hold
      cases hold
  · obtain ⟨rfl, rfl⟩ := Prod.mk.inj (Option.some.inj h)
    exact hentry

theorem close (hk : OnePlace k) (fd : Nat) : OnePlace (k.close fd) := by
  have h := hk.record (.closed fd) (by simp)
  exact ⟨h.nodup, h.fresh, h.past, h.unchecked, h.entry⟩

theorem pidfdKill (hk : OnePlace k) (msg : QueuedKill) (fd : Nat) :
    OnePlace (k.pidfdKill msg fd) :=
  (hk.record _ (by simp)).close fd

theorem count (hk : OnePlace k) (msg : QueuedKill) : OnePlace (k.count msg) := by
  have h := hk.record (.counted msg) (by simp)
  exact ⟨h.nodup, h.fresh, h.past, h.unchecked, h.entry⟩

end OnePlace

theorem onePlace_goesOn {ans : Answers} {phase phase' : KillerPhase} (hk : OnePlace k)
    (hphase : k.phase = phase) (h : GoesOn k ans phase phase') : OnePlace (k.goto phase') := by
  cases h with
  | unopened => exact hk.unopened hphase
  | due => exact hk.goto hphase rfl (.inr rfl) (.inr rfl)
  | identified => exact hk.goto hphase rfl (.inr rfl) (.inr rfl)
  | _ => exact hk.goto hphase rfl (.inl rfl) (.inl rfl)

/-- **A step of the thread.** -/
theorem onePlace_advance {ans : Answers} (hk : OnePlace k) (hstep : Advanced k ans k') :
    OnePlace k' := by
  have hentry := hk.entry
  cases hstep with
  | goesOn hphase hnext => exact onePlace_goesOn hk hphase hnext
  | receive hphase hqueue =>
      rcases hphase with hphase | hphase <;>
        exact hk.receive hqueue (by rw [hphase]; rfl) (by rw [hphase]; rfl)
  | disconnect hphase _ _ => exact hk.goto hphase rfl (.inl rfl) (.inl rfl)
  | @pin msg fd pinned hphase _ _ => exact hk.pidfdOpen hphase fd pinned
  | @exited i p hphase hpending _ =>
      exact ((hk.record _ (by simp)).close p.pidfd).remove hphase hpending rfl (.inl rfl)
  | look hphase hpending _ => exact (hk.record _ (by simp)).look hphase hpending
  | @gone i p hphase _ =>
      rw [hphase] at hentry
      exact (hk.close p.pidfd).remove hphase (hentry i p rfl) rfl (.inl rfl)
  | passed hphase _ => exact hk.check hphase true
  | @unblocked i p hphase _ =>
      rw [hphase] at hentry
      -- had it passed, it would be taken out like this as well
      have hgone :=
        ((hk.check hphase false).close p.pidfd).remove rfl (hentry i p rfl) rfl (.inr rfl)
      exact ⟨hgone.nodup, hgone.fresh, hgone.past, hgone.unchecked, hgone.entry⟩
  | @misnamed i p hphase _ =>
      rw [hphase] at hentry
      have hgone := (hk.close p.pidfd).remove hphase (hentry i p rfl) rfl (.inr rfl)
      exact ⟨hgone.nodup, hgone.fresh, hgone.past, hgone.unchecked, hgone.entry⟩
  | @kill i p hphase =>
      exact (hk.pidfdKill p.msg p.pidfd).goto hphase rfl (.inr rfl) (.inr rfl)
  | @count i p hphase =>
      rw [hphase] at hentry
      exact (hk.count p.msg).remove hphase (hentry i p rfl) rfl (.inr rfl)
  | @shutdownKill p rest hphase hpending =>
      have hrest : OnePlace { k with pending := rest } := by
        refine hk.shrink ?_ rfl (fun _ _ h => h) (fun _ _ h => h)
          (by simp [hphase, KillerPhase.entry])
        rw [held, held, hpending]
        exact (((List.sublist_cons_self _ _).append_left _).append_left _).subperm
      exact (hrest.pidfdKill p.msg p.pidfd).goto hphase rfl (.inl rfl) (.inl rfl)
  | @shutdownCount p hphase => exact (hk.count p.msg).goto hphase rfl (.inl rfl) (.inl rfl)
  | finish hphase _ => exact hk.goto hphase rfl (.inl rfl) (.inl rfl)

theorem onePlace_send (hk : OnePlace k) (pid : UInt32) (uid : Uid) :
    OnePlace (k.send pid uid) := by
  let msg : QueuedKill := ⟨k.nextId, pid, uid⟩
  have hperm : (k.send pid uid).held.Perm (msg :: k.held) := by
    show ((k.queue ++ [msg]) ++ _).Perm (msg :: (k.queue ++ _))
    rw [List.append_assoc]
    exact List.perm_middle
  have hnew : msg ∉ k.held := fun h => Nat.lt_irrefl _ (hk.fresh msg h)
  have hqueued (m : QueuedKill) (found : Bool) (h : .checked m found ∈ (k.send pid uid).trace) :
      .checked m found ∈ k.trace := (List.mem_cons.mp h).resolve_left (by simp)
  refine ⟨?_, fun m hm => ?_, fun m found h => ?_, fun m found h hm => ?_, hk.entry⟩
  · exact hperm.nodup_iff.mpr (List.nodup_cons.mpr ⟨hnew, hk.nodup⟩)
  · rcases List.mem_cons.mp (hperm.subset hm) with rfl | hm
    · exact Nat.lt_succ_self _
    · exact Nat.lt_succ_of_lt (hk.fresh m hm)
  · exact Nat.lt_succ_of_lt (hk.past m found (hqueued m found h))
  · rcases List.mem_cons.mp (hperm.subset hm) with rfl | hm
    · exact absurd (hk.past _ found (hqueued _ found h)) (Nat.lt_irrefl _)
    · exact hk.unchecked m found (hqueued m found h) hm

/-- **A step**, of the thread or around it. -/
theorem onePlace_next {step : KillerStep} (hk : OnePlace k) (hstep : k.next step = some k') :
    OnePlace k' := by
  rcases next_cases hstep with ⟨ans, -, hadvanced⟩ | ⟨pid, uid, rfl⟩ | hsame
  · exact onePlace_advance hk hadvanced
  · exact onePlace_send hk pid uid
  · have hheld : k'.held = k.held := by rw [held, held, hsame.queue, hsame.phase, hsame.pending]
    exact ⟨hheld ▸ hk.nodup, hheld ▸ hsame.nextId ▸ hk.fresh,
      hsame.trace ▸ hsame.nextId ▸ hk.past,
      hheld ▸ hsame.trace ▸ hsame.phase ▸ hk.unchecked, hsame.phase ▸ hsame.pending ▸ hk.entry⟩

end Killer

/-- In every run, each held message is in one place, unchecked or just checked. -/
theorem onePlace_of_reachable {k : Killer} (hk : killerThread.Reachable k) : k.OnePlace := by
  induction hk with
  | step _ _ hstep ih => exact Killer.onePlace_next ih hstep
  | @init s hs =>
      have hheld : s.held = [] := by
        rw [Killer.held, hs.queue, hs.phase, hs.pending]
        rfl
      refine ⟨hheld ▸ List.nodup_nil, fun msg hmsg => ?_, fun msg found h => ?_,
        fun msg found h => ?_, fun i p h => ?_⟩
      · rw [hheld] at hmsg
        cases hmsg
      · rw [hs.trace] at h
        cases h
      · rw [hs.trace] at h
        cases h
      · rw [hs.phase] at h
        cases h

/-- **Whatever is pending when the thread finds the other end of the queue
dropped** is killed unchecked. -/
theorem exists_unchecked {k : Killer} {step : KillerStep} (hk : killerThread.Reachable k)
    (h : ¬ DisconnectsIdle k step) :
    ∃ k', killerThread.Reachable k' ∧ ¬ Always KillChecked k'.trace := by
  cases step with
  | advance ans =>
      simp only [DisconnectsIdle, Classical.not_imp] at h
      obtain ⟨hphase, hqueue, hdropped, hpending⟩ := h
      obtain ⟨p, rest, hcons⟩ := List.exists_cons_of_ne_nil hpending
      have hfirst : k.next (.advance ans) = some (k.goto .shutdown) := by
        simp only [Killer.next, Killer.advance, hphase, hqueue, hdropped, if_true]
      have hsecond : (k.goto .shutdown).next (.advance ans) =
          some (({ k.goto .shutdown with pending := rest }.pidfdKill p.msg p.pidfd).goto
            (.shutdownCounting p)) := by
        simp only [Killer.next, Killer.advance, Killer.goto, hcons]
      have hshutdown : killerThread.Reachable (k.goto .shutdown) := .step hk trivial hfirst
      refine ⟨_, .step hshutdown trivial hsecond, fun halways => ?_⟩
      have hchecked := ((always_cons.mp (always_cons.mp halways).2).1 p.msg p.pidfd _ rfl).mem
      have hheld : p.msg ∈ k.held :=
        Killer.mem_held.mpr (.inr (.inr ⟨p, hcons ▸ List.mem_cons_self, rfl⟩))
      have hpassed := (onePlace_of_reachable hk).unchecked p.msg true hchecked hheld
      rw [hphase] at hpassed
      cases hpassed
  | _ => exact absurd trivial h

end Ningshi
