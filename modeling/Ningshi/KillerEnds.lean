import Ningshi.Descriptors

/-!
# `gate.rs`: the killer thread gets on

Whatever the other threads do in between, a pass over `pending` comes to its end,
and the process that has been pinned for 300 ms when it begins is not pending any
more when it ends (`overdue_leave`).

When the gate is dropped, the other end of the queue goes.  Then the thread works
off what is queued and pending and ends, after a number of steps that is bounded
by how much that is (`killer_ends`): the join in `Drop` returns.
-/

namespace Ningshi

open Std SwapRemove Transition

/-- A step of the thread itself. -/
def KillerStep.isAdvance : KillerStep → Bool
  | .advance _ => true
  | _ => false

namespace Killer

/-- A pass over `pending` ends when the thread looks at the queue again. -/
def passNext (k : Killer) (step : KillerStep) : Option Killer :=
  if k.phase = .receiving then none else k.next step

/-- The entries a pass has passed by. -/
def behind (k : Killer) : List PendingKill :=
  match k.phase.cursor with
  | some (i, _) => k.pending.take i
  | none => k.pending

section Overdue

variable {k k' : Killer} {ans : Answers} {start : Nat}

theorem clock_advanced (h : Advanced k ans k') : k'.clock = k.clock := by
  cases h <;> rfl

theorem clock_next {step : KillerStep} (hstep : k.next step = some k') : k.clock ≤ k'.clock := by
  cases step with
  | advance ans => exact (clock_advanced (advance_cases hstep)).ge
  | wait ms =>
      obtain rfl := Option.some.inj hstep
      exact Nat.le_add_right _ _
  | mirror =>
      obtain ⟨update, -, rfl⟩ := Option.map_eq_some_iff.mp hstep
      exact Nat.le_refl _
  | _ =>
      simp only [next] at hstep
      split_ifs at hstep
      obtain rfl := Option.some.inj hstep
      exact Nat.le_refl _

theorem behind_of_cursor {i : Nat} {examined : Bool}
    (hcursor : k.phase.cursor = some (i, examined)) : k.behind = k.pending.take i := by
  unfold behind
  rw [hcursor]

/-- What was behind stays behind when the entry at the cursor is taken out. -/
theorem behind_remove {mid : Killer} (hmid : mid.pending = k.pending) {i : Nat} {examined : Bool}
    {p : PendingKill} (hcursor : k.phase.cursor = some (i, examined))
    (hentry : k.pending[i]? = some p) : (mid.remove i).behind = k.behind := by
  obtain ⟨hi, -⟩ := List.getElem?_eq_some_iff.mp hentry
  rw [behind_of_cursor hcursor, behind_of_cursor (k := mid.remove i) rfl]
  show (SwapRemove.swapRemove mid.pending i).take i = _
  rw [hmid, take_swapRemove hi]

/-- **Only what is not due is passed by.** -/
theorem behind_advanced (hk : OnePlace k) (hcursor : k.phase.cursor ≠ none)
    (hstart : start ≤ k.clock) (hstep : Advanced k ans k')
    (hbehind : ∀ p ∈ k.behind, start < p.started + timeoutMs) :
    ∀ p ∈ k'.behind, start < p.started + timeoutMs := by
  have hentry {phase : KillerPhase} (hphase : k.phase = phase) {i : Nat} {p : PendingKill}
      (h : phase.entry = some (i, p)) : k.pending[i]? = some p := hk.entry i p (hphase ▸ h)
  have hat {phase : KillerPhase} (hphase : k.phase = phase) {i : Nat} {examined : Bool}
      (h : phase.cursor = some (i, examined)) : k.phase.cursor = some (i, examined) := hphase ▸ h
  -- the cursor stays, and what is pending as well
  have hstay {i : Nat} {examined examined' : Bool} (h : k.phase.cursor = some (i, examined))
      (h' : k'.phase.cursor = some (i, examined')) (hpending : k'.pending = k.pending) :
      ∀ p ∈ k'.behind, start < p.started + timeoutMs := by
    rw [behind_of_cursor h', hpending, ← behind_of_cursor h]
    exact hbehind
  have hleave {mid : Killer} (hmid : mid.pending = k.pending) {i : Nat} {examined : Bool}
      {p : PendingKill} (h : k.phase.cursor = some (i, examined)) (hp : k.pending[i]? = some p) :
      ∀ p ∈ (mid.remove i).behind, start < p.started + timeoutMs := by
    rw [behind_remove hmid h hp]
    exact hbehind
  cases hstep with
  | goesOn hphase hnext =>
      cases hnext with
      | wrap i hend =>
          have hall : k.behind = k.pending := by
            rw [behind_of_cursor (hat hphase rfl), List.take_of_length_le]
            exact List.getElem?_eq_none_iff.mp hend
          rw [hall] at hbehind
          exact hbehind
      | later i p hread hdue =>
          obtain ⟨hi, hp⟩ := List.getElem?_eq_some_iff.mp (hentry hphase rfl)
          have hbehind' : (k.goto (.polling (i + 1))).behind = k.behind ++ [p] := by
            rw [behind_of_cursor (hat hphase rfl), behind_of_cursor (k := k.goto _) rfl, ← hp]
            exact List.take_succ_eq_append_getElem hi
          intro q hq
          rw [hbehind', List.mem_append, List.mem_singleton] at hq
          rcases hq with hq | rfl
          · exact hbehind q hq
          · have hearly : ¬ timeoutMs ≤ k.clock - q.started := fun h => hdue (.inr h)
            omega
      | due i p => exact hstay (hat hphase rfl) rfl rfl
      | identified i p => exact hstay (hat hphase rfl) rfl rfl
      | timeout => exact absurd (by rw [hphase]; rfl) hcursor
      | unopened => exact absurd (by rw [hphase]; rfl) hcursor
      | drained => exact absurd (by rw [hphase]; rfl) hcursor
  | receive hphase _ =>
      rcases hphase with h | h <;> exact absurd (by rw [h]; rfl) hcursor
  | disconnect hphase _ _ => exact absurd (by rw [hphase]; rfl) hcursor
  | pin hphase _ _ => exact absurd (by rw [hphase]; rfl) hcursor
  | exited hphase hpending _ => exact hleave rfl (hat hphase rfl) hpending
  | look hphase _ _ => exact hstay (hat hphase rfl) rfl rfl
  | gone hphase _ => exact hleave rfl (hat hphase rfl) (hentry hphase rfl)
  | passed hphase _ => exact hstay (hat hphase rfl) rfl rfl
  | unblocked hphase _ => exact hleave rfl (hat hphase rfl) (hentry hphase rfl)
  | misnamed hphase _ => exact hleave rfl (hat hphase rfl) (hentry hphase rfl)
  | kill hphase => exact hstay (hat hphase rfl) rfl rfl
  | count hphase => exact hleave rfl (hat hphase rfl) (hentry hphase rfl)
  | shutdownKill hphase _ => exact absurd (by rw [hphase]; rfl) hcursor
  | shutdownCount hphase => exact absurd (by rw [hphase]; rfl) hcursor
  | finish hphase _ => exact absurd (by rw [hphase]; rfl) hcursor

/-- What holds within a pass that began at `start`. -/
structure InPass (start : Nat) (k : Killer) : Prop where
  reachable : killerThread.Reachable k
  within : k.phase.cursor ≠ none ∨ k.phase = .receiving
  later : start ≤ k.clock
  behind : ∀ p ∈ k.behind, start < p.started + timeoutMs

/-- **A step within a pass.** -/
theorem InPass.next (hk : InPass start k) {step : KillerStep} (hstep : k.passNext step = some k') :
    InPass start k' ∧ k'.passSteps + (if step.isAdvance then 1 else 0) ≤ k.passSteps := by
  unfold passNext at hstep
  split_ifs at hstep with hphase
  have hcursor := hk.within.resolve_right hphase
  have hplace := onePlace_of_reachable hk.reachable
  have hreachable : killerThread.Reachable k' := .step hk.reachable trivial hstep
  have hclock := hk.later.trans (clock_next hstep)
  have hother (hphase : k'.phase = k.phase) (hpending : k'.pending = k.pending) :
      InPass start k' ∧ k'.passSteps = k.passSteps := by
    have hbehind : k'.behind = k.behind := by rw [Killer.behind, Killer.behind, hphase, hpending]
    refine ⟨⟨hreachable, .inl (hphase ▸ hcursor), hclock, hbehind ▸ hk.behind⟩, ?_⟩
    rw [passSteps, passSteps, hphase, hpending]
  cases hadvance : step.isAdvance with
  | true =>
      cases step <;> cases hadvance
      have hadvanced := advance_cases hstep
      exact ⟨⟨hreachable, (ahead_advance hplace hcursor hadvanced).1, hclock,
        behind_advanced hplace hcursor hk.later hadvanced hk.behind⟩,
        passSteps_advance hplace hcursor hadvanced⟩
  | false =>
      rcases next_cases hstep with ⟨ans, rfl, -⟩ | ⟨pid, uid, rfl⟩ | hsame
      · cases hadvance
      · obtain ⟨hk', hsteps⟩ := hother rfl rfl
        exact ⟨hk', hsteps.le⟩
      · obtain ⟨hk', hsteps⟩ := hother hsame.phase hsame.pending
        exact ⟨hk', hsteps.le⟩

/-- **A pass**, from its beginning. -/
theorem inPass_of_run {k₀ : Killer} {steps : List KillerStep} (hk₀ : killerThread.Reachable k₀)
    (hbegin : k₀.phase = .polling 0) (hrun : runFrom passNext steps k₀ = some k) :
    InPass k₀.clock k ∧
      k.passSteps + steps.countP KillerStep.isAdvance ≤ 6 * k₀.pending.length + 1 := by
  have hcursor₀ : k₀.phase.cursor = some (0, false) := by rw [hbegin]; rfl
  have hbehind₀ : k₀.behind = [] := by rw [behind_of_cursor hcursor₀, List.take_zero]
  have hpass₀ : InPass k₀.clock k₀ :=
    ⟨hk₀, .inl (by simp [hcursor₀]), Nat.le_refl _, by simp [hbehind₀]⟩
  have hsteps₀ : k₀.passSteps = 6 * k₀.pending.length + 1 := by
    rw [passSteps, hbegin]
    simp
  rw [← hsteps₀]
  exact runFrom_measure (fun _ _ _ hk hstep => InPass.next hk hstep) hpass₀ hrun

/-- The overdue are not among the entries that a pass leaves. -/
theorem InPass.not_overdue (hk : InPass start k) (hend : k.phase = .receiving) :
    ∀ p ∈ k.pending, start < p.started + timeoutMs := by
  have hall : k.behind = k.pending := by rw [Killer.behind, hend]; rfl
  exact hall ▸ hk.behind

end Overdue

end Killer

/-- **What is overdue when a pass begins is not pending when it ends**, and the pass
does come to its end: it takes six steps of the thread for each entry, and never
waits. -/
theorem overdue_leave {k₀ k : Killer} {steps : List KillerStep} (hk₀ : killerThread.Reachable k₀)
    (hbegin : k₀.phase = .polling 0) (hrun : runFrom Killer.passNext steps k₀ = some k) :
    (k.phase = .receiving → ∀ p ∈ k.pending, k₀.clock < p.started + 300) ∧
      (k.phase ≠ .receiving → ∀ ans, (k.advance ans).isSome = true) ∧
      steps.countP KillerStep.isAdvance ≤ 6 * k₀.pending.length + 1 := by
  obtain ⟨hpass, hbound⟩ := Killer.inPass_of_run hk₀ hbegin hrun
  refine ⟨hpass.not_overdue, fun hphase ans => ?_, by omega⟩
  obtain ⟨k', hstep⟩ := Killer.advance_of_cursor (hpass.within.resolve_right hphase) ans
  rw [hstep]
  rfl

/-- A process that does not come to the foreground. -/
def background : Answers := { foreground with oomScoreAdj := some 900 }

/-- The pass that begins 300 ms after a launch. -/
theorem overdue_leave_launch :
    ∃ k₀, runFrom Killer.next (launch ++ List.replicate 3 (.advance background) ++ [.wait 300])
        oneTarget = some k₀ ∧
      ∃ k, runFrom Killer.passNext (List.replicate 7 (.advance background)) k₀ = some k ∧
        ∀ p ∈ k.pending, k₀.clock < p.started + 300 := by
  have hrun : ((runFrom Killer.next
      (launch ++ List.replicate 3 (.advance background) ++ [.wait 300]) oneTarget).any fun k₀ =>
        k₀.phase = .polling 0 &&
          (runFrom Killer.passNext (List.replicate 7 (.advance background)) k₀).any
            fun k => k.phase = .receiving) = true := by decide +kernel
  obtain ⟨k₀, hk₀, hpass⟩ := (Option.any_eq_true _ _).mp hrun
  obtain ⟨hbegin, hend⟩ := Bool.and_eq_true_iff.mp hpass
  obtain ⟨k, hk, hphase⟩ := (Option.any_eq_true _ _).mp hend
  have hreachable := System.reachable_runFrom (.init oneTarget_init) hk₀
  exact ⟨k₀, hk₀, k, hk,
    (overdue_leave hreachable (of_decide_eq_true hbegin) hk).1 (of_decide_eq_true hphase)⟩

/-! ## The end of the thread -/

namespace Killer

/-- The steps that are left when a pass is over: what is queued is pinned, another
pass goes over it, and what is still pending then is killed. -/
def stepsAfterPass (k : Killer) : Nat :=
  if k.queue = [] then 2 * k.pending.length + 2
  else 10 * k.queue.length + 8 * k.pending.length + 4

/-- How many steps of the thread are left at most when nothing more is queued. -/
def stepsLeft (k : Killer) : Nat :=
  match k.phase with
  | .opening _ => 10 * k.queue.length + 8 * k.pending.length + 13
  | .draining => 10 * k.queue.length + 8 * k.pending.length + 4
  | .shutdown => 2 * k.pending.length + 1
  | .shutdownCounting _ => 2 * k.pending.length + 2
  | .done => 0
  | _ => k.passSteps + k.stepsAfterPass

section Ends

variable {k k' : Killer} {ans : Answers}

theorem stepsLeft_of_pass (h : k.phase.cursor ≠ none ∨ k.phase = .receiving) :
    k.stepsLeft = k.passSteps + k.stepsAfterPass := by
  unfold stepsLeft
  cases hphase : k.phase <;> simp_all [KillerPhase.cursor]

theorem stepsLeft_le (k : Killer) :
    k.stepsLeft ≤ 10 * k.queue.length + 14 * k.pending.length + 13 := by
  have hafter : k.stepsAfterPass ≤ 10 * k.queue.length + 8 * k.pending.length + 4 := by
    unfold stepsAfterPass
    split_ifs <;> omega
  unfold stepsLeft passSteps
  cases k.phase <;> simp only <;> omega

/-- A step within a pass takes nothing from the queue and pins nothing. -/
theorem pass_keeps (hcursor : k.phase.cursor ≠ none) (hentry : ∀ i p,
      k.phase.entry = some (i, p) → k.pending[i]? = some p) (hstep : Advanced k ans k') :
    k'.queue = k.queue ∧ k'.pending.length ≤ k.pending.length := by
  have hremove {mid : Killer} (hmid : mid.pending = k.pending) {i : Nat} {p : PendingKill}
      (h : k.pending[i]? = some p) : (mid.remove i).pending.length ≤ k.pending.length := by
    have hlength : (mid.remove i).pending.length + 1 = mid.pending.length :=
      length_swapRemove (hmid ▸ (List.getElem?_eq_some_iff.mp h).1)
    rw [hmid] at hlength
    omega
  have hat {phase : KillerPhase} (hphase : k.phase = phase) {i : Nat} {p : PendingKill}
      (h : phase.entry = some (i, p)) : k.pending[i]? = some p := hentry i p (hphase ▸ h)
  cases hstep with
  | receive hphase _ =>
      rcases hphase with h | h <;> exact absurd (by rw [h]; rfl) hcursor
  | pin hphase _ _ => exact absurd (by rw [hphase]; rfl) hcursor
  | shutdownKill hphase _ => exact absurd (by rw [hphase]; rfl) hcursor
  | exited hphase hpending _ => exact ⟨rfl, hremove rfl hpending⟩
  | gone hphase _ => exact ⟨rfl, hremove rfl (hat hphase rfl)⟩
  | unblocked hphase _ => exact ⟨rfl, hremove rfl (hat hphase rfl)⟩
  | misnamed hphase _ => exact ⟨rfl, hremove rfl (hat hphase rfl)⟩
  | count hphase => exact ⟨rfl, hremove rfl (hat hphase rfl)⟩
  | _ => exact ⟨rfl, Nat.le_refl _⟩

/-- **Once nothing more is queued, every step of the thread brings its end closer.** -/
theorem stepsLeft_advance (hk : OnePlace k) (hdropped : k.senderDropped = true)
    (hstep : k.advance ans = some k') : k'.stepsLeft < k.stepsLeft := by
  have hadvanced := advance_cases hstep
  by_cases hcursor : k.phase.cursor = none
  · have hpass {phase : KillerPhase} (hphase : k.phase = phase) (h : phase.cursor ≠ none) :
        k'.stepsLeft < k.stepsLeft := absurd (hphase ▸ hcursor) h
    cases hadvanced with
    | goesOn hphase hnext =>
        cases hnext with
        | unopened => simp [stepsLeft, goto, hphase]
        | drained hqueue =>
            simp only [stepsLeft, stepsAfterPass, passSteps, goto, hphase, hqueue, if_true,
              List.length_nil]
            omega
        | timeout hqueue =>
            -- the thread would have seen the sender gone
            simp only [advance, hphase, hqueue, hdropped, if_true, Option.some.injEq] at hstep
            have hshutdown := congrArg Killer.phase hstep
            simp [goto] at hshutdown
        | wrap => exact hpass hphase (by simp [KillerPhase.cursor])
        | due => exact hpass hphase (by simp [KillerPhase.cursor])
        | later => exact hpass hphase (by simp [KillerPhase.cursor])
        | identified => exact hpass hphase (by simp [KillerPhase.cursor])
    | receive hphase hqueue =>
        rcases hphase with hphase | hphase <;>
          simp only [stepsLeft, stepsAfterPass, passSteps, goto, hphase, hqueue, reduceCtorEq,
            if_false, List.length_cons] <;> omega
    | disconnect hphase hqueue _ =>
        simp only [stepsLeft, stepsAfterPass, passSteps, goto, hphase, hqueue, if_true]
        omega
    | pin hphase _ _ =>
        simp only [stepsLeft, goto, pidfdOpen, hphase, List.length_append, List.length_singleton]
        omega
    | shutdownKill hphase hpending =>
        simp only [stepsLeft, goto, pidfdKill, close, record, hphase, hpending, List.length_cons]
        omega
    | shutdownCount hphase => simp [stepsLeft, goto, count, hphase]
    | finish hphase hpending => simp [stepsLeft, goto, hphase]
    | exited hphase => exact hpass hphase (by simp [KillerPhase.cursor])
    | look hphase => exact hpass hphase (by simp [KillerPhase.cursor])
    | gone hphase => exact hpass hphase (by simp [KillerPhase.cursor])
    | passed hphase => exact hpass hphase (by simp [KillerPhase.cursor])
    | unblocked hphase => exact hpass hphase (by simp [KillerPhase.cursor])
    | misnamed hphase => exact hpass hphase (by simp [KillerPhase.cursor])
    | kill hphase => exact hpass hphase (by simp [KillerPhase.cursor])
    | count hphase => exact hpass hphase (by simp [KillerPhase.cursor])
  · obtain ⟨hqueue, hpending⟩ := pass_keeps hcursor hk.entry hadvanced
    have hpass := (ahead_advance hk hcursor hadvanced).1
    have hsteps := passSteps_advance hk hcursor hadvanced
    rw [stepsLeft_of_pass hpass, stepsLeft_of_pass (.inl hcursor), stepsAfterPass, stepsAfterPass,
      hqueue]
    split_ifs <;> omega

/-- Until it ends the thread can take a step, when a descriptor it is given is free. -/
theorem advance_of_dropped (hdropped : k.senderDropped = true) (hdone : k.phase ≠ .done)
    (hfree : ∀ fd, ans.fd = some fd → fd ∉ k.fds) : (k.advance ans).isSome = true := by
  by_cases hcursor : k.phase.cursor = none
  · unfold advance
    cases hphase : k.phase with
    | receiving =>
        simp only [hdropped, if_true]
        split <;> rfl
    | opening msg =>
        simp only
        split
        next fd _ hfd _ =>
          rw [if_neg (hfree fd hfd)]
          rfl
        next => rfl
    | draining =>
        simp only
        split <;> rfl
    | shutdown =>
        simp only
        split <;> rfl
    | shutdownCounting => rfl
    | done => exact absurd hphase hdone
    | _ =>
        rw [hphase] at hcursor
        cases hcursor
  · obtain ⟨k', hstep⟩ := advance_of_cursor hcursor ans
    rw [hstep]
    rfl

/-- A reachable state in which nothing more can be queued. -/
structure Ending (k : Killer) : Prop where
  reachable : killerThread.Reachable k
  dropped : k.senderDropped = true

/-- Steps of the others leave the thread where it is. -/
theorem kept_of_dropped {step : KillerStep} (hdropped : k.senderDropped = true)
    (hstep : k.next step = some k') (hother : step.isAdvance = false) :
    k'.senderDropped = true ∧ k'.stepsLeft = k.stepsLeft := by
  cases step with
  | advance ans => cases hother
  | send pid uid => simp [next, hdropped] at hstep
  | dropSender => simp [next, hdropped] at hstep
  | mirror =>
      obtain ⟨update, -, rfl⟩ := Option.map_eq_some_iff.mp hstep
      exact ⟨hdropped, rfl⟩
  | wait ms =>
      obtain rfl := Option.some.inj hstep
      exact ⟨hdropped, rfl⟩
  | _ =>
      simp only [next] at hstep
      split_ifs at hstep
      obtain rfl := Option.some.inj hstep
      exact ⟨hdropped, rfl⟩

theorem Ending.next (hk : Ending k) {step : KillerStep} (hstep : k.next step = some k') :
    Ending k' ∧ k'.stepsLeft + (if step.isAdvance then 1 else 0) ≤ k.stepsLeft := by
  have hreachable : killerThread.Reachable k' := .step hk.reachable trivial hstep
  cases hadvance : step.isAdvance with
  | true =>
      cases step <;> cases hadvance
      have hdropped : k'.senderDropped = true := by
        cases advance_cases hstep <;> exact hk.dropped
      exact ⟨⟨hreachable, hdropped⟩,
        stepsLeft_advance (onePlace_of_reachable hk.reachable) hk.dropped hstep⟩
  | false =>
      obtain ⟨hdropped, hsteps⟩ := kept_of_dropped hk.dropped hstep hadvance
      exact ⟨⟨hreachable, hdropped⟩, hsteps.le⟩

end Ends

end Killer

/-- **The thread ends when the gate is dropped.**  It takes a bounded number of
steps more, none of which has to wait for another thread, and has then closed every
descriptor and left nothing queued or pending. -/
theorem killer_ends {k k' : Killer} {steps : List KillerStep} (hk : killerThread.Reachable k)
    (hdropped : k.senderDropped = true) (hrun : runFrom Killer.next steps k = some k') :
    steps.countP KillerStep.isAdvance ≤ 10 * k.queue.length + 14 * k.pending.length + 13 ∧
      (k'.phase ≠ .done → ∀ ans : Answers, (∀ fd, ans.fd = some fd → fd ∉ k'.fds) →
        (k'.advance ans).isSome = true) ∧
      (k'.phase = .done → k'.fds = ∅ ∧ k'.pending = [] ∧ k'.queue = []) := by
  obtain ⟨hending, hbound⟩ : k'.Ending ∧
      k'.stepsLeft + steps.countP KillerStep.isAdvance ≤ k.stepsLeft :=
    runFrom_measure (fun _ _ _ hk hstep => Killer.Ending.next hk hstep)
      (⟨hk, hdropped⟩ : k.Ending) hrun
  have hleft := k.stepsLeft_le
  refine ⟨by omega, fun hdone ans hfree => Killer.advance_of_dropped hending.dropped hdone hfree,
    fun hdone => ?_⟩
  have hfinished := finished_of_reachable hending.reachable
  obtain ⟨l, hl⟩ := audited_of_killerThread hending.reachable
  have haccounted : k'.Accounted l := accounted_of_reachable hl
  have hlive : k'.live = [] := by rw [Killer.live, hdone, hfinished.empty hdone]
  refine ⟨ExtTreeMap.eq_empty_iff_forall_not_mem.mpr fun fd hfd => ?_, hfinished.empty hdone,
    (hfinished.closed (by rw [hdone]; rfl)).2⟩
  obtain ⟨p, hp, -⟩ := (haccounted.fds fd).mp hfd
  rw [hlive] at hp
  cases hp

/-- The gate is dropped with a launch queued. -/
theorem killer_ends_launch :
    ∃ k, runFrom Killer.next (launch ++ [.dropSender]) oneTarget = some k ∧
      ∃ k', runFrom Killer.next (List.replicate 12 (.advance foreground)) k = some k' ∧
        k'.phase = .done ∧ k'.fds = ∅ ∧ k'.pending = [] ∧ k'.queue = [] := by
  have hdrop : ((runFrom Killer.next (launch ++ [.dropSender]) oneTarget).any fun k =>
      k.senderDropped && (runFrom Killer.next (List.replicate 12 (.advance foreground)) k).any
        fun k' => k'.phase = .done) = true := by decide +kernel
  obtain ⟨k, hk, hend⟩ := (Option.any_eq_true _ _).mp hdrop
  obtain ⟨hdropped, hdone⟩ := Bool.and_eq_true_iff.mp hend
  obtain ⟨k', hk', hphase⟩ := (Option.any_eq_true _ _).mp hdone
  have hreachable := System.reachable_runFrom (.init oneTarget_init) hk
  obtain ⟨-, -, hempty⟩ := killer_ends hreachable hdropped hk'
  exact ⟨k, hk, k', hk', of_decide_eq_true hphase, hempty (of_decide_eq_true hphase)⟩

end Ningshi
