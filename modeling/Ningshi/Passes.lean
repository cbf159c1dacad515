import Ningshi.KillerMessages

/-!
# `gate.rs`: passes over the pending entries

Between two looks at the queue the killer thread goes once through `pending`.
It takes an entry out by swapping the last one into its place, and looks at that
place again.  `pass_ahead` says that what has been examined in a pass and what is
ahead of it is what was pending when it began; `pass_goes_on` that the thread
never waits within a pass and gets closer to its end with every step.
-/

namespace Ningshi

open Std SwapRemove Trace Transition

def Act.polledFd : Act → Option Nat
  | .polled fd => some fd
  | _ => none

/-- The descriptors of the entries that were examined. -/
def polledFds (trace : List Act) : List Nat := trace.filterMap Act.polledFd

namespace Killer

/-- A pass over `pending` that has begun in `k₀` has come to this state. -/
inductive Pass (k₀ : Killer) : Killer → Prop
  | begin (hphase : k₀.phase = .polling 0) : Pass k₀ k₀
  | step {k k' : Killer} {step : KillerStep} (h : Pass k₀ k) (hphase : k.phase ≠ .receiving)
      (hstep : k.next step = some k') : Pass k₀ k'

end Killer

/-- The index a pass is at, and whether it has examined the entry there. -/
def KillerPhase.cursor : KillerPhase → Option (Nat × Bool)
  | .polling i => some (i, false)
  | .reading i _ => some (i, true)
  | .checking i _ => some (i, true)
  | .identifying i _ => some (i, true)
  | .killing i _ => some (i, true)
  | .counting i _ => some (i, true)
  | _ => none

namespace Killer

/-- The entries a pass has yet to examine. -/
def ahead (k : Killer) : List PendingKill :=
  match k.phase.cursor with
  | some (i, false) => k.pending.drop i
  | some (i, true) => k.pending.drop (i + 1)
  | none => []

section Pass

variable {k k' : Killer} {ans : Answers}

theorem ahead_of_cursor {i : Nat} {examined : Bool}
    (hcursor : k.phase.cursor = some (i, examined)) :
    k.ahead = k.pending.drop (if examined then i + 1 else i) := by
  unfold ahead
  rw [hcursor]
  cases examined <;> rfl

/-- The entries ahead stay as they are. -/
theorem ahead_stay (acts : List Act) {i j : Nat} {examined examined' : Bool}
    (hcursor : k.phase.cursor = some (i, examined))
    (hcursor' : k'.phase.cursor = some (j, examined'))
    (hplace : (if examined' then j + 1 else j) = if examined then i + 1 else i)
    (hpending : k'.pending = k.pending) (htrace : k'.trace = acts ++ k.trace)
    (hacts : polledFds acts = []) :
    (k'.phase.cursor ≠ none ∨ k'.phase = .receiving) ∧
      ∃ acts, k'.trace = acts ++ k.trace ∧
        (polledFds acts ++ k'.ahead.map PendingKill.pidfd).Perm
          (k.ahead.map PendingKill.pidfd) := by
  refine ⟨.inl (by simp [hcursor']), acts, htrace, ?_⟩
  rw [hacts, List.nil_append, ahead_of_cursor hcursor, ahead_of_cursor hcursor', hplace, hpending]

/-- An examined entry is taken out. -/
theorem ahead_remove (acts : List Act) {mid : Killer} {i : Nat} {p : PendingKill}
    (hcursor : k.phase.cursor = some (i, true)) (hentry : k.pending[i]? = some p)
    (hpending : mid.pending = k.pending) (htrace : mid.trace = acts ++ k.trace)
    (hacts : polledFds acts = []) :
    ((mid.remove i).phase.cursor ≠ none ∨ (mid.remove i).phase = .receiving) ∧
      ∃ acts, (mid.remove i).trace = acts ++ k.trace ∧
        (polledFds acts ++ (mid.remove i).ahead.map PendingKill.pidfd).Perm
          (k.ahead.map PendingKill.pidfd) := by
  obtain ⟨hi, -⟩ := List.getElem?_eq_some_iff.mp hentry
  refine ⟨.inl (by simp [remove, goto, KillerPhase.cursor]), acts, htrace, ?_⟩
  rw [hacts, List.nil_append, ahead_of_cursor hcursor]
  show ((SwapRemove.swapRemove mid.pending i).drop i |>.map PendingKill.pidfd).Perm _
  rw [hpending]
  exact (drop_swapRemove_perm hi).map _

/-- **A step within a pass** examines the next entry, or none. -/
theorem ahead_advance (hk : OnePlace k) (hcursor : k.phase.cursor ≠ none)
    (hstep : Advanced k ans k') :
    (k'.phase.cursor ≠ none ∨ k'.phase = .receiving) ∧
      ∃ acts, k'.trace = acts ++ k.trace ∧
        (polledFds acts ++ k'.ahead.map PendingKill.pidfd).Perm
          (k.ahead.map PendingKill.pidfd) := by
  have hentry {phase : KillerPhase} (hphase : k.phase = phase) {i : Nat} {p : PendingKill}
      (h : phase.entry = some (i, p)) : k.pending[i]? = some p := hk.entry i p (hphase ▸ h)
  have hat {phase : KillerPhase} (hphase : k.phase = phase) {i : Nat} {examined : Bool}
      (h : phase.cursor = some (i, examined)) : k.phase.cursor = some (i, examined) := hphase ▸ h
  cases hstep with
  | goesOn hphase hnext =>
      rw [hphase] at hcursor
      cases hnext with
      | wrap i hend =>
          refine ⟨.inr rfl, [], rfl, ?_⟩
          rw [ahead_of_cursor (hat hphase rfl), if_neg Bool.false_ne_true,
            List.drop_eq_nil_of_le (List.getElem?_eq_none_iff.mp hend)]
          exact .refl _
      | due i p => exact ahead_stay [] (hat hphase rfl) rfl rfl rfl rfl rfl
      | later i p => exact ahead_stay [] (hat hphase rfl) rfl rfl rfl rfl rfl
      | identified i p => exact ahead_stay [] (hat hphase rfl) rfl rfl rfl rfl rfl
      | timeout => exact absurd rfl hcursor
      | unopened => exact absurd rfl hcursor
      | drained => exact absurd rfl hcursor
  | receive hphase _ =>
      rcases hphase with h | h <;> exact absurd (by rw [h]; rfl) hcursor
  | disconnect hphase _ _ => exact absurd (by rw [hphase]; rfl) hcursor
  | pin hphase _ _ => exact absurd (by rw [hphase]; rfl) hcursor
  | @exited i p hphase hpending _ =>
      obtain ⟨hi, rfl⟩ := List.getElem?_eq_some_iff.mp hpending
      refine ⟨.inl (by simp [remove, goto, KillerPhase.cursor]), [.closed _, .polled _], rfl, ?_⟩
      rw [ahead_of_cursor (hat hphase rfl), if_neg Bool.false_ne_true, List.drop_eq_getElem_cons hi]
      exact ((drop_swapRemove_perm hi).map _).cons _
  | @look i p hphase hpending _ =>
      obtain ⟨hi, rfl⟩ := List.getElem?_eq_some_iff.mp hpending
      refine ⟨.inl (by simp [goto, KillerPhase.cursor]), [.polled _], rfl, ?_⟩
      rw [ahead_of_cursor (hat hphase rfl), if_neg Bool.false_ne_true, List.drop_eq_getElem_cons hi]
      exact .refl _
  | gone hphase _ =>
      exact ahead_remove [.closed _] (hat hphase rfl) (hentry hphase rfl) rfl rfl rfl
  | passed hphase _ => exact ahead_stay [.checked _ _] (hat hphase rfl) rfl rfl rfl rfl rfl
  | unblocked hphase _ =>
      exact ahead_remove [.closed _, .checked _ _] (hat hphase rfl) (hentry hphase rfl) rfl rfl rfl
  | misnamed hphase _ =>
      exact ahead_remove [.closed _] (hat hphase rfl) (hentry hphase rfl) rfl rfl rfl
  | kill hphase =>
      exact ahead_stay [.closed _, .signalled _ _ _] (hat hphase rfl) rfl rfl rfl rfl rfl
  | count hphase =>
      exact ahead_remove [.counted _] (hat hphase rfl) (hentry hphase rfl) rfl rfl rfl
  | shutdownKill hphase _ => exact absurd (by rw [hphase]; rfl) hcursor
  | shutdownCount hphase => exact absurd (by rw [hphase]; rfl) hcursor
  | finish hphase _ => exact absurd (by rw [hphase]; rfl) hcursor

/-- How many steps of the thread are left of a pass at most. -/
def passSteps (k : Killer) : Nat :=
  match k.phase with
  | .polling i => 6 * (k.pending.length - i) + 1
  | .reading i _ => 6 * (k.pending.length - i)
  | .checking i _ => 6 * (k.pending.length - i) - 1
  | .identifying i _ => 6 * (k.pending.length - i) - 2
  | .killing i _ => 6 * (k.pending.length - i) - 3
  | .counting i _ => 6 * (k.pending.length - i) - 4
  | _ => 0

/-- Within a pass the thread never waits. -/
theorem advance_of_cursor (hcursor : k.phase.cursor ≠ none) (ans : Answers) :
    ∃ k', k.advance ans = some k' := by
  unfold advance
  cases hphase : k.phase with
  | polling i =>
      simp only
      split
      · exact ⟨_, rfl⟩
      · split_ifs <;> exact ⟨_, rfl⟩
  | reading i p =>
      simp only
      split
      · exact ⟨_, rfl⟩
      · split_ifs <;> exact ⟨_, rfl⟩
  | checking i p =>
      simp only
      split_ifs <;> exact ⟨_, rfl⟩
  | identifying i p =>
      simp only
      split_ifs <;> exact ⟨_, rfl⟩
  | killing i p => exact ⟨_, rfl⟩
  | counting i p => exact ⟨_, rfl⟩
  | _ =>
      rw [hphase] at hcursor
      exact absurd rfl hcursor

/-- Taking an entry out leaves fewer steps than any look at it does. -/
theorem passSteps_remove (mid : Killer) {i : Nat} {p : PendingKill}
    (hpending : mid.pending[i]? = some p) :
    (mid.remove i).passSteps + 5 ≤ 6 * (mid.pending.length - i) := by
  obtain ⟨hi, -⟩ := List.getElem?_eq_some_iff.mp hpending
  have hlength : (mid.remove i).pending.length + 1 = mid.pending.length := length_swapRemove hi
  have hsteps : (mid.remove i).passSteps = 6 * ((mid.remove i).pending.length - i) + 1 := rfl
  omega

/-- **A pass goes on**: a step of the thread leaves fewer steps of it. -/
theorem passSteps_advance (hk : OnePlace k) (hcursor : k.phase.cursor ≠ none)
    (hstep : Advanced k ans k') : k'.passSteps < k.passSteps := by
  have hpending {phase : KillerPhase} (hphase : k.phase = phase) {i : Nat} {p : PendingKill}
      (h : phase.entry = some (i, p)) : k.pending[i]? = some p := hk.entry i p (hphase ▸ h)
  have hlt {i : Nat} {p : PendingKill} (h : k.pending[i]? = some p) : i < k.pending.length :=
    (List.getElem?_eq_some_iff.mp h).1
  have hremove {mid : Killer} (hmid : mid.pending = k.pending) {i : Nat} {p : PendingKill}
      (h : k.pending[i]? = some p)
      (hsteps : 6 * (k.pending.length - i) < k.passSteps + 5) :
      (mid.remove i).passSteps < k.passSteps := by
    have hleft := passSteps_remove mid (hmid ▸ h)
    rw [hmid] at hleft
    omega
  cases hstep with
  | goesOn hphase hnext =>
      rw [hphase] at hcursor
      cases hnext with
      | wrap i => simp [passSteps, goto, hphase]
      | due i p =>
          have hi := hlt (hpending hphase rfl)
          simp only [passSteps, goto, hphase]
          omega
      | later i p =>
          have hi := hlt (hpending hphase rfl)
          simp only [passSteps, goto, hphase]
          omega
      | identified i p =>
          have hi := hlt (hpending hphase rfl)
          simp only [passSteps, goto, hphase]
          omega
      | timeout => exact absurd rfl hcursor
      | unopened => exact absurd rfl hcursor
      | drained => exact absurd rfl hcursor
  | receive hphase _ =>
      rcases hphase with h | h <;> exact absurd (by rw [h]; rfl) hcursor
  | disconnect hphase _ _ => exact absurd (by rw [hphase]; rfl) hcursor
  | pin hphase _ _ => exact absurd (by rw [hphase]; rfl) hcursor
  | @exited i p hphase hp _ =>
      refine hremove rfl hp ?_
      simp only [passSteps, hphase]
      omega
  | @look i p hphase hp _ =>
      have hi := hlt hp
      simp only [passSteps, goto, record, hphase]
      omega
  | @gone i p hphase _ =>
      refine hremove rfl (hpending hphase rfl) ?_
      simp only [passSteps, hphase]
      omega
  | @passed i p hphase _ =>
      have hi := hlt (hpending hphase rfl)
      simp only [passSteps, goto, record, hphase]
      omega
  | @unblocked i p hphase _ =>
      refine hremove rfl (hpending hphase rfl) ?_
      simp only [passSteps, hphase]
      omega
  | @misnamed i p hphase _ =>
      refine hremove rfl (hpending hphase rfl) ?_
      simp only [passSteps, hphase]
      omega
  | @kill i p hphase =>
      have hi := hlt (hpending hphase rfl)
      simp only [passSteps, goto, pidfdKill, close, record, hphase]
      omega
  | @count i p hphase =>
      refine hremove rfl (hpending hphase rfl) ?_
      simp only [passSteps, hphase]
      omega
  | shutdownKill hphase _ => exact absurd (by rw [hphase]; rfl) hcursor
  | shutdownCount hphase => exact absurd (by rw [hphase]; rfl) hcursor
  | finish hphase _ => exact absurd (by rw [hphase]; rfl) hcursor

end Pass

end Killer

/-- What has happened since a pass began. -/
theorem pass_ahead {k₀ k : Killer} (hk₀ : killerThread.Reachable k₀) (h : k₀.Pass k) :
    killerThread.Reachable k ∧ (k.phase.cursor ≠ none ∨ k.phase = .receiving) ∧
      ∃ acts, k.trace = acts ++ k₀.trace ∧
        (polledFds acts ++ k.ahead.map PendingKill.pidfd).Perm
          (k₀.pending.map PendingKill.pidfd) := by
  induction h with
  | begin hphase =>
      refine ⟨hk₀, .inl (by simp [hphase, KillerPhase.cursor]), [], rfl, ?_⟩
      rw [Killer.ahead_of_cursor (hphase ▸ rfl : k₀.phase.cursor = some (0, false))]
      exact .refl _
  | @step k k' step _ hphase hstep ih =>
      obtain ⟨hk, hpass, acts, htrace, hperm⟩ := ih
      have hcursor : k.phase.cursor ≠ none := hpass.resolve_right hphase
      refine ⟨.step hk trivial hstep, ?_⟩
      rcases Killer.next_cases hstep with ⟨ans, rfl, hadvanced⟩ | ⟨pid, uid, rfl⟩ | hsame
      · obtain ⟨hpass', more, htrace', hperm'⟩ :=
          Killer.ahead_advance (onePlace_of_reachable hk) hcursor hadvanced
        refine ⟨hpass', more ++ acts, by rw [htrace', htrace, List.append_assoc], ?_⟩
        have hpolled : polledFds (more ++ acts) = polledFds more ++ polledFds acts :=
          List.filterMap_append
        rw [hpolled, List.append_assoc]
        exact (List.perm_append_comm_assoc _ _ _).trans ((hperm'.append_left _).trans hperm)
      · exact ⟨.inl hcursor, .queued ⟨k.nextId, pid, uid⟩ :: acts,
          congrArg (Act.queued ⟨k.nextId, pid, uid⟩ :: ·) htrace, hperm⟩
      · have hahead : k'.ahead = k.ahead := by
          rw [Killer.ahead, Killer.ahead, hsame.phase, hsame.pending]
        exact ⟨.inl (hsame.phase ▸ hcursor), acts, hsame.trace.trans htrace, hahead ▸ hperm⟩

/-- **A pass comes to its end**: the thread can always take a step, with fewer
steps left after it, and no other step puts the end off. -/
theorem pass_goes_on {k : Killer} (hk : killerThread.Reachable k)
    (hcursor : k.phase.cursor ≠ none) :
    (∀ ans, ∃ k', k.advance ans = some k' ∧ k'.passSteps < k.passSteps) ∧
      ∀ step k', k.next step = some k' → k'.passSteps ≤ k.passSteps := by
  have hplace := onePlace_of_reachable hk
  refine ⟨fun ans => ?_, fun step k' hstep => ?_⟩
  · obtain ⟨k', hstep⟩ := Killer.advance_of_cursor hcursor ans
    exact ⟨k', hstep, Killer.passSteps_advance hplace hcursor (Killer.advance_cases hstep)⟩
  · rcases Killer.next_cases hstep with ⟨ans, -, hadvanced⟩ | ⟨pid, uid, rfl⟩ | hsame
    · exact (Killer.passSteps_advance hplace hcursor hadvanced).le
    · exact Nat.le_refl _
    · rw [Killer.passSteps, Killer.passSteps, hsame.phase, hsame.pending]

end Ningshi
