import Ningshi.Killer
import Ningshi.Lib.Claims

/-!
# The kill counters

Three places add to the kill counter of a uid: the killer thread after a kill
and while it drains `pending`, and the engine after the kills of a transition.
The thread does not look at whether its signal was delivered, the same process
can be reached from both sides, and a new day can begin between a kill and its
count.

`killCount_le_hit` says that a counter is at most the number of the processes
that a `SIGKILL` for the uid has reached since the counters were last reset, in
every run in which nothing of the kind happens.
-/

namespace Ningshi

open Std FiniteMap SwapRemove Transition

/-! ## The engine's kills -/

/-- A call of `kill_uids`. -/
structure Clearing where
  /-- the uid whose transition it belongs to; `none` for a sweep -/
  transition : Option Uid
  /-- pids still to be killed, with the uid they are expected to have -/
  targets : List (Int × Uid)
  /-- the call of `kill_pid_if_uid` that is under way -/
  call : KillCall
  killed : Nat

/-- The killer thread, the engine's kills, and whom they have reached. -/
structure Tally where
  killer : Killer
  clearing : Option Clearing
  /-- since the last reset: the processes a `SIGKILL` was delivered to, by serial
  number, each with the uid it was meant for -/
  hit : Finset (Uid × Nat)
  /-- has this call of `kill_uids` reached a process that was not in `hit`? -/
  fresh : Bool

def countKill (uid : Uid) (counts : UidMap Nat) : UidMap Nat :=
  counts.insert uid (counts[uid]?.getD 0 + 1)

/-- The entry that the next step of the thread signals. -/
def Killer.aimsAt (k : Killer) : Option PendingKill :=
  match k.phase with
  | .killing _ p => some p
  | .shutdown => k.pending.head?
  | _ => none

/-- Whom the signal of the next step of the thread reaches. -/
def Killer.hits (k : Killer) : Option (Uid × Nat) :=
  k.aimsAt.bind fun p =>
    (k.fds[p.pidfd]?.filter fun pinned => pidfdSendSignal k.table pinned).map fun pinned =>
      (p.msg.uid, pinned.proc.serial)

namespace Tally

def setCall (c : Clearing) (call : KillCall) (t : Tally) : Tally :=
  { t with clearing := some { c with call := call } }

/-- `SIGKILL` through the descriptor of a call. -/
def signal (c : Clearing) (uid : Uid) (fd : Pidfd) (t : Tally) : Tally :=
  if pidfdSendSignal t.killer.table fd then
    { t with
      clearing := some { c with call := .returned true, killed := c.killed + 1 }
      hit := insert (uid, fd.proc.serial) t.hit
      fresh := t.fresh || (uid, fd.proc.serial) ∉ t.hit }
  else t.setCall c (.returned false)

/-- `kill_uids` returns; a transition counts one kill when it has killed. -/
def finish (c : Clearing) (t : Tally) : Tally :=
  let t := { t with clearing := none, fresh := false }
  match c.transition with
  | none => t
  | some uid =>
      if 0 < c.killed then
        { t with killer := { t.killer with killCount := countKill uid t.killer.killCount } }
      else t

/-- The next step of `kill_uids`. -/
def clear (c : Clearing) (t : Tally) : Tally :=
  match c.call with
  | .started pid uid =>
      t.setCall c
        (if pidUid t.killer.table pid ≠ some uid then .returned false else .checked pid uid)
  | .checked pid uid =>
      t.setCall c
        (match pidfdOpen t.killer.table pid with
        | some fd => .opened uid fd
        | none => .returned false)
  | .opened uid fd => t.signal c uid fd
  | _ =>
      match c.targets with
      | (pid, uid) :: rest =>
          { t with clearing := some { c with targets := rest, call := .started pid uid } }
      | [] => t.finish c

end Tally

/-! ## Runs -/

inductive TallyStep where
  | killer (step : KillerStep)
  /-- the engine calls `kill_uids` -/
  | kill (transition : Option Uid) (targets : List (Int × Uid))
  /-- a step of `kill_uids` -/
  | clear
  /-- the counters are reset -/
  | newDay
  /-- the package sync drops the counters of uids without an app -/
  | retain (live : UidSet)

namespace Tally

def next (t : Tally) : TallyStep → Option Tally
  | .killer step =>
      (t.killer.next step).map fun k =>
        match step with
        | .advance _ => { t with killer := k, hit := t.killer.hits.toFinset ∪ t.hit }
        | _ => { t with killer := k }
  | .kill transition targets =>
      -- the engine does one thing at a time, and a transition kills for its uid
      if t.clearing.isSome then none
      else if transition.all fun uid => targets.all fun target => target.2 = uid then
        some { t with clearing := some ⟨transition, targets, .idle, 0⟩ }
      else none
  | .clear => t.clearing.map fun c => t.clear c
  | .newDay =>
      if t.clearing.isSome then none
      else some { t with killer := { t.killer with killCount := ∅ }, hit := ∅ }
  | .retain live =>
      if t.clearing.isSome then none
      else
        some { t with
          killer := { t.killer with
            killCount := retainKeys (fun uid => uid ∈ live) t.killer.killCount } }

/-- How many processes have been reached for a uid. -/
def distinct (t : Tally) (uid : Uid) : Nat := Claims.items t.hit uid

def count (t : Tally) (uid : Uid) : Nat := t.killer.killCount[uid]?.getD 0

/-- The thread has just been started; counts read back from the state file were
right. -/
structure Initial (t : Tally) : Prop where
  killer : t.killer.Initial
  clearing : t.clearing = none
  fresh : t.fresh = false
  counts : ∀ uid, t.count uid ≤ t.distinct uid

end Tally

def killTally : System Tally TallyStep := .ofNext Tally.Initial Tally.next

/-! ## What is still to be counted -/

/-- The uid a call of `kill_pid_if_uid` is for, until it returns. -/
def KillCall.uid : KillCall → Option Uid
  | .started _ uid => some uid
  | .checked _ uid => some uid
  | .opened uid _ => some uid
  | _ => none

/-- The uid of a kill that the thread has yet to count. -/
def Killer.uncounted (k : Killer) : Option Uid :=
  match k.phase with
  | .counting _ p => some p.msg.uid
  | .shutdownCounting p => some p.msg.uid
  | _ => none

/-- The uid a call of `kill_uids` counts a kill for when it returns in the next step. -/
def Clearing.counts (c : Clearing) : Option Uid :=
  match c.call with
  | .started _ _ => none
  | .checked _ _ => none
  | .opened _ _ => none
  | _ => if c.targets = [] ∧ 0 < c.killed then c.transition else none

/-- A kill that will be counted reaches a process that was not reached before,
and is counted on the day of the kill. -/
def CountsHits (t : Tally) : TallyStep → Prop
  | .killer (.advance _) =>
      t.killer.aimsAt.isSome → t.killer.hits.any (fun h => h ∉ t.hit) = true
  | .clear => (t.clearing.bind Clearing.counts).isSome → t.fresh = true
  | .newDay => t.killer.uncounted = none
  | _ => True

instance (t : Tally) : (step : TallyStep) → Decidable (CountsHits t step)
  | .killer (.advance _) => inferInstanceAs (Decidable (_ → _))
  | .killer (.send _ _) => .isTrue trivial
  | .killer .dropSender => .isTrue trivial
  | .killer (.kernel _ _) => .isTrue trivial
  | .killer .mirror => .isTrue trivial
  | .killer (.setBlockIndex _) => .isTrue trivial
  | .killer (.exit _) => .isTrue trivial
  | .killer (.spawn _ _) => .isTrue trivial
  | .killer (.wait _) => .isTrue trivial
  | .kill _ _ => .isTrue trivial
  | .clear => inferInstanceAs (Decidable (_ → _))
  | .newDay => inferInstanceAs (Decidable (_ = _))
  | .retain _ => .isTrue trivial

/-- What a step of the thread does to the counters: nothing, or it sends the
signal of a kill, or counts a kill. -/
inductive CountStep (k k' : Killer) : Prop
  | quiet (haim : k.aimsAt = none) (hcounts : k'.killCount = k.killCount)
      (huncounted : k.uncounted = none) (huncounted' : k'.uncounted = none)
  | kill {p : PendingKill} (haim : k.aimsAt = some p) (hcounts : k'.killCount = k.killCount)
      (huncounted : k.uncounted = none) (huncounted' : k'.uncounted = some p.msg.uid)
  | count {uid : Uid} (haim : k.aimsAt = none)
      (hcounts : k'.killCount = countKill uid k.killCount) (huncounted : k.uncounted = some uid)
      (huncounted' : k'.uncounted = none)

theorem countStep_of_advanced {k k' : Killer} {ans : Answers} (h : Killer.Advanced k ans k') :
    CountStep k k' := by
  cases h with
  | goesOn hphase hnext =>
      cases hnext <;> exact .quiet (by rw [Killer.aimsAt, hphase]) rfl
        (by rw [Killer.uncounted, hphase]) rfl
  | receive hphase _ =>
      rcases hphase with hphase | hphase <;> exact .quiet (by rw [Killer.aimsAt, hphase]) rfl
        (by rw [Killer.uncounted, hphase]) rfl
  | kill hphase =>
      exact .kill (by rw [Killer.aimsAt, hphase]) rfl (by rw [Killer.uncounted, hphase]) rfl
  | shutdownKill hphase hpending =>
      exact .kill (by rw [Killer.aimsAt, hphase, hpending]; rfl) rfl
        (by rw [Killer.uncounted, hphase]) rfl
  | count hphase =>
      exact .count (by rw [Killer.aimsAt, hphase]) rfl (by rw [Killer.uncounted, hphase]) rfl
  | shutdownCount hphase =>
      exact .count (by rw [Killer.aimsAt, hphase]) rfl (by rw [Killer.uncounted, hphase]) rfl
  | finish hphase hpending =>
      exact .quiet (by rw [Killer.aimsAt, hphase, hpending]; rfl) rfl
        (by rw [Killer.uncounted, hphase]) rfl
  | disconnect hphase | pin hphase | exited hphase | look hphase | gone hphase | passed hphase
  | unblocked hphase | misnamed hphase =>
      exact .quiet (by rw [Killer.aimsAt, hphase]) rfl (by rw [Killer.uncounted, hphase]) rfl

/-- Only the thread's own steps touch its counters. -/
theorem counts_next_of_ne {k k' : Killer} {step : KillerStep} (hstep : k.next step = some k')
    (hne : ∀ ans, step ≠ .advance ans) : k'.killCount = k.killCount ∧ k'.phase = k.phase := by
  rcases Killer.next_cases hstep with ⟨ans, rfl, -⟩ | ⟨pid, uid, rfl⟩ | hsame
  · exact absurd rfl (hne ans)
  · exact ⟨rfl, rfl⟩
  · exact ⟨hsame.killCount, hsame.phase⟩

/-! ## The bound -/

theorem getD_countKill (uid u : Uid) (counts : UidMap Nat) :
    (countKill uid counts)[u]?.getD 0 = counts[u]?.getD 0 + if uid = u then 1 else 0 := by
  rw [countKill, ExtTreeMap.getElem?_insert]
  by_cases huid : uid = u
  · simp [huid]
  · simp [huid]

namespace Tally

/-- The uid for which the engine will count a kill. -/
def owed (t : Tally) : Option Uid := if t.fresh then t.clearing.bind Clearing.transition else none

/-- Every kill counted, or still to be counted, has a process of its own. -/
structure Sound (t : Tally) : Prop where
  backed : Claims.Backed t.count (t.killer.uncounted.toList ++ t.owed.toList) t.hit
  idle : t.clearing = none → t.fresh = false
  own : ∀ c uid, t.clearing = some c → c.transition = some uid →
    (∀ target ∈ c.targets, target.2 = uid) ∧ ∀ u, c.call.uid = some u → u = uid

variable {t : Tally}

theorem owed_of_not_fresh (hfresh : t.fresh = false) : t.owed = none := by
  rw [owed, hfresh]
  rfl

/-- **A step of the thread.** -/
theorem sound_advance (ht : t.Sound) {k : Killer} {ans : Answers}
    (hcond : CountsHits t (.killer (.advance ans))) (h : Killer.Advanced t.killer ans k) :
    ({ t with killer := k, hit := t.killer.hits.toFinset ∪ t.hit } : Tally).Sound := by
  refine ⟨?_, ht.idle, ht.own⟩
  show Claims.Backed (fun uid => k.killCount[uid]?.getD 0) (k.uncounted.toList ++ t.owed.toList)
    (t.killer.hits.toFinset ∪ t.hit)
  have hbacked : Claims.Backed (fun uid => t.killer.killCount[uid]?.getD 0)
    (t.killer.uncounted.toList ++ t.owed.toList) t.hit := ht.backed
  cases countStep_of_advanced h with
  | quiet haim hsame huncounted huncounted' =>
      have hnone : t.killer.hits = none := by rw [Killer.hits, haim]; rfl
      rw [huncounted] at hbacked
      rw [hsame, huncounted', hnone, Option.toFinset_none, Finset.empty_union]
      exact hbacked
  | @kill p haim hsame huncounted huncounted' =>
      -- the signal reaches a process that now has a claim on a count
      obtain ⟨h, hhits, hfirst⟩ := (Option.any_eq_true _ _).mp (hcond (by rw [haim]; rfl))
      have hnew : h ∉ t.hit := of_decide_eq_true hfirst
      have huid : h.1 = p.msg.uid := by
        rw [Killer.hits, haim] at hhits
        obtain ⟨pinned, -, rfl⟩ := Option.map_eq_some_iff.mp hhits
        rfl
      rw [huncounted] at hbacked
      rw [hsame, huncounted', hhits, Option.toFinset_some, ← Finset.insert_eq, ← huid]
      exact hbacked.claim hnew
  | @count u haim hcounted huncounted huncounted' =>
      have hnone : t.killer.hits = none := by rw [Killer.hits, haim]; rfl
      rw [huncounted] at hbacked
      rw [hcounted, huncounted', hnone, Option.toFinset_none, Finset.empty_union]
      exact hbacked.count fun uid => getD_countKill u uid t.killer.killCount

/-- The counters and the kill to be counted stay as they are. -/
theorem sound_of_same (ht : t.Sound) {k : Killer} (hcounts : k.killCount = t.killer.killCount)
    (hphase : k.phase = t.killer.phase) : ({ t with killer := k } : Tally).Sound := by
  refine ⟨?_, ht.idle, ht.own⟩
  have huncounted : k.uncounted = t.killer.uncounted := by
    rw [Killer.uncounted, Killer.uncounted, hphase]
  show Claims.Backed (fun uid => k.killCount[uid]?.getD 0) (k.uncounted.toList ++ t.owed.toList) t.hit
  rw [hcounts, huncounted]
  exact ht.backed

/-- A call of `kill_pid_if_uid` goes on. -/
theorem sound_setCall (ht : t.Sound) {c : Clearing} (hc : t.clearing = some c) {call : KillCall}
    (hcall : ∀ u, call.uid = some u → c.call.uid = some u) : (t.setCall c call).Sound := by
  refine ⟨?_, fun h => (by cases h), fun c' uid hc' htransition => ?_⟩
  · have howed : (t.setCall c call).owed = t.owed := by
      rw [owed, owed, hc]
      rfl
    show Claims.Backed t.count (t.killer.uncounted.toList ++ (t.setCall c call).owed.toList) t.hit
    rw [howed]
    exact ht.backed
  · obtain rfl := Option.some.inj hc'
    obtain ⟨htargets, huid⟩ := ht.own c uid hc htransition
    exact ⟨htargets, fun u hu => huid u (hcall u hu)⟩

/-- **A signal of the engine.** -/
theorem sound_signal (ht : t.Sound) {c : Clearing} (hc : t.clearing = some c) {uid : Uid}
    {fd : Pidfd} (hcall : c.call = .opened uid fd) : (t.signal c uid fd).Sound := by
  unfold signal
  split_ifs with hsent
  · refine ⟨?_, fun h => (by cases h), fun c' u hc' htransition => ?_⟩
    · have hgrown : t.hit ⊆ insert (uid, fd.proc.serial) t.hit := Finset.subset_insert _ _
      have howed (fresh : Bool) :
          owed ⟨t.killer, some { c with call := .returned true, killed := c.killed + 1 },
            insert (uid, fd.proc.serial) t.hit, fresh⟩ = if fresh then c.transition else none := rfl
      have hbefore : t.owed = if t.fresh then c.transition else none := by rw [owed, hc]; rfl
      show Claims.Backed t.count (t.killer.uncounted.toList ++ (owed _).toList) _
      rw [howed]
      by_cases hnew : (uid, fd.proc.serial) ∈ t.hit
      · rw [show (t.fresh || decide ((uid, fd.proc.serial) ∉ t.hit)) = t.fresh by simp [hnew],
          ← hbefore]
        exact ht.backed.mono (fun _ => Nat.le_refl _) (fun _ => Nat.le_refl _) hgrown
      · rw [show (t.fresh || decide ((uid, fd.proc.serial) ∉ t.hit)) = true by simp [hnew], if_pos rfl]
        cases htransition : c.transition with
        | none =>
            -- a sweep counts nothing
            refine ht.backed.mono (fun _ => Nat.le_refl _) (fun a => ?_) hgrown
            rw [Option.toList_none, List.append_nil]
            exact (List.sublist_append_left _ _).count_le a
        | some u =>
            obtain rfl : uid = u := (ht.own c u hc htransition).2 uid (by rw [hcall]; rfl)
            have hbacked := ht.backed
            rw [hbefore, htransition] at hbacked
            cases hfresh : t.fresh with
            | true =>
                rw [hfresh, if_pos rfl] at hbacked
                exact hbacked.mono (fun _ => Nat.le_refl _) (fun _ => Nat.le_refl _) hgrown
            | false =>
                -- the process claims the count of the transition
                rw [hfresh, if_neg Bool.false_ne_true, Option.toList_none, List.append_nil] at hbacked
                exact (hbacked.claim hnew).perm (List.perm_append_singleton uid _).symm
    · obtain rfl := Option.some.inj hc'
      exact ⟨(ht.own c u hc htransition).1, fun v hv => by cases hv⟩
  · exact sound_setCall ht hc fun u hu => by cases hu

/-- **`kill_uids` returns**, and has a process to count if it counts a kill. -/
theorem sound_finish (ht : t.Sound) {c : Clearing} (hc : t.clearing = some c)
    (hfresh : ∀ uid, c.transition = some uid → 0 < c.killed → t.fresh = true) :
    (t.finish c).Sound := by
  have hbacked := ht.backed
  have hdropped : Claims.Backed t.count t.killer.uncounted.toList t.hit := by
    refine hbacked.mono (fun _ => Nat.le_refl _) (fun a => ?_) (Finset.Subset.refl _)
    exact (List.sublist_append_left _ _).count_le a
  have hreturned (k : Killer) (hphase : k.phase = t.killer.phase)
      (hcounts : Claims.Backed (fun uid => k.killCount[uid]?.getD 0)
        t.killer.uncounted.toList t.hit) :
      ({ t with killer := k, clearing := none, fresh := false } : Tally).Sound := by
    refine ⟨?_, fun _ => rfl, fun c uid hc => by cases hc⟩
    have huncounted : k.uncounted = t.killer.uncounted := by
      rw [Killer.uncounted, Killer.uncounted, hphase]
    show Claims.Backed (fun uid => k.killCount[uid]?.getD 0) (k.uncounted.toList ++ []) t.hit
    rw [huncounted, List.append_nil]
    exact hcounts
  unfold finish
  split
  next => exact hreturned t.killer rfl hdropped
  next uid htransition =>
    split_ifs with hkilled
    · refine hreturned { t.killer with killCount := countKill uid t.killer.killCount } rfl ?_
      have howed : t.owed = some uid := by
        rw [owed, hfresh uid htransition hkilled, if_pos rfl, hc]
        exact htransition
      rw [howed] at hbacked
      exact (hbacked.perm (List.perm_append_singleton uid _)).count fun u =>
        getD_countKill uid u t.killer.killCount
    · exact hreturned t.killer rfl hdropped

/-- Between two calls of `kill_pid_if_uid` the next target is taken, or `kill_uids`
returns. -/
theorem sound_proceed (ht : t.Sound) {c : Clearing} (hc : t.clearing = some c)
    (hfresh : c.targets = [] → ∀ uid, c.transition = some uid → 0 < c.killed → t.fresh = true) :
    (match c.targets with
      | (pid, uid) :: rest =>
          { t with clearing := some { c with targets := rest, call := .started pid uid } }
      | [] => t.finish c : Tally).Sound := by
  split
  next pid uid rest htargets =>
    refine ⟨?_, fun h => (by cases h), fun c' u hc' htransition => ?_⟩
    · have hbefore : t.owed = if t.fresh then c.transition else none := by rw [owed, hc]; rfl
      have hbacked := ht.backed
      rw [hbefore] at hbacked
      exact hbacked
    · obtain rfl := Option.some.inj hc'
      have howned := (ht.own c u hc htransition).1
      rw [htargets] at howned
      refine ⟨fun target h => howned target (List.mem_cons_of_mem _ h), fun v hv => ?_⟩
      exact (Option.some.inj hv).symm.trans (howned (pid, uid) List.mem_cons_self)
  next htargets => exact sound_finish ht hc (hfresh htargets)

/-- A call that has returned counts a kill only if it has reached somebody new. -/
theorem fresh_of_condition {c : Clearing} (hc : t.clearing = some c) (hcond : CountsHits t .clear)
    (hreturned : c.call.uid = none) (htargets : c.targets = []) (uid : Uid)
    (htransition : c.transition = some uid) (hkilled : 0 < c.killed) : t.fresh = true := by
  refine hcond ?_
  have hcounts : c.counts = some uid := by
    unfold Clearing.counts
    cases hcall : c.call <;> rw [hcall] at hreturned <;> cases hreturned <;>
      simp only [htargets, hkilled, and_self, if_true, htransition]
  rw [hc, Option.bind_some, hcounts]
  rfl

/-- **A step of `kill_uids`.** -/
theorem sound_clear (ht : t.Sound) {c : Clearing} (hc : t.clearing = some c)
    (hcond : CountsHits t .clear) : (t.clear c).Sound := by
  unfold clear
  cases hcall : c.call with
  | started pid uid =>
      refine sound_setCall ht hc fun u hu => ?_
      split_ifs at hu
      · cases hu
      · rw [hcall]
        exact hu
  | checked pid uid =>
      refine sound_setCall ht hc fun u hu => ?_
      rw [hcall]
      cases hopen : pidfdOpen t.killer.table pid with
      | none =>
          rw [hopen] at hu
          cases hu
      | some fd =>
          rw [hopen] at hu
          exact hu
  | opened uid fd => exact sound_signal ht hc hcall
  | idle => exact sound_proceed ht hc (fresh_of_condition hc hcond (by rw [hcall]; rfl))
  | returned sent => exact sound_proceed ht hc (fresh_of_condition hc hcond (by rw [hcall]; rfl))

/-- The engine calls `kill_uids`. -/
theorem sound_kill (ht : t.Sound) (hidle : t.clearing = none) {transition : Option Uid}
    {targets : List (Int × Uid)}
    (htargets : transition.all (fun uid => targets.all fun target => target.2 = uid) = true) :
    ({ t with clearing := some ⟨transition, targets, .idle, 0⟩ } : Tally).Sound := by
  have hfresh := ht.idle hidle
  refine ⟨?_, fun h => (by cases h), fun c uid hc htransition => ?_⟩
  · have hbacked := ht.backed
    rw [owed_of_not_fresh hfresh] at hbacked
    have howed : owed { t with clearing := some ⟨transition, targets, .idle, 0⟩ } = none :=
      owed_of_not_fresh hfresh
    show Claims.Backed t.count (t.killer.uncounted.toList ++ (owed _).toList) t.hit
    rw [howed]
    exact hbacked
  · obtain rfl := Option.some.inj hc
    rw [show transition = some uid from htransition] at htargets
    exact ⟨fun target h => of_decide_eq_true (List.all_eq_true.mp htargets target h),
      fun u hu => by cases hu⟩

/-- The counters are reset. -/
theorem sound_newDay (ht : t.Sound) (hidle : t.clearing = none)
    (huncounted : t.killer.uncounted = none) :
    ({ t with killer := { t.killer with killCount := ∅ }, hit := ∅ } : Tally).Sound := by
  refine ⟨?_, ht.idle, ht.own⟩
  show Claims.Backed (fun uid => (∅ : UidMap Nat)[uid]?.getD 0)
    (t.killer.uncounted.toList ++ t.owed.toList) ∅
  rw [huncounted, owed_of_not_fresh (ht.idle hidle)]
  exact Claims.backed_of_counts_eq_zero fun uid => by simp

/-- Counters are dropped. -/
theorem sound_retain (ht : t.Sound) (live : UidSet) :
    ({ t with
      killer := { t.killer with
        killCount := retainKeys (fun uid => uid ∈ live) t.killer.killCount } } : Tally).Sound := by
  refine ⟨?_, ht.idle, ht.own⟩
  refine ht.backed.mono (fun uid => ?_) (fun _ => Nat.le_refl _) (Finset.Subset.refl _)
  show (retainKeys (fun uid => uid ∈ live) t.killer.killCount)[uid]?.getD 0 ≤ t.count uid
  rw [getElem?_retainKeys]
  split_ifs
  · exact Nat.le_refl _
  · exact Nat.zero_le _

/-- **A step that meets the condition.** -/
theorem sound_next {t' : Tally} {step : TallyStep} (ht : t.Sound) (hcond : CountsHits t step)
    (hstep : t.next step = some t') : t'.Sound := by
  cases step with
  | killer step =>
      obtain ⟨k, hk, rfl⟩ := Option.map_eq_some_iff.mp hstep
      cases step with
      | advance ans => exact sound_advance ht hcond (Killer.advance_cases hk)
      | _ =>
          obtain ⟨hcounts, hphase⟩ := counts_next_of_ne hk (by simp)
          exact sound_of_same ht hcounts hphase
  | kill transition targets =>
      simp only [next] at hstep
      split_ifs at hstep with hbusy htargets
      obtain rfl := Option.some.inj hstep
      exact sound_kill ht (Option.not_isSome_iff_eq_none.mp hbusy) htargets
  | clear =>
      obtain ⟨c, hc, rfl⟩ := Option.map_eq_some_iff.mp hstep
      exact sound_clear ht hc hcond
  | newDay =>
      simp only [next] at hstep
      split_ifs at hstep with hbusy
      obtain rfl := Option.some.inj hstep
      exact sound_newDay ht (Option.not_isSome_iff_eq_none.mp hbusy) hcond
  | retain live =>
      simp only [next] at hstep
      split_ifs at hstep
      obtain rfl := Option.some.inj hstep
      exact sound_retain ht live

end Tally

/-- **Kill counts count hits** in every run in which a kill that is counted
reaches a process for the first time, and is counted on the day of the kill. -/
theorem killCount_le_hit {t : Tally} (ht : killTally.ReachableWhen CountsHits t) (uid : Uid) :
    t.count uid ≤ t.distinct uid := by
  have hsound : t.Sound := by
    refine ht.invariant (fun t ht => ?_) fun t step t' ht hcond hstep =>
      Tally.sound_next ht hcond hstep
    refine ⟨?_, fun _ => ht.fresh, fun c uid hc => ?_⟩
    · rw [Tally.owed_of_not_fresh ht.fresh, Killer.uncounted, ht.killer.phase]
      exact ht.counts
    · rw [ht.clearing] at hc
      cases hc
  exact hsound.backed.le uid

def Tally.start : Tally := ⟨oneTarget, none, ∅, false⟩

theorem tallyStart_init : killTally.init .start :=
  ⟨oneTarget_init, rfl, rfl, fun _ => Nat.zero_le _⟩

/-- A transition kills one process of the uid, and the killer the next one. -/
def twoKills : List TallyStep :=
  [.killer (.spawn 4001 10001), .kill (some 10001) [(4001, 10001)]] ++ List.replicate 5 .clear ++
    launch.map .killer ++ List.replicate 9 (.killer (.advance foreground))

theorem killCount_le_hit_twoKills :
    ∃ t, killTally.ReachableWhen CountsHits t ∧ t.count 10001 = 2 ∧
      t.count 10001 ≤ t.distinct 10001 := by
  have hrun : ((runWhen Tally.next CountsHits twoKills .start).any fun t =>
      t.count 10001 = 2) = true := by decide +kernel
  obtain ⟨t, ht, hcount⟩ := (Option.any_eq_true _ _).mp hrun
  have hreached := System.reachableWhen_runWhen (.init tallyStart_init) ht
  exact ⟨t, hreached, of_decide_eq_true hcount, killCount_le_hit hreached 10001⟩

/-- The process exits on its own when the killer has made up its mind. -/
def exitsFirst : List TallyStep :=
  launch.map .killer ++ List.replicate 7 (.killer (.advance foreground)) ++
    [.killer (.exit 4000)] ++ List.replicate 2 (.killer (.advance foreground))

/-- A kill is counted although nothing was killed. -/
theorem not_killCount_le_hit :
    ¬ ∀ t, killTally.Reachable t → ∀ uid, t.count uid ≤ t.distinct uid := by
  intro h
  have hend : (runFrom Tally.next exitsFirst .start).map
      (fun t => (t.count 10001, t.distinct 10001)) = some (1, 0) := by decide +kernel
  obtain ⟨t, ht, hcounts⟩ := Option.map_eq_some_iff.mp hend
  obtain ⟨hcount, hdistinct⟩ := Prod.mk.inj hcounts
  have hle := h t (System.reachable_runFrom (.init tallyStart_init) ht) 10001
  rw [hcount, hdistinct] at hle
  exact absurd hle (by decide)

end Ningshi
