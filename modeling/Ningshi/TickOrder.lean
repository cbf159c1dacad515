import Ningshi.Engine.Tick

/-!
# The order of the wanted state does not show

A tick lists the wanted state of the uids in the order of a hash map, which differs
from run to run.  Every uid is listed once, and what is done for one uid is not seen by
what is done for another.

`tick_wantOrder` says that neither whether a tick succeeds nor what it then leaves
depends on this order.  A tick that stops at a refused update has made the updates before
it, and these depend on the order; nothing else does.
-/

namespace Ningshi

open Std FiniteMap Transition

namespace Engine

/-- The state of the gate differs from what is wanted. -/
def differs (entry : Uid × Bool) (eng : Engine) : Bool :=
  entry.2 != eng.blocked.contains entry.1

/-- The gate takes the update. -/
def takes (env : Env) (entry : Uid × Bool) (eng : Engine) : Bool :=
  env.gateOk entry.1 && (entry.2 || eng.gate.kernel.contains entry.1)

/-- The engine with the update of one uid made. -/
def moved (env : Env) (entry : Uid × Bool) (eng : Engine) : Engine :=
  { eng with
    gate := { eng.gate with
      kernel := applyBlock entry.1 entry.2 eng.gate.kernel
      mirror := applyBlock entry.1 entry.2 eng.gate.mirror }
    blocked := if entry.2 then eng.blocked.insert entry.1 else eng.blocked.erase entry.1
    killCount :=
      if entry.2 = true ∧ 0 < killUid env.procs entry.1 then
        eng.killCount.insert entry.1 (eng.killCount[entry.1]?.getD 0 + 1)
      else eng.killCount }

/-- An update of the gate that goes through. -/
theorem gate_setBlocked_result (accepted blocked : Bool) (uid : Uid) (g : Gate) :
    (g.setBlocked accepted uid blocked).result =
      if accepted && (blocked || g.kernel.contains uid) then
        some { g with
          kernel := applyBlock uid blocked g.kernel
          mirror := applyBlock uid blocked g.mirror }
      else none := by
  unfold Gate.setBlocked applyBlock
  cases blocked <;> cases accepted <;> cases g.kernel.contains uid <;> rfl

theorem setBlocked_result (env : Env) (uid : Uid) (blocked : Bool) (eng : Engine) :
    (eng.setBlocked env uid blocked).result =
      if eng.takes env (uid, blocked) then
        some { eng with
          gate := { eng.gate with
            kernel := applyBlock uid blocked eng.gate.kernel
            mirror := applyBlock uid blocked eng.gate.mirror }
          blocked := if blocked then eng.blocked.insert uid else eng.blocked.erase uid }
      else none := by
  have hgate : (eng.gate.setBlocked (env.gateOk uid) uid blocked).result =
      if eng.takes env (uid, blocked) then _ else none :=
    gate_setBlocked_result (env.gateOk uid) blocked uid eng.gate
  unfold setBlocked
  cases hset : eng.gate.setBlocked (env.gateOk uid) uid blocked with
  | err gate =>
      rw [hset] at hgate
      by_cases htakes : eng.takes env (uid, blocked) = true
      · rw [if_pos htakes] at hgate
        cases hgate
      · rw [if_neg htakes, Outcome.result_err]
  | ok gate =>
      rw [hset] at hgate
      by_cases htakes : eng.takes env (uid, blocked) = true
      · rw [if_pos htakes, Outcome.result_ok] at hgate
        rw [if_pos htakes, Outcome.result_ok, Option.some.inj hgate]
      · rw [if_neg htakes] at hgate
        cases hgate

section Commute

variable {env : Env} {a b : Uid × Bool} {eng : Engine}

/-- **A round of the loop.** -/
theorem transition_result (env : Env) (entry : Uid × Bool) (eng : Engine) :
    (eng.transition env entry).result =
      if eng.differs entry then
        if eng.takes env entry then some (eng.moved env entry) else none
      else some eng := by
  obtain ⟨uid, block⟩ := entry
  unfold transition differs
  cases hwas : eng.blocked.contains uid <;> cases block
  · rfl
  · simp only [Bool.not_false, Bool.and_self, if_true, Bool.bne_false]
    rw [setBlocked_result]
    unfold clearUid takes moved
    split_ifs <;> simp_all
  · simp only [Bool.not_true, Bool.and_self, Bool.false_eq_true, if_false, Bool.false_bne, if_true]
    rw [setBlocked_result]
    unfold takes moved
    simp
  · rfl

theorem differs_moved (hne : a.1 ≠ b.1) : (eng.moved env a).differs b = eng.differs b := by
  obtain ⟨uid, block⟩ := a
  have hcontains : (eng.moved env (uid, block)).blocked.contains b.1 =
      eng.blocked.contains b.1 := by
    cases block with
    | true => simp [moved, ExtTreeSet.contains_insert, hne]
    | false => simp [moved, ExtTreeSet.contains_erase, hne]
  rw [differs, differs, hcontains]

theorem takes_moved (hne : a.1 ≠ b.1) : (eng.moved env a).takes env b = eng.takes env b := by
  obtain ⟨uid, block⟩ := a
  have hcontains : (eng.moved env (uid, block)).gate.kernel.contains b.1 =
      eng.gate.kernel.contains b.1 := by
    cases block with
    | true => simp [moved, applyBlock, ExtTreeMap.contains_insert, hne]
    | false => simp [moved, applyBlock, ExtTreeMap.contains_erase, hne]
  rw [takes, takes, hcontains]

theorem getElem?_applyBlock (uid u : Uid) (block : Bool) (m : UidMap UInt8) :
    (applyBlock uid block m)[u]? = if uid = u then if block then some 1 else none else m[u]? := by
  unfold applyBlock
  cases block <;> simp

theorem applyBlock_comm (hne : a.1 ≠ b.1) (m : UidMap UInt8) :
    applyBlock a.1 a.2 (applyBlock b.1 b.2 m) = applyBlock b.1 b.2 (applyBlock a.1 a.2 m) := by
  refine ExtTreeMap.ext_getElem? fun uid => ?_
  simp only [getElem?_applyBlock]
  by_cases ha : a.1 = uid
  · subst ha
    simp [hne.symm]
  · simp [ha]

theorem mem_blocked_moved {uid : Uid} :
    uid ∈ (eng.moved env a).blocked ↔ if a.1 = uid then a.2 = true else uid ∈ eng.blocked := by
  obtain ⟨u, block⟩ := a
  by_cases hu : u = uid <;> cases block <;>
    simp [moved, ExtTreeSet.mem_insert, ExtTreeSet.mem_erase, hu]

theorem getElem?_killCount_moved {uid : Uid} :
    (eng.moved env a).killCount[uid]? =
      if a.1 = uid ∧ a.2 = true ∧ 0 < killUid env.procs a.1 then
        some (eng.killCount[a.1]?.getD 0 + 1)
      else eng.killCount[uid]? := by
  simp only [moved]
  by_cases hkill : a.2 = true ∧ 0 < killUid env.procs a.1
  · simp [hkill]
  · have hnot : ¬(a.1 = uid ∧ a.2 = true ∧ 0 < killUid env.procs a.1) := fun h => hkill h.2
    rw [if_neg hkill, if_neg hnot]

/-- **Updates of different uids commute.** -/
theorem moved_comm (hne : a.1 ≠ b.1) :
    (eng.moved env b).moved env a = (eng.moved env a).moved env b := by
  have hgate : ((eng.moved env b).moved env a).gate = ((eng.moved env a).moved env b).gate := by
    simp only [moved, applyBlock_comm hne]
  have hblocked : ((eng.moved env b).moved env a).blocked =
      ((eng.moved env a).moved env b).blocked := by
    refine ExtTreeSet.ext_mem fun uid => ?_
    simp only [mem_blocked_moved]
    by_cases ha : a.1 = uid
    · subst ha
      simp [hne.symm]
    · simp [ha]
  have hkills : ((eng.moved env b).moved env a).killCount =
      ((eng.moved env a).moved env b).killCount := by
    refine ExtTreeMap.ext_getElem? fun uid => ?_
    simp only [getElem?_killCount_moved]
    by_cases ha : a.1 = uid
    · subst ha
      simp [hne.symm]
    · by_cases hb : b.1 = uid
      · subst hb
        simp [hne]
      · simp [ha, hb]
  calc (eng.moved env b).moved env a
      = { eng with
          gate := ((eng.moved env b).moved env a).gate
          blocked := ((eng.moved env b).moved env a).blocked
          killCount := ((eng.moved env b).moved env a).killCount } := rfl
    _ = { eng with
          gate := ((eng.moved env a).moved env b).gate
          blocked := ((eng.moved env a).moved env b).blocked
          killCount := ((eng.moved env a).moved env b).killCount } := by
        rw [hgate, hblocked, hkills]
    _ = (eng.moved env a).moved env b := rfl

theorem transition_comm (hne : a.1 ≠ b.1) :
    ((eng.transition env a).bind (Engine.transition env b)).result =
      ((eng.transition env b).bind (Engine.transition env a)).result := by
  simp only [Outcome.result_bind, transition_result]
  by_cases ha : eng.differs a = true <;> by_cases hb : eng.differs b = true <;>
    by_cases hta : eng.takes env a = true <;> by_cases htb : eng.takes env b = true <;>
    simp [ha, hb, hta, htb, differs_moved hne, differs_moved hne.symm, takes_moved hne,
      takes_moved hne.symm, moved_comm hne]

/-- **Enforcing does not depend on the order of the wanted state.** -/
theorem enforce_wantOrder (order : IterOrder (Uid × Bool)) (env : Env) (vs : List Verdict)
    (eng : Engine) : (eng.enforce { env with wantOrder := order } vs).result =
      (eng.enforce env vs).result := by
  unfold enforce
  rw [Outcome.result_bind, Outcome.result_bind]
  refine congrArg₂ Option.bind (Outcome.forEach_perm ?_ ?_ _) rfl
  · exact (order.perm _).trans (env.wantOrder.perm _).symm
  · intro a ha b hb hne eng
    refine transition_comm fun huid => hne ?_
    -- a uid is listed once
    have hfound {p : Uid × Bool} (hp : p ∈ order.arrange (want vs).toList) :
        (want vs)[p.1]? = some p.2 := (mem_arrange_toList_iff order (want vs) p).mp hp
    have hsame := (hfound ha).symm.trans (huid ▸ hfound hb)
    exact Prod.ext huid (Option.some.inj hsame)

end Commute

end Engine

/-- The result of a tick, if it succeeds. -/
theorem tick_result_wantOrder (order : IterOrder (Uid × Bool)) (env : Env) (s : Sys) :
    (tick { env with wantOrder := order } s).result = (tick env s).result := by
  have hverdicts (s : Sys) : (tickVerdicts { env with wantOrder := order } s).result =
      (tickVerdicts env s).result := by
    unfold tickVerdicts
    rw [Outcome.result_bind, Outcome.result_map, Outcome.result_bind, Outcome.result_map]
    have henforce := Engine.enforce_wantOrder order env
      ((s.eng.prepare env).judge env) (s.eng.prepare env)
    exact congrArg (fun o : Option Engine =>
      (o.map fun eng => ({ s with eng := eng } : Sys)).bind fun s => some (finishTick env s))
      henforce
  unfold tick
  rw [Outcome.result_bind, Outcome.result_bind]
  exact congrArg₂ Option.bind rfl (funext hverdicts)

/-- What a tick leaves whose refresh goes through and which then stops. -/
theorem tick_refused {env : Env} {s mid : Sys} (hrefresh : refresh env s = .ok mid)
    (hrefused : (tick env s).isOk = false) :
    (tick env s).state =
      { mid with eng :=
        ((mid.eng.prepare env).enforce env ((mid.eng.prepare env).judge env)).state } := by
  rcases tick_cases env s with ⟨mid', hfailed, -⟩ | ⟨mid', hrefresh', hrest⟩
  · rw [hrefresh] at hfailed
    cases hfailed
  · obtain rfl := Outcome.ok.inj (hrefresh'.symm.trans hrefresh)
    rcases hrest with ⟨eng, henforce, htick⟩ | ⟨eng, henforce, htick⟩
    · rw [htick, henforce, Outcome.state_err, Outcome.state_err]
    · rw [htick] at hrefused
      cases hrefused

/-- Two engines that differ from a third in nothing but what is blocked. -/
theorem SameButBlocks.both {eng a b : Engine} (ha : SameButBlocks eng a)
    (hb : SameButBlocks eng b) : SameButBlocks a b := by
  obtain ⟨gate, blocked, killCount, hidentity, rfl⟩ := ha
  obtain ⟨gate', blocked', killCount', hidentity', rfl⟩ := hb
  exact ⟨gate', blocked', killCount', hidentity'.trans hidentity.symm, rfl⟩

/-- **The order in which a tick lists the wanted state does not show**: neither in
whether the tick succeeds nor in the engine and the files it leaves when it does.  When it
does not, only the uids that are blocked and their kill counts may differ. -/
theorem tick_wantOrder (order : IterOrder (Uid × Bool)) (env : Env) (s : Sys) :
    (tick { env with wantOrder := order } s).isOk = (tick env s).isOk ∧
      ((tick env s).isOk = true →
        (tick { env with wantOrder := order } s).state = (tick env s).state) ∧
      SameButBlocks (tick env s).state.eng (tick { env with wantOrder := order } s).state.eng ∧
      (tick { env with wantOrder := order } s).state.fs = (tick env s).state.fs := by
  have hresult := tick_result_wantOrder order env s
  have hisOk : (tick { env with wantOrder := order } s).isOk = (tick env s).isOk := by
    rw [← Outcome.isSome_result, hresult, Outcome.isSome_result]
  have hstate (hok : (tick env s).isOk = true) :
      (tick { env with wantOrder := order } s).state = (tick env s).state := by
    rw [Outcome.eq_ok_of_isOk (hisOk.trans hok), Outcome.eq_ok_of_isOk hok,
      Outcome.result_ok, Outcome.result_ok] at hresult
    exact Option.some.inj hresult
  refine ⟨hisOk, hstate, ?_⟩
  by_cases hok : (tick env s).isOk = true
  · rw [hstate hok]
    exact ⟨.refl _, rfl⟩
  have hrefused := Bool.eq_false_iff.mpr hok
  cases hrefresh : refresh env s with
  | err mid =>
      have hstopped (env : Env) (h : refresh env s = .err mid) : tick env s = .err mid := by
        rw [tick, h, Outcome.bind_err]
      rw [hstopped env hrefresh, hstopped { env with wantOrder := order } hrefresh]
      exact ⟨.refl _, rfl⟩
  | ok mid =>
      have hrefresh' : refresh { env with wantOrder := order } s = .ok mid := hrefresh
      rw [tick_refused hrefresh hrefused, tick_refused hrefresh' (hisOk.trans hrefused)]
      exact ⟨(sameButBlocks_enforce env _ _).both (sameButBlocks_enforce _ _ _), rfl⟩

end Ningshi
