import Ningshi.CgroupSweep
import Ningshi.Engine.Refresh
import Ningshi.MainLoop

/-!
# The sweep comes in time

The sweep is the safety net under the gate: a process that has got past it, or
that makes no call the gate sees, is killed by the next sweep over the blocked
uids.  A sweep is made by a tick at least a minute after the last one, and while
anything is blocked the loop sleeps for a minute at most.

`swept_in_time` says that as long as a uid stays blocked there is a sweep over
it every two minutes, whatever clients, reports and file changes come between.
-/

namespace Ningshi

open Std FiniteMap JsonDoc Transition

/-! ## What moves the time of the last sweep -/

/-- The blocked uids and the time of the last sweep stay as they are. -/
structure KeepsSweep (eng eng' : Engine) : Prop where
  blocked : eng'.blocked = eng.blocked
  lastSweep : eng'.lastSweep = eng.lastSweep

section Kept

variable {env : Env} {s : Sys}

theorem KeepsSweep.refl (eng : Engine) : KeepsSweep eng eng := ⟨rfl, rfl⟩

theorem KeepsSweep.trans {a b c : Engine} (hab : KeepsSweep a b) (hbc : KeepsSweep b c) :
    KeepsSweep a c :=
  ⟨hbc.blocked.trans hab.blocked, hbc.lastSweep.trans hab.lastSweep⟩

theorem keepsSweep_reload (env : Env) (s : Sys) :
    KeepsSweep s.eng (reload env s).state.eng := by
  obtain ⟨_, _, _, _, _, _, h⟩ := reload_frame env s
  rw [h]
  exact ⟨rfl, rfl⟩

theorem keepsSweep_syncPackages (env : Env) (s : Sys) :
    KeepsSweep s.eng (syncPackages env s).state.eng := by
  rcases syncPackages_cases env s with h | ⟨mtime, uids, -, h⟩
  · rw [h]
    exact .refl s.eng
  · rw [h, Engine.resync_eq]
    exact ⟨rfl, rfl⟩

/-- An operation other than a tick does not sweep. -/
theorem keepsSweep_perform {op : Op} (s : Sys) (hop : ∀ env, op ≠ .tick env) :
    KeepsSweep s.eng (op.perform s).eng := by
  cases op with
  | tick env => exact absurd rfl (hop env)
  | reload env => exact keepsSweep_reload env s
  | apply env candidate =>
      show KeepsSweep s.eng (applyRulesFile env candidate s).state.eng
      rcases applyRulesFile_cases env candidate s with h | ⟨rules, -, h⟩
      · rw [h]
        exact .refl s.eng
      · rw [h]
        exact keepsSweep_reload env (s.writeRules env rules)
  | extension env key minutes =>
      cases hext : s.eng.addExtension env key minutes with
      | ok result =>
          obtain ⟨_, _, _, _, heng⟩ := addExtension_frame hext
          simp only [Op.perform, Op.outcome, hext, Outcome.state_ok, heng]
          exact ⟨rfl, rfl⟩
      | error =>
          simp only [Op.perform, Op.outcome, hext, Outcome.state_err]
          exact .refl s.eng
  | sync env => exact keepsSweep_syncPackages env s
  | killed uid => exact ⟨rfl, rfl⟩

/-- Nor does a client. -/
theorem keepsSweep_served (r : Round) (s : Sys) : KeepsSweep s.eng (r.served s).eng := by
  rcases r.served_cases s with hsame | ⟨c, req, op, -, hop, hserved⟩
  · rw [hsame]
    exact .refl s.eng
  · rw [hserved]
    refine keepsSweep_perform s fun env htick => ?_
    unfold Request.asks at hop
    split_ifs at hop <;> cases htick.symm.trans (Option.some.inj hop).symm

theorem keepsSweep_refresh (env : Env) (s : Sys) :
    KeepsSweep s.eng (refresh env s).state.eng := by
  refine Outcome.bind_state (p := fun s' : Sys => KeepsSweep s.eng s'.eng) ?_ fun s' _ hs' => ?_
  · rcases reloadIfChanged_cases env s with ⟨h, -⟩ | ⟨mtime, -, -, h⟩
    · rw [h]
      exact .refl s.eng
    · rw [h]
      exact keepsSweep_reload env s
  · exact hs'.trans (keepsSweep_syncPackages env s')

theorem lastSweep_new (env : Env) (fs : Fs) : (Engine.new env fs).eng.lastSweep = 0 := by
  obtain ⟨rules, source, heng⟩ :=
    loadRules_frame env ⟨{ Engine.blank .start with started := env.epoch }, fs⟩
  simp only [Engine.new, Engine.loadState, heng, Engine.restore]
  split
  next => rfl
  next => split_ifs <;> rfl

theorem lastSweep_prepare (env : Env) (eng : Engine) :
    (eng.prepare env).lastSweep = eng.lastSweep := by
  obtain ⟨screenOff, hprepare⟩ := prepare_eq env eng
  obtain ⟨_, _, _, _, hcooldowns⟩ := sameButUsage_maintainCooldowns env.epoch (eng.count env)
  obtain ⟨usageSeconds, usageFg, haccrue⟩ :=
    accrue_eq env (eng.dailyReset (eng.nowParts env.epoch).date)
  rw [hprepare, hcooldowns, Engine.count, haccrue]
  unfold Engine.dailyReset
  split_ifs <;> rfl

end Kept

section Tick

variable {env : Env} {s s' : Sys}

/-- **What a tick that succeeds does about the sweep.** -/
theorem sweep_of_tick (h : tick env s = .ok s') :
    (s'.eng.lastSweep =
      if sweepSecs ≤ env.epoch - s.eng.lastSweep then env.epoch else s.eng.lastSweep) ∧
    (sweepSecs ≤ env.epoch - s.eng.lastSweep →
      ∀ p ∈ killed env.procs s'.eng.blocked, p ∈ tickKills env s) := by
  obtain ⟨mid, eng, hrefresh, henforce, rfl⟩ := tick_eq_ok_iff.mp h
  have hlast : eng.lastSweep = s.eng.lastSweep := by
    have hkept := (keepsSweep_refresh env s).lastSweep
    rw [hrefresh, Outcome.state_ok] at hkept
    obtain ⟨_, _, _, -, hframe⟩ :=
      sameButBlocks_enforce env ((mid.eng.prepare env).judge env) (mid.eng.prepare env)
    rw [henforce, Outcome.state_ok] at hframe
    rw [hframe]
    exact (lastSweep_prepare env mid.eng).trans hkept
  constructor
  · have hswept : (finishTick env { mid with eng := eng }).eng.lastSweep =
        (eng.sweep env).lastSweep := by
      simp only [finishTick]
      split_ifs <;> rfl
    rw [hswept, Engine.sweep, hlast]
    split_ifs
    · rfl
    · exact hlast
  · intro hdue p hp
    obtain ⟨_, _, _, hfinish⟩ := finishTick_frame env { mid with eng := eng }
    rw [hfinish] at hp
    simp only [tickKills, hrefresh, Engine.enforceKills, henforce, List.mem_append]
    refine .inr ?_
    rw [Engine.sweepKills, if_pos (by rwa [hlast])]
    exact hp

/-- A tick that fails does not sweep. -/
theorem lastSweep_of_tick_err (h : tick env s = .err s') :
    s'.eng.lastSweep = s.eng.lastSweep := by
  have hrefreshed := (keepsSweep_refresh env s).lastSweep
  rcases tick_cases env s with ⟨mid, hrefresh, htick⟩ |
    ⟨mid, hrefresh, ⟨eng, henforce, htick⟩ | ⟨eng, henforce, htick⟩⟩
  · rw [hrefresh, Outcome.state_err] at hrefreshed
    rw [htick] at h
    exact Outcome.err.inj h ▸ hrefreshed
  · rw [hrefresh, Outcome.state_ok] at hrefreshed
    obtain ⟨_, _, _, -, hframe⟩ :=
      sameButBlocks_enforce env ((mid.eng.prepare env).judge env) (mid.eng.prepare env)
    rw [henforce, Outcome.state_err] at hframe
    rw [htick] at h
    obtain rfl := Outcome.err.inj h
    rw [hframe]
    exact (lastSweep_prepare env mid.eng).trans hrefreshed
  · rw [htick] at h
    cases h

/-- The last sweep is the one before, or it was made by this tick. -/
theorem lastSweep_tick (env : Env) (s : Sys) :
    (tick env s).state.eng.lastSweep = s.eng.lastSweep ∨
      (tick env s).state.eng.lastSweep = env.epoch := by
  cases htick : tick env s with
  | ok s' =>
      rw [Outcome.state_ok, (sweep_of_tick htick).1]
      split_ifs
      · exact .inr rfl
      · exact .inl rfl
  | err s' => exact .inl (lastSweep_of_tick_err htick)

end Tick

/-- While anything is blocked the loop sleeps for a minute at most. -/
theorem tickIntervalSecs_le_of_blocked {eng : Engine} (h : eng.blocked.isEmpty = false)
    (epoch : Nat) : eng.tickIntervalSecs epoch ≤ sweepTickSecs :=
  (nextWakeSecs_isLeast _).2 (.sweep (by simp [Engine.wakeInputs, h]))

/-! ## The loop and the clock -/

/-- The wall clock is `offset` ahead of the instants, and a round that has decided
whether to tick is over soon. -/
structure Round.Clocked (offset overhead : Nat) (l : MainLoop) (r : Round) : Prop
    extends r.Timed overhead l where
  reads : ∃ t, r.decided ≤ t ∧ t ≤ r.ended ∧ r.env.epoch = (offset + t) / nanos
  brisk : r.ended ≤ r.decided + overhead

def KeepsClock (offset overhead : Nat) (l : MainLoop) : LoopEvent → Prop
  | .round r => r.Clocked offset overhead l
  | .files _ => True

/-- The loop, when its first tick is not later than its beginning. -/
def clockedLoop (offset : Nat) : System MainLoop LoopEvent :=
  .ofNext (fun l => ∃ start first fs now, first.epoch * nanos ≤ offset + now ∧
    l = .begin start first fs now) MainLoop.next

/-- What every run of the loop keeps. -/
structure MainLoop.OnCadence (offset overhead : Nat) (l : MainLoop) : Prop
    extends l.Punctual overhead where
  ticked : l.lastTick ≤ l.clock
  swept : l.sys.eng.lastSweep * nanos ≤ offset + l.clock
  cadence : l.sys.eng.blocked.isEmpty = false →
    l.nextTick ≤ l.lastTick + sweepTickSecs * nanos

section Loop

variable {offset overhead : Nat} {l l' : MainLoop} {r : Round} {uid : Uid}

/-- A reading of the clock is not ahead of it. -/
theorem Round.Clocked.epoch_le (h : r.Clocked offset overhead l) :
    r.env.epoch * nanos ≤ offset + r.ended := by
  obtain ⟨t, -, ht, hepoch⟩ := h.reads
  have hdiv : (offset + t) / nanos * nanos ≤ offset + t := Nat.div_mul_le_self _ _
  rw [hepoch]
  omega

/-- Nor is it far behind. -/
theorem Round.Clocked.ended_lt (h : r.Clocked offset overhead l) :
    offset + r.ended < (r.env.epoch + 1) * nanos + overhead := by
  obtain ⟨t, ht, -, hepoch⟩ := h.reads
  have hbrisk := h.brisk
  have hmod : offset + t < ((offset + t) / nanos + 1) * nanos :=
    (Nat.div_lt_iff_lt_mul (by decide)).mp (Nat.lt_succ_self _)
  rw [hepoch]
  omega

theorem onCadence_round (hl : l.OnCadence offset overhead) (hr : r.Clocked offset overhead l) :
    (l.round r).OnCadence offset overhead := by
  have hpunctual := hl.toPunctual.round hr.toTimed
  have hkept := keepsSweep_served r l.sys
  have hforward : l.clock ≤ r.ended := (hr.begins.trans hr.decides).trans hr.ends
  have hswept := hl.swept
  unfold MainLoop.round at hpunctual ⊢
  split_ifs at hpunctual ⊢ with hticks
  · refine ⟨hpunctual, le_rfl, ?_, fun hblocked => ?_⟩
    · show (tick r.env (r.served l.sys)).state.eng.lastSweep * nanos ≤ offset + r.ended
      rcases lastSweep_tick r.env (r.served l.sys) with hlast | hlast
      · rw [hlast, hkept.lastSweep]
        omega
      · rw [hlast]
        exact hr.epoch_le
    · exact Nat.add_le_add_left
        (Nat.mul_le_mul_right nanos (tickIntervalSecs_le_of_blocked hblocked _)) _
  · refine ⟨hpunctual, hl.ticked.trans hforward, ?_, fun hblocked => hl.cadence ?_⟩
    · show (r.served l.sys).eng.lastSweep * nanos ≤ offset + r.ended
      rw [hkept.lastSweep]
      omega
    · exact hkept.blocked ▸ hblocked

theorem onCadence_of_reachable
    (hl : (clockedLoop offset).ReachableWhen (KeepsClock offset overhead) l) :
    l.OnCadence offset overhead := by
  refine System.ReachableWhen.invariant
    (?_ : ∀ l, (clockedLoop offset).init l → l.OnCadence offset overhead) ?_ hl
  · rintro l ⟨start, first, fs, now, hfirst, rfl⟩
    refine ⟨⟨Nat.le_add_right _ _, Nat.le_add_right _ _⟩, le_rfl, ?_, fun _ =>
      Nat.le_add_right _ _⟩
    show (tick first (Engine.new start fs)).state.eng.lastSweep * nanos ≤ offset + now
    rcases lastSweep_tick first (Engine.new start fs) with hlast | hlast
    · rw [hlast, lastSweep_new, Nat.zero_mul]
      exact Nat.zero_le _
    · rw [hlast]
      exact hfirst
  · intro l event l' hl hcond hnext
    cases event with
    | round r =>
        obtain rfl := Option.some.inj hnext
        exact onCadence_round hl hcond
    | files fs =>
        obtain rfl := Option.some.inj hnext
        exact ⟨⟨hl.due, hl.soon⟩, hl.ticked, hl.swept, hl.cadence⟩

/-! ## While a uid stays blocked -/

/-- The round leaves the uid blocked, and if it ticks, the tick succeeds. -/
structure Round.LeavesBlocked (uid : Uid) (l : MainLoop) (r : Round) : Prop where
  succeeds : l.ticks r → (tick r.env (r.served l.sys)).isOk = true
  blocked : uid ∈ (l.round r).sys.eng.blocked

def StaysBlocked (offset overhead : Nat) (uid : Uid) (l : MainLoop) : LoopEvent → Prop
  | .round r => r.Clocked offset overhead l ∧ r.LeavesBlocked uid l
  | .files _ => True

/-- The tick of the round signals whatever runs under the uid in the cgroup of the
uid, or anywhere when there is none. -/
def Round.Sweeps (uid : Uid) (l : MainLoop) (r : Round) : Prop :=
  l.ticks r ∧ ∀ (t : CgroupTable) (pid : Int), t.Shows r.env.procs → 1 < pid →
    t.owner pid = some uid → (uid ∈ t.dirs → t.place pid = some (.app uid)) →
      (pid, uid) ∈ tickKills r.env (r.served l.sys)

/-- No sweep has come since an instant. -/
structure MainLoop.Unswept (offset overhead : Nat) (uid : Uid) (since : Nat) (l : MainLoop) :
    Prop extends l.OnCadence offset overhead where
  blocked : uid ∈ l.sys.eng.blocked
  before : l.sys.eng.lastSweep * nanos ≤ offset + since
  /-- otherwise the last tick would have swept -/
  early : l.lastTick ≤ since + sweepSecs * nanos + overhead

theorem MainLoop.Unswept.nextTick_le {since : Nat} (h : l.Unswept offset overhead uid since) :
    l.nextTick ≤ since + 120 * nanos + overhead := by
  have hcadence := h.cadence (ExtTreeSet.isEmpty_eq_false_iff.mpr
    (ExtTreeSet.ne_empty_of_mem h.blocked))
  have hearly := h.early
  simp only [sweepTickSecs, sweepSecs] at hcadence hearly
  omega

/-- **A round sweeps, or it is too early for a sweep.** -/
theorem sweeps_or_unswept {since : Nat} (h : l.Unswept offset overhead uid since)
    (hr : r.Clocked offset overhead l) (hblocked : r.LeavesBlocked uid l) :
    r.Sweeps uid l ∨ (l.round r).Unswept offset overhead uid since := by
  have hcadence := onCadence_round h.toOnCadence hr
  have hkept := keepsSweep_served r l.sys
  have hbefore := h.before
  by_cases hticks : l.ticks r
  · have hround : (l.round r).sys = (tick r.env (r.served l.sys)).state ∧
        (l.round r).lastTick = r.ended := by
      rw [MainLoop.round, if_pos hticks]
      exact ⟨rfl, rfl⟩
    have hok := Outcome.eq_ok_of_isOk (hblocked.succeeds hticks)
    obtain ⟨hlast, hkills⟩ := sweep_of_tick hok
    rw [hkept.lastSweep] at hlast hkills
    by_cases hdue : sweepSecs ≤ r.env.epoch - l.sys.eng.lastSweep
    · refine .inl ⟨hticks, fun t pid hshows hpid howner hplace => hkills hdue (pid, uid) ?_⟩
      refine (mem_killed_shows hshows _ pid uid).mpr ⟨hpid, ?_, howner, hplace⟩
      rw [← hround.1]
      exact hblocked.blocked
    · rw [if_neg hdue, ← hround.1] at hlast
      refine .inr ⟨hcadence, hblocked.blocked, hlast ▸ hbefore, ?_⟩
      have hended := hr.ended_lt
      have hsecs : (r.env.epoch + 1) * nanos ≤ (l.sys.eng.lastSweep + sweepSecs) * nanos :=
        Nat.mul_le_mul_right nanos (by omega)
      rw [hround.2]
      rw [Nat.add_mul l.sys.eng.lastSweep] at hsecs
      omega
  · have hround : (l.round r).sys = r.served l.sys ∧ (l.round r).lastTick = l.lastTick := by
      rw [MainLoop.round, if_neg hticks]
      exact ⟨rfl, rfl⟩
    refine .inr ⟨hcadence, hblocked.blocked, ?_, ?_⟩
    · rw [hround.1, hkept.lastSweep]
      exact hbefore
    · rw [hround.2]
      exact h.early

/-- **A sweep comes in time.**  In every run of the loop that leaves a uid blocked
and is longer than two minutes and two overheads, some round of the first two
minutes and three overheads signals every process of the uid. -/
theorem swept_in_time {events : List LoopEvent}
    (hl : (clockedLoop offset).ReachableWhen (KeepsClock offset overhead) l)
    (hblocked : uid ∈ l.sys.eng.blocked)
    (hrun : (clockedLoop offset).RunWhen (StaysBlocked offset overhead uid) l events l')
    (hlong : l.clock + 120 * nanos + 2 * overhead < l'.clock) :
    ∃ before r after mid, events = before ++ .round r :: after ∧
      (clockedLoop offset).RunWhen (StaysBlocked offset overhead uid) l before mid ∧
      r.Sweeps uid mid ∧ r.ended ≤ l.clock + 120 * nanos + 3 * overhead := by
  have hcadence := onCadence_of_reachable hl
  have hstart : l.Unswept offset overhead uid l.clock :=
    ⟨hcadence, hblocked, hcadence.swept, by have := hcadence.ticked; omega⟩
  have hstep (m : MainLoop) (event : LoopEvent) (m' : MainLoop)
      (hm : m.Unswept offset overhead uid l.clock)
      (hcond : StaysBlocked offset overhead uid m event)
      (hnext : (clockedLoop offset).step m event m') :
      (∃ r, event = .round r ∧ r.Sweeps uid m) ∨ m'.Unswept offset overhead uid l.clock := by
    cases event with
    | round r =>
        obtain rfl := Option.some.inj hnext
        exact (sweeps_or_unswept hm hcond.1 hcond.2).imp_left fun hsweeps => ⟨r, rfl, hsweeps⟩
    | files fs =>
        obtain rfl := Option.some.inj hnext
        exact .inr ⟨⟨⟨hm.due, hm.soon⟩, hm.ticked, hm.swept, hm.cadence⟩, hm.blocked, hm.before,
          hm.early⟩
  rcases hrun.exists_hit_or hstep hstart with
    ⟨before, _, after, mid, hevents, hbefore, hmid, hcond, r, rfl, hsweeps⟩ | hend
  · refine ⟨before, r, after, mid, hevents, hbefore, hsweeps, ?_⟩
    have hclocked : r.Clocked offset overhead mid := hcond.1
    have hended := hmid.toPunctual.ended_le hclocked.toTimed
    have hnext := hmid.nextTick_le
    omega
  · have hdue := hend.due
    have hnext := hend.nextTick_le
    omega

end Loop

/-- One app, always blocked, and its process, which has slipped past the gate. -/
def slippedFiles : Fs where
  rules := some ⟨.json { Rules.default with
    apps := insertAll [("0:com.a", ⟨true, RuleSet.alwaysBlocking⟩)] ∅ }.toJson, 1⟩
  backup := none
  state := none
  packages := some ⟨"com.a 10001", 1⟩

def slippedTable : CgroupTable where
  procs := insertAll [(5000, (10001, .elsewhere))] ∅
  dirs := ∅
  rooted := by
    intro pid p hp uid huid
    rw [getElem?_insertAll, ExtTreeMap.getElem?_empty, Option.or_none] at hp
    obtain ⟨-, rfl⟩ : pid = 5000 ∧ p = (10001, .elsewhere) := by
      simpa using mem_of_lastValue_eq_some hp
    cases huid

/-- The loop wakes up every minute; the process is seen from the second round on. -/
def patrol (k : Nat) : Round where
  now := (k - 1) * 60 * nanos
  conn := none
  reads := none
  decided := k * 60 * nanos
  env := { Env.quiet (100 + k * 60) with
    procs := if k = 0 then .quiet else slippedTable.view }
  ended := k * 60 * nanos

def patrolled : Nat → MainLoop
  | 0 => .begin (.quiet 100) (.quiet 100) slippedFiles 0
  | k + 1 => (patrolled k).round (patrol k)

theorem staysBlocked_patrol : ∀ k < 4,
    StaysBlocked (100 * nanos) nanos 10001 (patrolled k) (.round (patrol k)) := by
  have hall : ∀ k < 4, ((patrolled k).clock ≤ (patrol k).now ∧
      (patrol k).now ≤ (patrol k).decided ∧
      (patrol k).ended ≤ (patrolled k).clock +
        waitMs (patrol k).now (patrolled k).nextTick * 1000000 + nanos) ∧
      (patrol k).env.epoch = (100 * nanos + (patrol k).decided) / nanos ∧
      (tick (patrol k).env (patrolled k).sys).isOk = true ∧
      10001 ∈ (patrolled (k + 1)).sys.eng.blocked := by
    decide +kernel
  intro k hk
  obtain ⟨⟨hbegins, hdecides, hshort⟩, hepoch, hok, hblocked⟩ := hall k hk
  exact ⟨⟨⟨hbegins, hdecides, le_rfl, hshort⟩, ⟨_, le_rfl, le_rfl, hepoch⟩, Nat.le_add_right _ _⟩,
    ⟨fun _ => hok, hblocked⟩⟩

theorem swept_in_time_patrolled :
    10001 ∈ (patrolled 0).sys.eng.blocked ∧ ∃ before r after mid,
      [patrol 0, patrol 1, patrol 2, patrol 3].map LoopEvent.round =
        before ++ .round r :: after ∧
      (clockedLoop (100 * nanos)).RunWhen (StaysBlocked (100 * nanos) nanos 10001)
        (patrolled 0) before mid ∧
      r.Sweeps 10001 mid ∧ r.ended ≤ (patrolled 0).clock + 120 * nanos + 3 * nanos := by
  have hblocked : 10001 ∈ (patrolled 0).sys.eng.blocked := by decide +kernel
  have hrun : (clockedLoop (100 * nanos)).RunWhen (StaysBlocked (100 * nanos) nanos 10001)
      (patrolled 0) ([patrol 0, patrol 1, patrol 2, patrol 3].map LoopEvent.round)
      (patrolled 4) :=
    .cons (staysBlocked_patrol 0 (by decide)) rfl <|
      .cons (staysBlocked_patrol 1 (by decide)) rfl <|
        .cons (staysBlocked_patrol 2 (by decide)) rfl <|
          .cons (staysBlocked_patrol 3 (by decide)) rfl (.nil _)
  have hlong : (patrolled 0).clock + 120 * nanos + 2 * nanos < (patrolled 4).clock := by
    decide +kernel
  exact ⟨hblocked, swept_in_time (.init ⟨_, _, _, _, by decide, rfl⟩) hblocked hrun hlong⟩

/-- The process is killed in the second round. -/
example : tickKills (patrol 1).env (patrolled 1).sys = [(5000, 10001)] := by decide +kernel

end Ningshi
