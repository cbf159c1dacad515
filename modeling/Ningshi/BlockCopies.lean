import Ningshi.Daemon

/-!
# The three copies of the block list

What is blocked stands in three places: the engine's own set, the kernel map,
and the mirror of the kernel map that the killer thread reads.  A tick can stop
after any update of the gate, but an update changes all three or none of them.
`copiesAgree_of_reachable` says that the three have the same keys at all times.
-/

namespace Ningshi

open Std FiniteMap Transition

/-- The engine's set, the kernel map and the mirror have the same keys. -/
structure CopiesAgree (eng : Engine) : Prop where
  kernel : ∀ uid, uid ∈ eng.gate.kernel ↔ uid ∈ eng.blocked
  mirror : ∀ uid, uid ∈ eng.gate.mirror ↔ uid ∈ eng.blocked

/-- The mirror is a copy of the kernel map, with the values. -/
def Gate.Mirrored (g : Gate) : Prop := g.mirror = g.kernel

/-- **An update keeps the copy exact**, whether or not the kernel accepts it. -/
theorem mirrored_setBlocked {g : Gate} (hg : g.Mirrored) (accepted : Bool) (uid : Uid)
    (blocked : Bool) : (g.setBlocked accepted uid blocked).state.Mirrored := by
  unfold Gate.Mirrored at hg ⊢
  unfold Gate.setBlocked
  split_ifs
  · rw [Outcome.state_ok, hg]
  · exact hg
  · rw [Outcome.state_ok, hg]
  · exact hg

/-! ## Through the engine -/

theorem mirrored_engineSetBlocked {eng : Engine} (heng : eng.gate.Mirrored) (env : Env)
    (uid : Uid) (blocked : Bool) : (eng.setBlocked env uid blocked).state.gate.Mirrored := by
  have hgate := mirrored_setBlocked heng (env.gateOk uid) uid blocked
  unfold Engine.setBlocked
  split
  next gate hset =>
    rw [hset] at hgate
    exact hgate
  next gate hset =>
    rw [hset] at hgate
    exact hgate

theorem mirrored_transition {eng : Engine} (heng : eng.gate.Mirrored) (env : Env)
    (entry : Uid × Bool) : (eng.transition env entry).state.gate.Mirrored := by
  obtain ⟨killCount, h⟩ := transition_eq env entry eng
  have hcounted : { eng with killCount := killCount }.gate.Mirrored := heng
  rw [h]
  split_ifs
  · exact mirrored_engineSetBlocked hcounted env entry.1 entry.2
  · exact hcounted

theorem mirrored_release {eng : Engine} (heng : eng.gate.Mirrored) (env : Env)
    (wanted : UidMap Bool) (uid : Uid) : (eng.release env wanted uid).state.gate.Mirrored := by
  unfold Engine.release
  split_ifs
  · exact heng
  · exact mirrored_engineSetBlocked heng env uid false

/-- Both loops keep the copy exact, wherever they stop. -/
theorem mirrored_enforce {eng : Engine} (heng : eng.gate.Mirrored) (env : Env)
    (vs : List Verdict) : (eng.enforce env vs).state.gate.Mirrored := by
  simp only [Engine.enforce]
  refine Outcome.bind_state (p := fun eng : Engine => eng.gate.Mirrored) ?_ fun s _ hs => ?_
  · exact Outcome.forEach_state (p := fun eng : Engine => eng.gate.Mirrored)
      (fun entry _ s hs => mirrored_transition hs env entry) heng
  · exact Outcome.forEach_state (p := fun eng : Engine => eng.gate.Mirrored)
      (fun uid _ s hs => mirrored_release hs env (want vs) uid) hs

theorem mirrored_tick {env : Env} {s : Sys} (hs : s.eng.gate.Mirrored) :
    (tick env s).state.eng.gate.Mirrored := by
  have hrefreshed := (refresh_blocks env s).1
  rcases tick_cases env s with ⟨mid, hrefresh, htick⟩ | ⟨mid, hrefresh, hrest⟩
  · rw [hrefresh, Outcome.state_err] at hrefreshed
    rw [htick, Outcome.state_err, hrefreshed]
    exact hs
  · rw [hrefresh, Outcome.state_ok] at hrefreshed
    have hprepared : (mid.eng.prepare env).gate.Mirrored := by
      rw [(keepsSetup_prepare env mid.eng).gate, hrefreshed]
      exact hs
    have henforced := mirrored_enforce hprepared env ((mid.eng.prepare env).judge env)
    rcases hrest with ⟨eng, henforce, htick⟩ | ⟨eng, henforce, htick⟩
    · rw [henforce] at henforced
      rw [htick]
      exact henforced
    · rw [henforce] at henforced
      obtain ⟨_, _, _, hfinish⟩ := finishTick_frame env { mid with eng := eng }
      rw [htick, Outcome.state_ok, hfinish]
      exact henforced

/-! ## Runs -/

/-- What a run keeps. -/
structure InStep (eng : Engine) : Prop where
  blocks : BlocksOnly (fun _ => True) eng
  mirrored : eng.gate.Mirrored

theorem inStep_perform (op : Op) {s : Sys} (hs : InStep s.eng) : InStep (op.perform s).eng := by
  have hother (hop : ∀ env, op ≠ .tick env) : InStep (op.perform s).eng := by
    obtain ⟨hgate, hblocked⟩ := perform_blocks s hop
    refine ⟨hs.blocks.congr hgate hblocked, ?_⟩
    rw [hgate]
    exact hs.mirrored
  cases op with
  | tick env => exact ⟨blocksOnly_tick hs.blocks fun _ _ => trivial, mirrored_tick hs.mirrored⟩
  | reload env => exact hother (by simp)
  | apply env candidate => exact hother (by simp)
  | extension env key minutes => exact hother (by simp)
  | sync env => exact hother (by simp)
  | killed uid => exact hother (by simp)

/-- **The three copies of the block list never diverge**, in any run of ticks
and other operations, however each of them ends. -/
theorem copiesAgree_of_reachable {d : Daemon} (hd : daemon.Reachable d) :
    d.Holds fun s => CopiesAgree s.eng := by
  have hinStep : d.Holds fun s => InStep s.eng := by
    refine daemon_invariant (p := fun s => InStep s.eng) (fun fs env _ => ?_)
      (fun s op hs _ => inStep_perform op hs) (fun s fs hs => hs) hd
    refine ⟨blocksOnly_new env fs, ?_⟩
    rw [(new_frame env fs).2.1]
    rfl
  cases d with
  | down fs => trivial
  | up s =>
      have hs : InStep s.eng := hinStep
      refine ⟨hs.blocks.kernel, fun uid => ?_⟩
      rw [hs.mirrored]
      exact hs.blocks.kernel uid

/-- Rules for two apps. -/
def twoApps : Fs where
  rules := some ⟨.json { Rules.default with
    apps := insertAll [("0:com.a", ⟨true, RuleSet.alwaysBlocking⟩),
      ("0:com.b", ⟨true, RuleSet.alwaysBlocking⟩)] ∅ }.toJson, 1⟩
  backup := none
  state := none
  packages := some ⟨"com.a 10001\ncom.b 10002", 1⟩

/-- The kernel refuses the second of the two uids. -/
def secondRefused : Env := { Env.quiet 100 with gateOk := fun uid => uid == 10001 }

/-- After a tick that stops halfway. -/
theorem copiesAgree_of_reachable_twoApps :
    (tick secondRefused (Engine.new (.quiet 100) twoApps)).isOk = false ∧
      (Daemon.up ((Op.tick secondRefused).perform (Engine.new (.quiet 100) twoApps))).Holds
        fun s => CopiesAgree s.eng :=
  ⟨by decide +kernel, copiesAgree_of_reachable (reachable_perform (reachable_new trivial) trivial)⟩

end Ningshi
