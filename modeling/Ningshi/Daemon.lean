import Ningshi.Engine.Tick

/-!
# The daemon as a transition system

A daemon is down, with its files on disk, or up.  It starts from whatever files
there are; while it is up it ticks, answers requests and counts the kills of
the gate, and at any time something outside changes the files.  It can stop and
start again.

An operation that fails keeps what it had done until then; `Op.outcome` says
whether it failed.
-/

namespace Ningshi

open Std FiniteMap JsonDoc Transition

inductive Daemon where
  | down (fs : Fs)
  | up (s : Sys)

/-- What can happen to a running daemon. -/
inductive Op where
  | tick (env : Env)
  | reload (env : Env)
  /-- an `apply` request; `candidate` is what reading the file returns -/
  | apply (env : Env) (candidate : Option Text)
  | extension (env : Env) (key : String) (minutes : UInt32)
  /-- `sync_packages` on its own -/
  | sync (env : Env)
  /-- the gate killed a process of this uid -/
  | killed (uid : Uid)

def Op.outcome : Op → Sys → Outcome Sys
  | .tick env, s => Ningshi.tick env s
  | .reload env, s => Ningshi.reload env s
  | .apply env candidate, s => applyRulesFile env candidate s
  | .extension env key minutes, s =>
      match s.eng.addExtension env key minutes with
      | .ok (_, eng) => .ok { s with eng := eng }
      | .error _ => .err s
  | .sync env, s => syncPackages env s
  | .killed uid, s =>
      .ok { s with eng := { s.eng with
        killCount := s.eng.killCount.insert uid (s.eng.killCount[uid]?.getD 0 + 1) } }

def Op.perform (op : Op) (s : Sys) : Sys := (op.outcome s).state

inductive Event where
  | start (env : Env)
  | stop
  | run (op : Op)
  /-- the files are changed from outside -/
  | files (fs : Fs)

/-- What an event makes of a daemon; `none` when it cannot happen. -/
def Daemon.next : Daemon → Event → Option Daemon
  | .down fs, .start env => some (.up (Engine.new env fs))
  | .down _, .files fs => some (.down fs)
  | .up s, .stop => some (.down s.fs)
  | .up s, .run op => some (.up (op.perform s))
  | .up s, .files fs => some (.up { s with fs := fs })
  | _, _ => none

def daemon : System Daemon Event := .ofNext (fun d => ∃ fs, d = .down fs) Daemon.next

/-- A property of running systems. -/
def Daemon.Holds (p : Sys → Prop) : Daemon → Prop
  | .down _ => True
  | .up s => p s

@[simp] theorem Daemon.holds_up (p : Sys → Prop) (s : Sys) : (Daemon.up s).Holds p ↔ p s := .rfl

/-- A daemon that has just been started is reachable. -/
theorem reachable_new {cond : Daemon → Event → Prop} {env : Env} {fs : Fs}
    (hcond : cond (.down fs) (.start env)) :
    daemon.ReachableWhen cond (.up (Engine.new env fs)) :=
  .step (.init ⟨fs, rfl⟩) hcond rfl

theorem reachable_perform {cond : Daemon → Event → Prop} {op : Op} {s : Sys}
    (hs : daemon.ReachableWhen cond (.up s)) (hcond : cond (.up s) (.run op)) :
    daemon.ReachableWhen cond (.up (op.perform s)) :=
  .step hs hcond rfl

/-- **The invariant rule for the daemon**: start-up establishes the property,
and operations and changes of the files keep it, as far as the run meets the
condition. -/
theorem daemon_invariant {cond : Daemon → Event → Prop} {p : Sys → Prop}
    (hstart : ∀ fs env, cond (.down fs) (.start env) → p (Engine.new env fs))
    (hrun : ∀ s op, p s → cond (.up s) (.run op) → p (op.perform s))
    (hfiles : ∀ s fs, p s → p { s with fs := fs })
    {d : Daemon} (hd : daemon.ReachableWhen cond d) : d.Holds p := by
  refine System.ReachableWhen.invariant (?_ : ∀ d, daemon.init d → d.Holds p) ?_ hd
  · rintro d ⟨fs, rfl⟩
    trivial
  · intro d event d' hp hcond hnext
    change d.next event = some d' at hnext
    cases d with
    | down fs =>
        cases event with
        | start env =>
            obtain rfl := Option.some.inj hnext
            exact hstart fs env hcond
        | files fs' =>
            obtain rfl := Option.some.inj hnext
            trivial
        | stop => cases hnext
        | run op => cases hnext
    | up s =>
        cases event with
        | start env => cases hnext
        | stop =>
            obtain rfl := Option.some.inj hnext
            trivial
        | run op =>
            obtain rfl := Option.some.inj hnext
            exact hrun s op hp hcond
        | files fs =>
            obtain rfl := Option.some.inj hnext
            exact hfiles s fs hp

/-! ## What operations leave alone -/

/-- Start-up blocks nothing. -/
theorem new_frame (env : Env) (fs : Fs) :
    (Engine.new env fs).eng.blocked = ∅ ∧ (Engine.new env fs).eng.gate = .start ∧
      (Engine.new env fs).eng.lastMtime = none ∧ (Engine.new env fs).eng.uidOf = ∅ := by
  obtain ⟨rules, source, heng⟩ :=
    loadRules_frame env ⟨{ Engine.blank .start with started := env.epoch }, fs⟩
  simp only [Engine.new, Engine.loadState, heng, Engine.restore]
  split
  next => exact ⟨rfl, rfl, rfl, rfl⟩
  next => split_ifs <;> exact ⟨rfl, rfl, rfl, rfl⟩

/-- Start-up leaves the rules file alone. -/
theorem new_rulesFile (env : Env) (fs : Fs) : (Engine.new env fs).fs.rules = fs.rules := by
  obtain ⟨backup, hfs⟩ :=
    loadRules_fs env ⟨{ Engine.blank .start with started := env.epoch }, fs⟩
  simp only [Engine.new, hfs]

theorem blocksOnly_new {q : Uid → Prop} (env : Env) (fs : Fs) :
    BlocksOnly q (Engine.new env fs).eng := by
  obtain ⟨hblocked, hgate, -⟩ := new_frame env fs
  have hblank : BlocksOnly q (Engine.blank .start) :=
    ⟨fun u hu => by simp [Engine.blank] at hu, fun u => by simp [Engine.blank, Gate.start]⟩
  exact hblank.congr hgate hblocked

/-- The rules and files a daemon starts with are those of its load. -/
theorem new_loaded (env : Env) (fs : Fs) :
    let loaded := loadRules env ⟨{ Engine.blank .start with started := env.epoch }, fs⟩
    (Engine.new env fs).eng.rules = loaded.eng.rules ∧
      (Engine.new env fs).eng.rulesSource = loaded.eng.rulesSource ∧
      (Engine.new env fs).fs = loaded.fs := by
  have hstate (eng : Engine) (fs : Fs) : (eng.loadState env fs).rules = eng.rules ∧
      (eng.loadState env fs).rulesSource = eng.rulesSource := by
    unfold Engine.loadState Engine.restore
    split
    next => exact ⟨rfl, rfl⟩
    next => split_ifs <;> exact ⟨rfl, rfl⟩
  exact ⟨(hstate _ _).1, (hstate _ _).2, rfl⟩

/-- Setup and blocks stay, extensions and counts may change. -/
theorem keepsSetup_addExtension {env : Env} {key : String} {minutes add : UInt32}
    {eng eng' : Engine} (h : eng.addExtension env key minutes = .ok (add, eng')) :
    KeepsSetup eng eng' := by
  unfold Engine.addExtension at h
  simp only [bind, Except.bind, pure, Except.pure] at h
  split at h
  next => cases h
  next =>
    split at h
    next =>
      split at h
      next => cases h
      next =>
        obtain ⟨-, rfl⟩ := Prod.mk.inj (Except.ok.inj h)
        exact ⟨rfl, rfl, rfl, rfl, rfl, rfl, rfl, rfl, rfl⟩
    next =>
      split_ifs at h
      split at h
      next => cases h
      next =>
        obtain ⟨-, rfl⟩ := Prod.mk.inj (Except.ok.inj h)
        exact ⟨rfl, rfl, rfl, rfl, rfl, rfl, rfl, rfl, rfl⟩

/-- What granting an extension writes. -/
theorem addExtension_frame {env : Env} {key : String} {minutes add : UInt32}
    {eng eng' : Engine} (h : eng.addExtension env key minutes = .ok (add, eng')) :
    ∃ granted deadlines groupGranted groupDeadlines, eng' =
      { eng with
        extGrantedToday := granted
        extensionUntil := deadlines
        groupExtGrantedToday := groupGranted
        groupExtensionUntil := groupDeadlines } := by
  unfold Engine.addExtension at h
  simp only [bind, Except.bind, pure, Except.pure] at h
  split at h
  next => cases h
  next =>
    split at h
    next =>
      split at h
      next => cases h
      next =>
        obtain ⟨-, rfl⟩ := Prod.mk.inj (Except.ok.inj h)
        exact ⟨_, _, eng.groupExtGrantedToday, eng.groupExtensionUntil, rfl⟩
    next =>
      split_ifs at h
      split at h
      next => cases h
      next =>
        obtain ⟨-, rfl⟩ := Prod.mk.inj (Except.ok.inj h)
        exact ⟨eng.extGrantedToday, eng.extensionUntil, _, _, rfl⟩

theorem perform_extension (env : Env) (key : String) (minutes : UInt32) (s : Sys) :
    ∃ eng, (Op.extension env key minutes).perform s = { s with eng := eng } ∧
      KeepsSetup s.eng eng := by
  cases hext : s.eng.addExtension env key minutes with
  | ok result =>
      obtain ⟨add, eng⟩ := result
      exact ⟨eng, by simp only [Op.perform, Op.outcome, hext, Outcome.state_ok],
        keepsSetup_addExtension hext⟩
  | error =>
      exact ⟨s.eng, by simp only [Op.perform, Op.outcome, hext, Outcome.state_err],
        .refl s.eng⟩

/-- An operation other than a tick leaves the gate and the blocked uids alone. -/
theorem perform_blocks {op : Op} (s : Sys) (hop : ∀ env, op ≠ .tick env) :
    (op.perform s).eng.gate = s.eng.gate ∧ (op.perform s).eng.blocked = s.eng.blocked := by
  have hreload (env : Env) (s : Sys) : (reload env s).state.eng.gate = s.eng.gate ∧
      (reload env s).state.eng.blocked = s.eng.blocked := by
    obtain ⟨_, _, _, _, _, _, h⟩ := reload_frame env s
    rw [h]
    exact ⟨rfl, rfl⟩
  cases op with
  | tick env => exact absurd rfl (hop env)
  | reload env => exact hreload env s
  | apply env candidate =>
      show (applyRulesFile env candidate s).state.eng.gate = _ ∧
        (applyRulesFile env candidate s).state.eng.blocked = _
      rcases applyRulesFile_cases env candidate s with h | ⟨rules, -, h⟩
      · rw [h]
        exact ⟨rfl, rfl⟩
      · rw [h]
        exact hreload env (s.writeRules env rules)
  | extension env key minutes =>
      obtain ⟨eng, h, hkeeps⟩ := perform_extension env key minutes s
      rw [h]
      exact ⟨hkeeps.gate, hkeeps.blocked⟩
  | sync env =>
      show (syncPackages env s).state.eng.gate = _ ∧ (syncPackages env s).state.eng.blocked = _
      rcases syncPackages_cases env s with h | ⟨mtime, uids, -, h⟩
      · rw [h]
        exact ⟨rfl, rfl⟩
      · rw [h, Engine.resync_eq]
        exact ⟨rfl, rfl⟩
  | killed uid => exact ⟨rfl, rfl⟩

/-- The refresh of a tick leaves them alone as well. -/
theorem refresh_blocks (env : Env) (s : Sys) :
    (refresh env s).state.eng.gate = s.eng.gate ∧
      (refresh env s).state.eng.blocked = s.eng.blocked := by
  have hop (op : Op) (s : Sys) (hne : ∀ env, op ≠ .tick env) := perform_blocks s hne
  refine Outcome.bind_state
    (p := fun s' : Sys => s'.eng.gate = s.eng.gate ∧ s'.eng.blocked = s.eng.blocked)
    ?_ fun s' _ hs' => ?_
  · unfold reloadIfChanged
    split
    next => exact ⟨rfl, rfl⟩
    next =>
      split_ifs
      · exact ⟨rfl, rfl⟩
      · exact hop (.reload env) s (by simp)
  · obtain ⟨hgate, hblocked⟩ := hop (.sync env) s' (by simp)
    exact ⟨hgate.trans hs'.1, hblocked.trans hs'.2⟩

/-! ## What a tick can block -/

/-- The rule entries a tick that starts here evaluates, and what they evaluate to. -/
def Judged (env : Env) (s : Sys) (v : Verdict) : Prop :=
  ∃ mid, refresh env s = .ok mid ∧ v ∈ (mid.eng.prepare env).judge env

/-- A tick that starts here wants this uid blocked. -/
def WantsBlocked (env : Env) (s : Sys) (uid : Uid) : Prop :=
  ∃ mid, refresh env s = .ok mid ∧ (want ((mid.eng.prepare env).judge env))[uid]? = some true

/-- What a tick wants blocked is a uid that some entry evaluates to block. -/
theorem WantsBlocked.exists_judged {env : Env} {s : Sys} {uid : Uid}
    (h : WantsBlocked env s uid) : ∃ v, Judged env s v ∧ v.uid = uid ∧ v.block = true := by
  obtain ⟨mid, hrefresh, hwant⟩ := h
  obtain ⟨v, hv, huid, hblock⟩ := exists_verdict_of_want hwant
  exact ⟨v, ⟨mid, hrefresh, hv⟩, huid, hblock⟩

/-- **A tick blocks nothing but what it wants blocked.** -/
theorem blocksOnly_tick {q : Uid → Prop} {env : Env} {s : Sys} (hs : BlocksOnly q s.eng)
    (hwant : ∀ uid, WantsBlocked env s uid → q uid) : BlocksOnly q (tick env s).state.eng := by
  obtain ⟨hgate, hblocked⟩ := refresh_blocks env s
  have hrefreshed : BlocksOnly q (refresh env s).state.eng := hs.congr hgate hblocked
  rcases tick_cases env s with ⟨mid, hrefresh, htick⟩ | ⟨mid, hrefresh, htick⟩
  · -- The refresh failed, and no verdict was taken.
    rw [hrefresh, Outcome.state_err] at hrefreshed
    rw [htick, Outcome.state_err]
    exact hrefreshed
  · rw [hrefresh, Outcome.state_ok] at hrefreshed
    have hkeeps := keepsSetup_prepare env mid.eng
    have hwanted : ∀ uid, (want ((mid.eng.prepare env).judge env))[uid]? = some true → q uid :=
      fun uid huid => hwant uid ⟨mid, hrefresh, huid⟩
    have henforced : BlocksOnly q ((mid.eng.prepare env).enforce env
        ((mid.eng.prepare env).judge env)).state :=
      blocksOnly_enforce (hrefreshed.congr hkeeps.gate hkeeps.blocked) hwanted
    rcases htick with ⟨eng, henforce, htick⟩ | ⟨eng, henforce, htick⟩
    · rw [henforce, Outcome.state_err] at henforced
      rw [htick]
      exact henforced
    · rw [henforce, Outcome.state_ok] at henforced
      obtain ⟨_, _, _, hfinish⟩ := finishTick_frame env { mid with eng := eng }
      rw [htick, Outcome.state_ok]
      exact henforced.congr (by rw [hfinish]) (by rw [hfinish])

/-- **A tick that goes through** leaves exactly what it wanted blocked. -/
theorem mem_blocked_of_tick {env : Env} {s : Sys} {uid : Uid} (hok : (tick env s).isOk = true) :
    uid ∈ (tick env s).state.eng.blocked ↔ WantsBlocked env s uid := by
  obtain ⟨mid, eng, hrefresh, henforce, htick⟩ := tick_eq_ok_iff.mp (Outcome.eq_ok_of_isOk hok)
  obtain ⟨_, _, _, hfinish⟩ := finishTick_frame env { mid with eng := eng }
  rw [htick, hfinish, mem_blocked_of_enforce henforce]
  constructor
  · exact fun hwant => ⟨mid, hrefresh, hwant⟩
  · rintro ⟨mid', hrefresh', hwant⟩
    obtain rfl := Outcome.ok.inj (hrefresh.symm.trans hrefresh')
    exact hwant

end Ningshi
