import Ningshi.Daemon

/-!
# System uids and secondary users

The uid of an app is `user * 100000 + appId`, and the appIds below 10000 belong
to the system.  The guard of the tick compares the whole uid with 10000, which
protects the system uids of user 0 only.  `blocked_appUids` says what has to be
true of the ticks of a run so that no system uid of any user is ever blocked.
-/

namespace Ningshi

open Std FiniteMap JsonDoc Transition

/-- The appId of this uid is not one of the system's. -/
def AppUid (uid : Uid) : Prop := 10000 ≤ uid.toNat % 100000

instance (uid : Uid) : Decidable (AppUid uid) := inferInstanceAs (Decidable (_ ≤ _))

/-- No rule entry that evaluates to block in a tick is for a system uid of a
secondary user. -/
def SparesSecondarySystemUids : Daemon → Event → Prop
  | .up s, .run (.tick env) =>
      ∀ v, Judged env s v → v.block = true → 100000 ≤ v.uid → AppUid v.uid
  | _, _ => True

/-- The guard of a tick. -/
theorem Judged.le_uid {env : Env} {s : Sys} {v : Verdict} (h : Judged env s v) :
    10000 ≤ v.uid := by
  obtain ⟨mid, -, hv⟩ := h
  exact (target_eq_some_iff.mp (target_of_mem_verdicts hv)).2.1

/-- The guard is right for user 0. -/
theorem appUid_of_lt {uid : Uid} (hle : 10000 ≤ uid) (hlt : uid < 100000) : AppUid uid := by
  have hle' : 10000 ≤ uid.toNat := UInt32.le_iff_toNat_le.mp hle
  have hlt' : uid.toNat < 100000 := UInt32.lt_iff_toNat_lt.mp hlt
  rw [AppUid, Nat.mod_eq_of_lt hlt']
  exact hle'

/-- **No system uid is blocked**, in the engine or in the kernel, in any state
of a run whose ticks spare the system uids of secondary users. -/
theorem blocked_appUids {d : Daemon} (hd : daemon.ReachableWhen SparesSecondarySystemUids d) :
    d.Holds fun s => BlocksOnly AppUid s.eng := by
  refine daemon_invariant (fun fs env _ => blocksOnly_new env fs) (fun s op hs hcond => ?_)
    (fun s fs hs => ⟨hs.engine, hs.kernel⟩) hd
  by_cases hop : ∃ env, op = .tick env
  · obtain ⟨env, rfl⟩ := hop
    refine blocksOnly_tick hs fun uid hwant => ?_
    obtain ⟨v, hv, rfl, hblock⟩ := hwant.exists_judged
    by_cases hlt : v.uid < 100000
    · exact appUid_of_lt hv.le_uid hlt
    · exact hcond v hv hblock (UInt32.not_lt.mp hlt)
  · obtain ⟨hgate, hblocked⟩ := perform_blocks s fun env heq => hop ⟨env, heq⟩
    exact hs.congr hgate hblocked

/-- So the kernel refuses nothing to a system uid. -/
theorem appUid_of_bpfBlocked {s : Sys} (hs : BlocksOnly AppUid s.eng) {uid : Uid}
    (h : bpfBlocked s.eng.gate.kernel uid = true) : AppUid uid :=
  hs.engine uid ((hs.kernel uid).mp (mem_of_bpfBlocked h))

/-- The files of a device with one package. -/
def filesWith (rules : Rules) (packages : String) : Fs :=
  ⟨some ⟨.json rules.toJson, 1⟩, none, none, some ⟨packages, 1⟩⟩

/-- A device whose telephony package, appId 1001, is blocked for user 10. -/
def phoneFiles : Fs := filesWith (.blocking "10:com.android.phone") "com.android.phone 1001"

def secondUserEnv : Env := { Env.quiet 100 with userDirs := ["10"] }

/-- An ordinary app of user 0 that is blocked. -/
def gameFiles : Fs := filesWith (.blocking "0:com.game") "com.game 10001"

theorem gameFiles_spares :
    SparesSecondarySystemUids (.up (Engine.new (.quiet 100) gameFiles))
      (.run (.tick (.quiet 100))) := by
  rintro v ⟨mid, hmid, hv⟩ - hle
  have hstate : (refresh (.quiet 100) (Engine.new (.quiet 100) gameFiles)).state = mid := by
    rw [hmid, Outcome.state_ok]
  subst hstate
  have hall : ∀ v ∈ ((refresh (.quiet 100)
      (Engine.new (.quiet 100) gameFiles)).state.eng.prepare (.quiet 100)).judge (.quiet 100),
      v.uid < 100000 := by decide +kernel
  exact absurd hle (UInt32.not_le.mpr (hall v hv))

theorem blocked_appUids_gameFiles :
    (Daemon.up ((Op.tick (.quiet 100)).perform (Engine.new (.quiet 100) gameFiles))).Holds
      fun s => BlocksOnly AppUid s.eng :=
  blocked_appUids (reachable_perform (reachable_new trivial) gameFiles_spares)

/-- The telephony uid of user 10 is blocked. -/
theorem not_blocked_appUids :
    ¬ ∀ d, daemon.Reachable d → d.Holds fun s => BlocksOnly AppUid s.eng := by
  intro h
  have hstarted : daemon.Reachable (.up (Engine.new secondUserEnv phoneFiles)) :=
    reachable_new trivial
  have hticked : daemon.Reachable
      (.up ((Op.tick secondUserEnv).perform (Engine.new secondUserEnv phoneFiles))) :=
    reachable_perform hstarted trivial
  have huid := (h _ hticked).engine 1001001 (by decide +kernel)
  revert huid
  decide

end Ningshi
