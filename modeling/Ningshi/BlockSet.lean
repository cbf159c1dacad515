import Ningshi.Engine.Tick

/-!
# The block set and the identity index

A tick derives both the blocked uids and the index of blocked names from one
list of verdicts, but combines the verdicts for one uid differently: in the
wanted state the last one wins, in the index every blocking one counts.
`tick_agreement_iff` says exactly when the two agree with each other and with
the verdicts.
-/

namespace Ningshi

open Std FiniteMap Transition

/-- A uid is blocked exactly when some entry blocks it, and exactly when the
index has a name for it. -/
structure Agreement (vs : List Verdict) (eng : Engine) : Prop where
  blocked : ∀ uid, uid ∈ eng.blocked ↔ ∃ v ∈ vs, v.uid = uid ∧ v.block = true
  index : ∀ uid, uid ∈ eng.blocked ↔ eng.gate.identity[uid]?.getD [] ≠ []

/-- For every uid that some entry blocks, the entry reached last for that uid
blocks too, and some blocking entry has a key with a package. -/
structure LastBlocks (vs : List Verdict) : Prop where
  last : ∀ v ∈ vs, v.block = true → lastValue (vs.map fun v => (v.uid, v.block)) v.uid = some true
  named : ∀ v ∈ vs, v.block = true →
    ∃ v' ∈ vs, v'.uid = v.uid ∧ v'.block = true ∧ (packageOf v'.key).isSome

/-- What enforcing leaves, in the words of the verdicts. -/
theorem enforce_agreement_iff {env : Env} {vs : List Verdict} {eng eng' : Engine}
    (h : eng.enforce env vs = .ok eng') : Agreement vs eng' ↔ LastBlocks vs := by
  -- The engine has the last verdict for a uid, the index every blocking one.
  have hblocked (uid : Uid) : uid ∈ eng'.blocked ↔
      lastValue (vs.map fun v => (v.uid, v.block)) uid = some true := by
    rw [mem_blocked_of_enforce h, getElem?_want]
  have hindex (uid : Uid) : eng'.gate.identity[uid]?.getD [] ≠ [] ↔
      ∃ v ∈ vs, v.uid = uid ∧ v.block = true ∧ (packageOf v.key).isSome := by
    have hidentity := identity_enforce env vs eng
    rw [h, Outcome.state_ok] at hidentity
    rw [hidentity, blockedNames_ne_nil_iff]
  constructor
  · intro hagree
    refine ⟨fun v hv hblock => ?_, fun v hv hblock => ?_⟩
    · exact (hblocked v.uid).mp ((hagree.blocked v.uid).mpr ⟨v, hv, rfl, hblock⟩)
    · have hmem := (hagree.blocked v.uid).mpr ⟨v, hv, rfl, hblock⟩
      exact (hindex v.uid).mp ((hagree.index v.uid).mp hmem)
  · intro hlast
    have hsome (uid : Uid) : uid ∈ eng'.blocked ↔ ∃ v ∈ vs, v.uid = uid ∧ v.block = true := by
      rw [hblocked]
      constructor
      · intro hvalue
        obtain ⟨v, hv, hpair⟩ := List.mem_map.mp (mem_of_lastValue_eq_some hvalue)
        obtain ⟨huid, hblock⟩ := Prod.mk.inj hpair
        exact ⟨v, hv, huid, hblock⟩
      · rintro ⟨v, hv, rfl, hblock⟩
        exact hlast.last v hv hblock
    refine ⟨hsome, fun uid => ?_⟩
    rw [hsome, hindex]
    constructor
    · rintro ⟨v, hv, rfl, hblock⟩
      exact hlast.named v hv hblock
    · rintro ⟨v, hv, huid, hblock, -⟩
      exact ⟨v, hv, huid, hblock⟩

/-- **Exactly when the block set, the index and the verdicts agree** after a
tick in which every update of the gate went through. -/
theorem tick_agreement_iff {env : Env} {s mid s' : Sys} (hrefresh : refresh env s = .ok mid)
    (htick : tick env s = .ok s') :
    Agreement ((mid.eng.prepare env).judge env) s'.eng ↔
      LastBlocks ((mid.eng.prepare env).judge env) := by
  obtain ⟨mid', eng, hrefresh', henforce, rfl⟩ := tick_eq_ok_iff.mp htick
  obtain rfl := Outcome.ok.inj (hrefresh.symm.trans hrefresh')
  obtain ⟨lastInterval, lastSave, lastSweep, hframe⟩ :=
    finishTick_frame env { mid with eng := eng }
  rw [← enforce_agreement_iff henforce, hframe]
  exact ⟨fun h => ⟨h.blocked, h.index⟩, fun h => ⟨h.blocked, h.index⟩⟩

/-- With keys from a package list, only the first half of the condition is left. -/
theorem lastBlocks_named_of_resolved {env : Env} {eng : Engine} {content : Option String}
    {dirs : List String} (hres : resolveUids content dirs = some eng.uidOf)
    {v : Verdict} (hv : v ∈ eng.judge env) : (packageOf v.key).isSome :=
  packageOf_of_resolveUids hres (target_eq_some_iff.mp (target_of_mem_verdicts hv)).1

def sharedUidApps : KeyMap AppRule :=
  insertAll [("0:com.a", ⟨true, RuleSet.alwaysBlocking⟩),
    ("0:com.b", ⟨false, RuleSet.alwaysBlocking⟩)] ∅

/-- Two packages with one shared uid: the rule of the first blocks, the rule of
the second is switched off. -/
def sharedUid : Sys where
  eng := { Engine.blank .start with
    rules := { Rules.default with apps := sharedUidApps }
    uidOf := insertAll [("0:com.a", 10001), ("0:com.b", 10001)] ∅ }
  fs := ⟨none, none, none, none⟩

theorem sharedUid_tick : (tick (.quiet 100) sharedUid).isOk = true := by decide +kernel

theorem sharedUid_refresh : refresh (.quiet 100) sharedUid = .ok sharedUid := rfl

theorem tick_agreement_iff_sharedUid :
    Agreement ((sharedUid.eng.prepare (.quiet 100)).judge (.quiet 100))
        (tick (.quiet 100) sharedUid).state.eng ↔
      LastBlocks ((sharedUid.eng.prepare (.quiet 100)).judge (.quiet 100)) :=
  tick_agreement_iff sharedUid_refresh (Outcome.eq_ok_of_isOk sharedUid_tick)

/-- The switched-off rule unblocks a uid that another rule blocks. -/
theorem not_tick_agreement :
    ¬ ∀ (env : Env) (s mid s' : Sys), refresh env s = .ok mid → tick env s = .ok s' →
      Agreement ((mid.eng.prepare env).judge env) s'.eng := by
  intro h
  have hagree := h (.quiet 100) sharedUid sharedUid _ sharedUid_refresh
    (Outcome.eq_ok_of_isOk sharedUid_tick)
  have hexists : ∃ v ∈ (sharedUid.eng.prepare (.quiet 100)).judge (.quiet 100),
      v.uid = 10001 ∧ v.block = true := by decide +kernel
  have hmem := (hagree.blocked 10001).mpr hexists
  revert hmem
  decide +kernel

end Ningshi
