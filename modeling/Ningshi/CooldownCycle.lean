import Ningshi.Engine.Cooldowns
import Ningshi.Engine.Refresh
import Ningshi.Lib.Cycle
import Ningshi.StaleCooldown

/-!
# The cooldown cycle of one entry

An entry with a limit and a cooldown period keeps a timer, for the uid or for
its shared pool.  As long as no other such entry is about the same uids, each
tick is a round of the cycle of use and rest for it: the other timers do not
touch its deadline or its counters, and between two ticks the refresh keeps
them.  `cycle_exact` says what this means for any sequence of ticks on one day.
-/

namespace Ningshi

open Std FiniteMap Transition

/-- The timer an entry keeps for a uid. -/
def Entry.timer (uid : Uid) : Entry → Timer
  | app _ rule => .uid uid rule.rules.duration
  | group gid rule =>
      if rule.sharedPool then .pool gid rule else .uid uid rule.rules.duration

/-- The uids whose usage counts together: the uid, or all members of a shared pool. -/
def Entry.pool (uidOf : UidOf) (uid : Uid) : Entry → List Uid
  | app _ _ => [uid]
  | group _ rule =>
      if rule.sharedPool then rule.members.filterMap fun key => uidOf[key]? else [uid]

/-- The entry is about the uid. -/
def Entry.Governs (uidOf : UidOf) (uid : Uid) (entry : Entry) : Prop :=
  ∃ key ∈ entry.keys, uidOf[key]? = some uid

/-- An enabled entry with a limit and a cooldown period, and the only such one
about the uid and all uids that count with it. -/
structure GovernsAlone (rules : Rules) (uidOf : UidOf) (entry : Entry) (uid : Uid) : Prop where
  listed : entry ∈ rules.entries
  enabled : entry.enabled = true
  cools : entry.duration.cools = true
  governs : entry.Governs uidOf uid
  alone : ∀ u ∈ entry.pool uidOf uid, ∀ other ∈ rules.entries, other.enabled = true →
    other.duration.cools = true → other.Governs uidOf u → other = entry

/-! ## Timers that are apart -/

/-- The deadline of a timer and the counters of its uids stay. -/
structure KeepsTimer (timer : Timer) (eng eng' : Engine) : Prop where
  deadline : timer.deadline eng' = timer.deadline eng
  counts : ∀ u ∈ timer.uids eng, eng'.usageOf u = eng.usageOf u ∧ eng'.fgOf u = eng.fgOf u
  uidOf : eng'.uidOf = eng.uidOf

/-- Two timers with different deadlines and no uid in common. -/
structure Apart (eng : Engine) (timer other : Timer) : Prop where
  key : timer.key ≠ other.key
  uids : ∀ u ∈ timer.uids eng, u ∉ other.uids eng

section Apart

variable {now : Nat} {timer other : Timer} {eng eng' eng'' : Engine} {l : List Timer}

theorem KeepsTimer.refl (timer : Timer) (eng : Engine) : KeepsTimer timer eng eng :=
  ⟨rfl, fun _ _ => ⟨rfl, rfl⟩, rfl⟩

theorem KeepsTimer.trans (h : KeepsTimer timer eng eng') (h' : KeepsTimer timer eng' eng'') :
    KeepsTimer timer eng eng'' := by
  refine ⟨h'.deadline.trans h.deadline, fun u hu => ?_, h'.uidOf.trans h.uidOf⟩
  obtain ⟨husage, hfg⟩ := h.counts u hu
  obtain ⟨husage', hfg'⟩ := h'.counts u (uids_congr h.uidOf ▸ hu)
  exact ⟨husage'.trans husage, hfg'.trans hfg⟩

/-- The usage of a timer depends on the counters of its uids. -/
theorem Timer.used_congr
    (hcounts : ∀ u ∈ timer.uids eng, eng'.usageOf u = eng.usageOf u ∧ eng'.fgOf u = eng.fgOf u)
    (huidOf : eng'.uidOf = eng.uidOf) : timer.used eng' = timer.used eng := by
  cases timer with
  | uid u d => exact scopedUsage_congr (hcounts u (List.mem_singleton_self u))
  | pool gid g =>
      show ((eng'.uidsOf g.members).map _).sum = ((eng.uidsOf g.members).map _).sum
      have huids : eng'.uidsOf g.members = eng.uidsOf g.members := by
        simp only [Engine.uidsOf, huidOf]
      rw [huids]
      exact congrArg List.sum (List.map_congr_left fun u hu => scopedUsage_congr (hcounts u hu))

theorem KeepsTimer.used (h : KeepsTimer timer eng eng') : timer.used eng' = timer.used eng :=
  Timer.used_congr h.counts h.uidOf

theorem KeepsTimer.settled (h : KeepsTimer timer eng eng') (hsettled : timer.Settled now eng) :
    timer.Settled now eng' := by
  unfold Timer.Settled at hsettled ⊢
  rw [h.deadline, h.used]
  exact hsettled

theorem Apart.congr (h : Apart eng timer other) (huidOf : eng'.uidOf = eng.uidOf) :
    Apart eng' timer other := by
  refine ⟨h.key, fun u hu => ?_⟩
  rw [uids_congr huidOf] at hu ⊢
  exact h.uids u hu

/-- Maintaining a timer leaves the timers apart from it alone. -/
theorem Apart.keepsTimer (h : Apart eng timer other) (hlimit : 0 < other.limit) :
    KeepsTimer timer eng (other.maintain now eng) := by
  have huidOf := uidOf_maintain now eng other
  cases maintained now eng hlimit with
  | settled _ hsame =>
      rw [hsame]
      exact .refl timer eng
  | started _ _ hdeadline hcounts =>
      exact ⟨(hdeadline timer.key).trans (if_neg h.key),
        fun u _ => hcounts.outside u List.not_mem_nil, huidOf⟩
  | ended _ _ hdeadline hcounts =>
      exact ⟨(hdeadline timer.key).trans (if_neg h.key),
        fun u hu => hcounts.outside u (h.uids u hu), huidOf⟩

/-- Maintaining timers apart from it, or itself once more when it is settled. -/
theorem keepsTimer_foldl (hcools : ∀ t ∈ l, 0 < t.limit)
    (hl : ∀ t ∈ l, t = timer ∧ timer.Settled now eng ∨ Apart eng timer t) :
    KeepsTimer timer eng (l.foldl (Timer.maintain now) eng) := by
  induction l generalizing eng with
  | nil => exact .refl timer eng
  | cons t l ih =>
      obtain ⟨hlimit, hcools⟩ := List.forall_mem_cons.mp hcools
      obtain ⟨hfirst, hrest⟩ := List.forall_mem_cons.mp hl
      have hkeeps : KeepsTimer timer eng (t.maintain now eng) := by
        rcases hfirst with ⟨rfl, hsettled⟩ | hapart
        · rw [maintain_of_settled hlimit hsettled]
          exact .refl t eng
        · exact hapart.keepsTimer hlimit
      refine hkeeps.trans (ih hcools fun t' ht' => ?_)
      exact (hrest t' ht').imp (fun h => ⟨h.1, hkeeps.settled h.2⟩) fun h => h.congr hkeeps.uidOf

/-- **What the cooldown step does to a timer apart from all others**: what
maintaining it once does. -/
theorem maintainCooldowns_timer (now : Nat) (hmem : timer ∈ eng.timers)
    (hapart : ∀ t ∈ eng.timers, t = timer ∨ Apart eng timer t) :
    ∃ mid, KeepsTimer timer eng mid ∧
      KeepsTimer timer (timer.maintain now mid) (eng.maintainCooldowns now) := by
  obtain ⟨before, after, hsplit, hfirst⟩ := List.eq_append_cons_of_mem hmem
  have hcools : ∀ t ∈ eng.timers, 0 < t.limit ∧ 0 < t.period := fun t => cools_of_mem_timers
  obtain ⟨hlimit, hperiod⟩ := hcools timer hmem
  rw [maintainCooldowns_eq, hsplit, List.foldl_append, List.foldl_cons]
  rw [hsplit] at hcools hapart
  have hbefore : KeepsTimer timer eng (before.foldl (Timer.maintain now) eng) := by
    refine keepsTimer_foldl (fun t ht => (hcools t (List.mem_append_left _ ht)).1) fun t ht => ?_
    refine .inr ((hapart t (List.mem_append_left _ ht)).resolve_left ?_)
    rintro rfl
    exact hfirst ht
  have huidOf := uidOf_maintain now (before.foldl (Timer.maintain now) eng) timer
  refine ⟨_, hbefore, keepsTimer_foldl (fun t ht => (hcools t (by simp [ht])).1) fun t ht => ?_⟩
  exact (hapart t (by simp [ht])).imp (fun h => ⟨h, settled_maintain hlimit hperiod⟩)
    fun h => h.congr (huidOf.trans hbefore.uidOf)

end Apart

/-! ## The timers of the entries -/

section Timers

variable {eng : Engine} {entry : Entry} {uid : Uid}

theorem deadline_timer (eng : Engine) (entry : Entry) (uid : Uid) :
    (entry.timer uid).deadline eng = entry.cooldown uid eng := by
  cases entry with
  | app key rule => rfl
  | group gid rule =>
      simp only [Entry.timer, Entry.cooldown]
      split_ifs <;> rfl

theorem used_timer (eng : Engine) (entry : Entry) (uid : Uid) :
    (entry.timer uid).used eng = entry.counted uid eng := by
  cases entry with
  | app key rule => rfl
  | group gid rule =>
      simp only [Entry.timer, Entry.counted]
      split_ifs <;> rfl

theorem duration_timer (entry : Entry) (uid : Uid) :
    (entry.timer uid).duration = entry.duration := by
  cases entry with
  | app key rule => rfl
  | group gid rule =>
      simp only [Entry.timer]
      split_ifs <;> rfl

theorem uids_timer (eng : Engine) (entry : Entry) (uid : Uid) :
    (entry.timer uid).uids eng = entry.pool eng.uidOf uid := by
  cases entry with
  | app key rule => rfl
  | group gid rule =>
      simp only [Entry.timer, Entry.pool]
      split_ifs <;> rfl

/-- An entry is about every uid that counts with one it is about. -/
theorem governs_of_mem_pool (h : entry.Governs eng.uidOf uid) {u : Uid}
    (hu : u ∈ entry.pool eng.uidOf uid) : entry.Governs eng.uidOf u := by
  cases entry with
  | app key rule => exact List.mem_singleton.mp hu ▸ h
  | group gid rule =>
      simp only [Entry.pool] at hu
      split_ifs at hu
      · exact List.mem_filterMap.mp hu
      · exact List.mem_singleton.mp hu ▸ h

/-- **The timers of single uids** are those of the entries about them. -/
theorem entry_of_mem_timers_uid {u : Uid} {d : DurationRule} (h : Timer.uid u d ∈ eng.timers) :
    ∃ other ∈ eng.rules.entries, other.enabled = true ∧ other.duration.cools = true ∧
      other.Governs eng.uidOf u ∧ other.timer u = .uid u d := by
  rcases List.mem_append.mp h with huid | hpool
  · obtain ⟨job, hjob, heq⟩ := List.mem_map.mp huid
    obtain ⟨rfl, rfl⟩ := Timer.uid.inj heq
    rcases List.mem_append.mp hjob with happ | hgroup
    · obtain ⟨p, hp, hjob⟩ := List.mem_flatMap.mp happ
      obtain ⟨hcond, hjob⟩ := List.mem_ite_nil_right.mp hjob
      obtain ⟨henabled, hcools⟩ := Bool.and_eq_true_iff.mp hcond
      obtain ⟨v, hv, rfl⟩ := List.mem_map.mp hjob
      exact ⟨.app p.1 p.2, List.mem_append_left _ (List.mem_map_of_mem hp), henabled, hcools,
        List.mem_filterMap.mp hv, rfl⟩
    · obtain ⟨p, hp, hjob⟩ := List.mem_flatMap.mp hgroup
      obtain ⟨hcond, hjob⟩ := List.mem_ite_nil_right.mp hjob
      obtain ⟨hcond, hsingle⟩ := Bool.and_eq_true_iff.mp hcond
      obtain ⟨henabled, hcools⟩ := Bool.and_eq_true_iff.mp hcond
      obtain ⟨v, hv, rfl⟩ := List.mem_map.mp hjob
      have hshared : p.2.sharedPool = false := by simpa using hsingle
      refine ⟨.group p.1 p.2, List.mem_append_right _ (List.mem_map_of_mem hp), henabled, hcools,
        List.mem_filterMap.mp hv, ?_⟩
      simp only [Entry.timer, hshared, Bool.false_eq_true, if_false]
  · obtain ⟨job, -, heq⟩ := List.mem_map.mp hpool
    cases heq

/-- **The pooled timers** are those of the shared groups. -/
theorem entry_of_mem_timers_pool {gid : String} {g : GroupRule}
    (h : Timer.pool gid g ∈ eng.timers) :
    Entry.group gid g ∈ eng.rules.entries ∧ g.enabled = true ∧
      g.rules.duration.cools = true ∧ g.sharedPool = true := by
  rcases List.mem_append.mp h with huid | hpool
  · obtain ⟨job, -, heq⟩ := List.mem_map.mp huid
    cases heq
  · obtain ⟨job, hjob, heq⟩ := List.mem_map.mp hpool
    obtain ⟨rfl, rfl⟩ := Timer.pool.inj heq
    obtain ⟨hmem, hcond⟩ := List.mem_filter.mp hjob
    obtain ⟨hcond, hshared⟩ := Bool.and_eq_true_iff.mp hcond
    obtain ⟨henabled, hcools⟩ := Bool.and_eq_true_iff.mp hcond
    exact ⟨List.mem_append_right _ (List.mem_map_of_mem hmem), henabled, hcools, hshared⟩

/-- An enabled entry with a cooldown has its timer among those of the engine. -/
theorem timer_mem_timers (hlisted : entry ∈ eng.rules.entries) (henabled : entry.enabled = true)
    (hcools : entry.duration.cools = true) (hgoverns : entry.Governs eng.uidOf uid) :
    entry.timer uid ∈ eng.timers := by
  have hcond : (entry.enabled && entry.duration.cools) = true :=
    Bool.and_eq_true_iff.mpr ⟨henabled, hcools⟩
  have hresolved := List.mem_filterMap.mpr hgoverns
  rcases List.mem_append.mp hlisted with happ | hgroup
  · obtain ⟨p, hp, rfl⟩ := List.mem_map.mp happ
    refine List.mem_append_left _ (List.mem_map.mpr ⟨(uid, p.2.rules.duration), ?_, rfl⟩)
    exact List.mem_append_left _ (List.mem_flatMap.mpr ⟨p, hp,
      List.mem_ite_nil_right.mpr ⟨hcond, List.mem_map_of_mem hresolved⟩⟩)
  · obtain ⟨p, hp, rfl⟩ := List.mem_map.mp hgroup
    cases hshared : p.2.sharedPool with
    | true =>
        simp only [Entry.timer, hshared, if_true]
        refine List.mem_append_right _ (List.mem_map.mpr ⟨p, List.mem_filter.mpr ⟨hp, ?_⟩, rfl⟩)
        exact Bool.and_eq_true_iff.mpr ⟨hcond, hshared⟩
    | false =>
        simp only [Entry.timer, hshared, Bool.false_eq_true, if_false]
        refine List.mem_append_left _ (List.mem_map.mpr ⟨(uid, p.2.rules.duration), ?_, rfl⟩)
        have hcond' : (p.2.enabled && p.2.rules.duration.cools && !p.2.sharedPool) = true :=
          Bool.and_eq_true_iff.mpr ⟨hcond, by rw [hshared]; rfl⟩
        exact List.mem_append_right _ (List.mem_flatMap.mpr ⟨p, hp,
          List.mem_ite_nil_right.mpr ⟨hcond', List.mem_map_of_mem hresolved⟩⟩)

/-- The pooled timer of an entry is that of its own group. -/
theorem timer_eq_pool {gid : String} {g : GroupRule} (h : entry.timer uid = .pool gid g) :
    entry = .group gid g := by
  cases entry with
  | app key rule => cases h
  | group id rule =>
      simp only [Entry.timer] at h
      split_ifs at h
      obtain ⟨rfl, rfl⟩ := Timer.pool.inj h
      rfl

/-- Where the timer of an entry is about one uid, every uid counts alone. -/
theorem pool_of_timer_uid {u v : Uid} {d : DurationRule} (h : entry.timer u = .uid v d) :
    entry.pool eng.uidOf uid = [uid] := by
  cases entry with
  | app key rule => rfl
  | group gid rule =>
      simp only [Entry.timer] at h
      split_ifs at h with hshared
      exact if_neg hshared

/-- A timer about a uid of the pool is the timer of the entry. -/
theorem timer_eq_of_shared (h : GovernsAlone eng.rules eng.uidOf entry uid) {t : Timer}
    (ht : t ∈ eng.timers) {u : Uid} (hu : u ∈ (entry.timer uid).uids eng) (hu' : u ∈ t.uids eng) :
    t = entry.timer uid := by
  -- an entry about one of the uids is the entry itself
  have hsame {other : Entry} (hlisted : other ∈ eng.rules.entries) (henabled : other.enabled = true)
      (hcools : other.duration.cools = true) (hgoverns : other.Governs eng.uidOf u) :
      other = entry :=
    h.alone u (uids_timer eng entry uid ▸ hu) other hlisted henabled hcools hgoverns
  cases t with
  | uid v d =>
      obtain rfl := List.mem_singleton.mp hu'
      obtain ⟨other, hlisted, henabled, hcools, hgoverns, htimer⟩ := entry_of_mem_timers_uid ht
      obtain rfl := hsame hlisted henabled hcools hgoverns
      rw [uids_timer, pool_of_timer_uid htimer] at hu
      rw [← htimer, List.mem_singleton.mp hu]
  | pool gid g =>
      obtain ⟨hlisted, henabled, hcools, hshared⟩ := entry_of_mem_timers_pool ht
      obtain rfl := hsame hlisted henabled hcools (List.mem_filterMap.mp hu')
      simp only [Entry.timer, hshared, if_true]

/-- So is a timer with the same deadline. -/
theorem timer_eq_of_key (h : GovernsAlone eng.rules eng.uidOf entry uid) {t : Timer}
    (ht : t ∈ eng.timers) (hkey : (entry.timer uid).key = t.key) : t = entry.timer uid := by
  cases htimer : entry.timer uid with
  | uid v d =>
      rw [htimer] at hkey
      cases t with
      | uid v' d' =>
          obtain rfl := TimerKey.uid.inj hkey
          have hv : v ∈ (entry.timer uid).uids eng := htimer ▸ List.mem_singleton_self v
          exact (timer_eq_of_shared h ht hv (List.mem_singleton_self v)).trans htimer
      | pool gid g => cases hkey
  | pool gid g =>
      rw [htimer] at hkey
      cases t with
      | uid v d => cases hkey
      | pool gid' g' =>
          obtain rfl := TimerKey.pool.inj hkey
          have hlisted := h.listed
          rw [timer_eq_pool htimer, mem_entries_group] at hlisted
          have hlisted' := mem_entries_group.mp (entry_of_mem_timers_pool ht).1
          rw [Option.some.inj (hlisted'.symm.trans hlisted)]

/-- **The timer of an entry that governs alone is apart from all others.** -/
theorem apart_of_governsAlone (h : GovernsAlone eng.rules eng.uidOf entry uid) :
    ∀ t ∈ eng.timers, t = entry.timer uid ∨ Apart eng (entry.timer uid) t := by
  intro t ht
  by_cases hsame : t = entry.timer uid
  · exact .inl hsame
  · exact .inr ⟨fun hkey => hsame (timer_eq_of_key h ht hkey),
      fun u hu hu' => hsame (timer_eq_of_shared h ht hu hu')⟩

end Timers

/-! ## Ticks as rounds of the cycle -/

/-- A tick that succeeds, with the state after its refresh. -/
structure TickStep where
  env : Env
  before : Sys
  mid : Sys
  after : Sys
  refreshed : refresh env before = .ok mid
  ticked : tick env before = .ok after

namespace TickStep

variable (step : TickStep)

def now : Nat := step.env.epoch

/-- The engine as it enters the cooldown step, with the usage counted. -/
def counted : Engine := step.mid.eng.count step.env

/-- The engine as it enters the verdict step. -/
def prepared : Engine := step.mid.eng.prepare step.env

/-- The tick as a round of the cycle of an entry. -/
def round (entry : Entry) (uid : Uid) : Cycle.Round where
  now := step.now
  stored := entry.cooldown uid step.counted
  used := entry.counted uid step.counted
  deadline := entry.cooldown uid step.prepared
  left := entry.counted uid step.prepared

end TickStep

/-- Successful ticks one after the other, on one local day, with rules and
packages unchanged. -/
structure SteadyRun (rules : Rules) (uidOf : UidOf) (date : Int) (run : List TickStep) : Prop where
  rules : ∀ step ∈ run, step.mid.eng.rules = rules
  uidOf : ∀ step ∈ run, step.mid.eng.uidOf = uidOf
  date : ∀ step ∈ run, (step.mid.eng.nowParts step.now).date = date
  consecutive : run.IsChain fun a b => b.before.eng = a.after.eng

/-- The usage has started again, and neither limit nor cooldown blocks. -/
structure Restarted (uidOf : UidOf) (entry : Entry) (uid : Uid) (now : Nat) (eng : Engine) :
    Prop where
  usage : ∀ u ∈ entry.pool uidOf uid, eng.usageOf u = 0 ∧ eng.fgOf u = 0
  overLimit : entry.overLimit uid eng = false
  cooling : entry.cooling now uid eng = false

/-- The cooldown cycle of an entry is exact over a run. -/
structure ExactCycle (uidOf : UidOf) (entry : Entry) (uid : Uid) (run : List TickStep) :
    Prop where
  /-- Limit and deadline follow the cycle of use and rest. -/
  cycle : Cycle.Exact (entry.duration.limitMinutes.toNat * 60)
    (entry.duration.freezeMinutes.toNat * 60) (run.map fun step => step.round entry uid)
  /-- A used-up limit never blocks on its own. -/
  over_cools : ∀ step ∈ run, entry.overLimit uid step.prepared = true →
    entry.cooling step.now uid step.prepared = true
  /-- A tick that finds the deadline passed starts all counters again. -/
  restarts : ∀ step ∈ run, ∀ t, entry.cooldown uid step.counted = some t → t ≤ step.now →
    Restarted uidOf entry uid step.now step.prepared
  /-- The next tick goes on from these counters. -/
  carries : run.IsChain fun a b => ∀ u ∈ entry.pool uidOf uid,
    b.mid.eng.usageOf u = a.prepared.usageOf u ∧ b.mid.eng.fgOf u = a.prepared.fgOf u

section Steps

variable {step : TickStep} {entry : Entry} {uid : Uid}

/-- What the cooldown step does to the timer of an entry that governs alone. -/
theorem TickStep.maintained (h : GovernsAlone step.mid.eng.rules step.mid.eng.uidOf entry uid) :
    ∃ mid, KeepsTimer (entry.timer uid) step.counted mid ∧
      Maintained step.now (entry.timer uid) mid ((entry.timer uid).maintain step.now mid) ∧
      KeepsTimer (entry.timer uid) ((entry.timer uid).maintain step.now mid) step.prepared := by
  obtain ⟨screenOff, hprepare⟩ := prepare_eq step.env step.mid.eng
  have hsetup : KeepsSetup step.mid.eng step.counted :=
    (keepsSetup_dailyReset _ _).trans (keepsSetup_accrue step.env _)
  rw [← hsetup.rules, ← hsetup.uidOf] at h
  have hmem := timer_mem_timers h.listed h.enabled h.cools h.governs
  obtain ⟨mid, hbefore, hafter⟩ :=
    maintainCooldowns_timer step.now hmem (apart_of_governsAlone h)
  refine ⟨mid, hbefore, Ningshi.maintained _ mid (cools_of_mem_timers hmem).1, hafter.trans ?_⟩
  rw [TickStep.prepared, hprepare]
  cases entry.timer uid with
  | uid u d => exact ⟨rfl, fun _ _ => ⟨rfl, rfl⟩, rfl⟩
  | pool gid g => exact ⟨rfl, fun _ _ => ⟨rfl, rfl⟩, rfl⟩

/-- **Every tick is a round of the cycle.** -/
theorem TickStep.follows (h : GovernsAlone step.mid.eng.rules step.mid.eng.uidOf entry uid) :
    (step.round entry uid).Follows (entry.duration.limitMinutes.toNat * 60)
      (entry.duration.freezeMinutes.toNat * 60) := by
  obtain ⟨mid, hbefore, hmaintained, hafter⟩ := step.maintained h
  have huidOf := uidOf_maintain step.now mid (entry.timer uid)
  generalize (entry.timer uid).maintain step.now mid = mid' at hmaintained hafter huidOf
  have hlimit : (entry.timer uid).limit = entry.duration.limitMinutes.toNat * 60 := by
    rw [Timer.limit, duration_timer]
  have hperiod : (entry.timer uid).period = entry.duration.freezeMinutes.toNat * 60 := by
    rw [Timer.period, duration_timer]
  have hstored : (step.round entry uid).stored = (entry.timer uid).deadline mid := by
    rw [hbefore.deadline, deadline_timer]
    rfl
  have hused : (step.round entry uid).used = (entry.timer uid).used mid := by
    rw [hbefore.used, used_timer]
    rfl
  have hdeadline : (step.round entry uid).deadline = (entry.timer uid).deadline mid' := by
    rw [← hafter.deadline, deadline_timer]
    rfl
  have hleft : (step.round entry uid).left = (entry.timer uid).used mid' := by
    rw [← hafter.used, used_timer]
    rfl
  rw [← hlimit, ← hperiod]
  cases hmaintained with
  | settled hsettled hsame =>
      rw [hsame] at hdeadline hleft
      rcases hsettled with ⟨t, hsome, hahead⟩ | ⟨hnone, hbelow⟩
      · exact .rests (hstored.trans hsome) hahead (hdeadline.trans hsome) (hleft.trans hused.symm)
      · exact .counts (hstored.trans hnone) (hused ▸ hbelow) (hdeadline.trans hnone)
          (hleft.trans hused.symm)
  | started hnone hover hset hcounts =>
      have hsame : (entry.timer uid).used mid' = (entry.timer uid).used mid :=
        Timer.used_congr (fun u _ => hcounts.outside u List.not_mem_nil) huidOf
      exact .starts (hstored.trans hnone) (hused ▸ hover)
        (hdeadline.trans ((hset _).trans (if_pos rfl))) (hleft.trans (hsame.trans hused.symm))
  | ended hsome hpassed hset hcounts =>
      have hzero : (entry.timer uid).used mid' = 0 :=
        used_eq_zero fun u hu => hcounts.inside u (uids_congr huidOf ▸ hu)
      exact .ends (hstored.trans hsome) hpassed (hdeadline.trans ((hset _).trans (if_pos rfl)))
        (hleft.trans hzero)

/-- **A tick that finds the deadline passed resets the counters** of the pool. -/
theorem TickStep.resets (h : GovernsAlone step.mid.eng.rules step.mid.eng.uidOf entry uid)
    {t : Nat} (hstored : entry.cooldown uid step.counted = some t) (hpassed : t ≤ step.now) :
    ∀ u ∈ entry.pool step.mid.eng.uidOf uid,
      step.prepared.usageOf u = 0 ∧ step.prepared.fgOf u = 0 := by
  obtain ⟨mid, hbefore, hmaintained, hafter⟩ := step.maintained h
  have huidOf := uidOf_maintain step.now mid (entry.timer uid)
  generalize (entry.timer uid).maintain step.now mid = mid' at hmaintained hafter huidOf
  have hdeadline : (entry.timer uid).deadline mid = some t := by
    rw [hbefore.deadline, deadline_timer, hstored]
  have hprepared : mid'.uidOf = step.mid.eng.uidOf :=
    hafter.uidOf.symm.trans (keepsSetup_prepare step.env step.mid.eng).uidOf
  intro u hu
  rw [← hprepared, ← uids_timer] at hu
  obtain ⟨husage, hfg⟩ := hafter.counts u hu
  rw [husage, hfg]
  cases hmaintained with
  | settled hsettled _ =>
      rcases hsettled with ⟨t', hsome, hahead⟩ | ⟨hnone, -⟩
      · obtain rfl := Option.some.inj (hdeadline.symm.trans hsome)
        omega
      · exact absurd (hdeadline.symm.trans hnone) (by simp)
  | started hnone => exact absurd (hdeadline.symm.trans hnone) (by simp)
  | ended _ _ _ hcounts => exact hcounts.inside u (uids_congr huidOf ▸ hu)

/-- What a tick hands on to the next one. -/
theorem TickStep.handsOn {a b : TickStep} (hnext : b.before.eng = a.after.eng)
    (hrules : b.mid.eng.rules = a.mid.eng.rules) (huidOf : b.mid.eng.uidOf = a.mid.eng.uidOf) :
    KeepsCounters a.prepared b.mid.eng ∧ KeepsCooldowns a.prepared b.mid.eng := by
  obtain ⟨mid, hrefresh, hleft⟩ := tick_enforced a.ticked
  obtain rfl := Outcome.ok.inj (a.refreshed.symm.trans hrefresh)
  have hconfig := (keepsSetup_prepare a.env a.mid.eng).keepsConfig.trans hleft.keepsConfig
  have hrules' : b.mid.eng.rules = b.before.eng.rules := by rw [hrules, hnext, hconfig.rules]
  have huidOf' : b.mid.eng.uidOf = b.before.eng.uidOf := by rw [huidOf, hnext, hconfig.uidOf]
  have hcounters := @keepsCounters_refresh b.env b.before
  rw [b.refreshed, Outcome.state_ok] at hcounters
  obtain ⟨hcooldown, hgroup⟩ := keepsCooldowns_refresh b.refreshed hrules'
  have hcounters := hcounters huidOf'
  rw [hnext] at hcounters hcooldown hgroup huidOf'
  have hkept := hleft.keepsCooldowns.cooldownUntil
  rw [← huidOf'] at hkept
  exact ⟨hleft.keepsCounters.trans hcounters huidOf', hkept.trans hcooldown,
    hgroup.trans hleft.keepsCooldowns.groupCooldownUntil⟩

/-- The next tick of the day finds the deadline this one has left. -/
theorem TickStep.finds_deadline {a b : TickStep} (hcounters : KeepsCounters a.prepared b.mid.eng)
    (hcooldowns : KeepsCooldowns a.prepared b.mid.eng) (hlive : Live b.mid.eng.uidOf uid)
    (hdate : (b.mid.eng.nowParts b.now).date = (a.mid.eng.nowParts a.now).date) :
    entry.cooldown uid b.counted = entry.cooldown uid a.prepared := by
  have hday : b.mid.eng.lastDay = some (b.mid.eng.nowParts b.now).date := by
    obtain ⟨screenOff, hprepare⟩ := prepare_eq a.env a.mid.eng
    obtain ⟨_, _, _, _, hmaintained⟩ :=
      sameButUsage_maintainCooldowns a.env.epoch (a.mid.eng.count a.env)
    rw [hcounters.lastDay, hdate, TickStep.prepared, hprepare, hmaintained]
    exact (seen_count a.env a.mid.eng).1
  have hreset : b.mid.eng.dailyReset (b.mid.eng.nowParts b.env.epoch).date = b.mid.eng :=
    if_pos hday
  obtain ⟨_, _, haccrue⟩ := accrue_eq b.env b.mid.eng
  rw [TickStep.counted, Engine.count, hreset, haccrue]
  cases entry with
  | app key rule => exact hcooldowns.cooldownUntil.getElem? hlive
  | group gid rule =>
      simp only [Entry.cooldown]
      split_ifs
      · rw [hcooldowns.groupCooldownUntil]
      · exact hcooldowns.cooldownUntil.getElem? hlive

end Steps

section Flags

variable {step : TickStep} {entry : Entry} {uid : Uid}

/-- A used-up limit comes with a cooldown that is running. -/
theorem TickStep.cooling_of_overLimit
    (h : GovernsAlone step.mid.eng.rules step.mid.eng.uidOf entry uid)
    (hover : entry.overLimit uid step.prepared = true) :
    entry.cooling step.now uid step.prepared = true := by
  obtain ⟨hlimit, hperiod⟩ := DurationRule.cools_pos h.cools
  have hreached := of_decide_eq_true (Bool.and_eq_true_iff.mp hover).2
  rcases (step.follows h).rests_or_below hlimit hperiod with ⟨t, hdeadline, hahead⟩ | ⟨-, hbelow⟩
  · have hstored : entry.cooldown uid step.prepared = some t := hdeadline
    rw [Entry.cooling, hstored]
    exact decide_eq_true hahead
  · have hbelow' : entry.counted uid step.prepared < entry.duration.limitMinutes.toNat * 60 :=
      hbelow
    omega

/-- A tick that finds the deadline passed starts again. -/
theorem TickStep.restarted (h : GovernsAlone step.mid.eng.rules step.mid.eng.uidOf entry uid)
    {t : Nat} (hstored : entry.cooldown uid step.counted = some t) (hpassed : t ≤ step.now) :
    Restarted step.mid.eng.uidOf entry uid step.now step.prepared := by
  obtain ⟨hlimit, -⟩ := DurationRule.cools_pos h.cools
  obtain ⟨hnone, hzero⟩ := (step.follows h).restarts hstored hpassed
  have hdeadline : entry.cooldown uid step.prepared = none := hnone
  have hcounted : entry.counted uid step.prepared = 0 := hzero
  refine ⟨step.resets h hstored hpassed, ?_, ?_⟩
  · rw [Entry.overLimit, DurationRule.usedUp, hcounted, decide_eq_false (Nat.not_le.mpr hlimit),
      Bool.and_false]
  · rw [Entry.cooling, hdeadline]
    rfl

end Flags

/-- **The cooldown cycle is exact.** -/
theorem cycle_exact {rules : Rules} {uidOf : UidOf} {date : Int} {run : List TickStep}
    (hrun : SteadyRun rules uidOf date run) {entry : Entry} {uid : Uid}
    (h : GovernsAlone rules uidOf entry uid) : ExactCycle uidOf entry uid run := by
  have hgoverns : ∀ step ∈ run, GovernsAlone step.mid.eng.rules step.mid.eng.uidOf entry uid := by
    intro step hstep
    rw [hrun.rules step hstep, hrun.uidOf step hstep]
    exact h
  have hhands : ∀ a b, a ∈ run → b ∈ run → b.before.eng = a.after.eng →
      KeepsCounters a.prepared b.mid.eng ∧ KeepsCooldowns a.prepared b.mid.eng := by
    intro a b ha hb hnext
    exact TickStep.handsOn hnext ((hrun.rules b hb).trans (hrun.rules a ha).symm)
      ((hrun.uidOf b hb).trans (hrun.uidOf a ha).symm)
  have hlive : ∀ step ∈ run, ∀ u ∈ entry.pool uidOf uid, Live step.mid.eng.uidOf u := by
    intro step hstep u hu
    rw [← hrun.uidOf step hstep] at hu
    obtain ⟨key, -, hkey⟩ := governs_of_mem_pool (hgoverns step hstep).governs hu
    exact ⟨key, hkey⟩
  obtain ⟨hlimit, hperiod⟩ := DurationRule.cools_pos h.cools
  refine ⟨Cycle.exact_of_follows hlimit hperiod ?_ ?_,
    fun step hstep => TickStep.cooling_of_overLimit (hgoverns step hstep), ?_, ?_⟩
  · intro r hr
    obtain ⟨step, hstep, rfl⟩ := List.mem_map.mp hr
    exact step.follows (hgoverns step hstep)
  · refine (List.isChain_map _).mpr (List.IsChain.imp_of_mem_imp ?_ hrun.consecutive)
    intro a b ha hb hnext
    obtain ⟨hcounters, hcooldowns⟩ := hhands a b ha hb hnext
    obtain ⟨key, -, hkey⟩ := (hgoverns b hb).governs
    exact TickStep.finds_deadline hcounters hcooldowns ⟨key, hkey⟩
      ((hrun.date b hb).trans (hrun.date a ha).symm)
  · intro step hstep t hstored hpassed
    rw [← hrun.uidOf step hstep]
    exact step.restarted (hgoverns step hstep) hstored hpassed
  · refine List.IsChain.imp_of_mem_imp ?_ hrun.consecutive
    intro a b ha hb hnext u hu
    obtain ⟨hcounters, -⟩ := hhands a b ha hb hnext
    have hu' := hlive b hb u hu
    exact ⟨congrArg (fun n => n.getD 0) (hcounters.usageSeconds.getElem? hu'),
      congrArg (fun n => n.getD 0) (hcounters.usageFg.getElem? hu')⟩

/-! ## One app with a limit of a minute -/

/-- A tick that is known to succeed. -/
def TickStep.of (env : Env) (s : Sys) (hrefresh : (refresh env s).isOk = true)
    (htick : (tick env s).isOk = true) : TickStep where
  env := env
  before := s
  mid := (refresh env s).state
  after := (tick env s).state
  refreshed := Outcome.eq_ok_of_isOk hrefresh
  ticked := Outcome.eq_ok_of_isOk htick

def cooledRule : DurationRule := ⟨1, 10, "foreground"⟩

/-- The daemon after its start. -/
def cooledStart : Sys := Engine.new (.quiet 100) (timedFiles cooledRule 1)

/-- A first tick counts no time, a minute later the limit is used up, and the
third tick finds the deadline passed. -/
def cooledRun : List TickStep :=
  let first := TickStep.of (foregroundEnv 100) cooledStart (by decide +kernel) (by decide +kernel)
  let second := TickStep.of (foregroundEnv 160) first.after (by decide +kernel) (by decide +kernel)
  let third := TickStep.of (foregroundEnv 800) second.after (by decide +kernel) (by decide +kernel)
  [first, second, third]

def cooledUids : UidOf := insertAll [("0:com.game", 10001)] ∅

def cooledEntry : Entry :=
  .app "0:com.game" ⟨true, { RuleSet.default with duration := cooledRule }⟩

theorem steady_cooledRun : SteadyRun (timedRules cooledRule) cooledUids 0 cooledRun where
  rules := by decide +kernel
  uidOf := by decide +kernel
  date := by decide +kernel
  consecutive := .cons_cons rfl (.cons_cons rfl (.singleton _))

theorem governsAlone_cooledEntry :
    GovernsAlone (timedRules cooledRule) cooledUids cooledEntry 10001 where
  listed := mem_entries_app.mpr (by decide +kernel)
  enabled := rfl
  cools := rfl
  governs := ⟨"0:com.game", List.mem_singleton_self _, by decide +kernel⟩
  alone := by
    intro u _ other hother _ _ _
    have hentries : (timedRules cooledRule).entries = [cooledEntry] := rfl
    rw [hentries] at hother
    exact List.mem_singleton.mp hother

theorem cycle_exact_cooledRun : ExactCycle cooledUids cooledEntry 10001 cooledRun :=
  cycle_exact steady_cooledRun governsAlone_cooledEntry

end Ningshi
