import Ningshi.Engine.Usage

/-!
# The cooldown step, timer by timer

A cooldown job is about a uid or about a shared pool.  `Timer` is either, with
the deadline it keeps, the usage it counts and the uids whose counters it
resets; the cooldown step of a tick maintains one timer after the other.

A timer can do three things (`maintain_cases`): it is left alone, it starts a
cooldown, or it ends one and resets usage.  Afterwards it is `Settled`, and
whatever the other timers do to shared uids it stays so; `settled_maintainCooldowns`
is the result for the whole step.
-/

namespace Ningshi

open Std FiniteMap

/-- What a cooldown is kept for. -/
inductive Timer where
  | uid (uid : Uid) (d : DurationRule)
  | pool (gid : String) (g : GroupRule)

/-- Under what a deadline is stored. -/
inductive TimerKey where
  | uid (uid : Uid)
  | pool (gid : String)
  deriving DecidableEq

def Engine.deadlineAt (eng : Engine) : TimerKey → Option Nat
  | .uid uid => eng.cooldownUntil[uid]?
  | .pool gid => eng.groupCooldownUntil[gid]?

namespace Timer

def key : Timer → TimerKey
  | uid u _ => .uid u
  | pool gid _ => .pool gid

def duration : Timer → DurationRule
  | uid _ d => d
  | pool _ g => g.rules.duration

/-- The limit in seconds. -/
def limit (timer : Timer) : Nat := timer.duration.limitMinutes.toNat * 60

/-- The cooldown period in seconds. -/
def period (timer : Timer) : Nat := timer.duration.freezeMinutes.toNat * 60

/-- The uids whose counters the timer resets. -/
def uids (eng : Engine) : Timer → List Uid
  | uid u _ => [u]
  | pool _ g => eng.uidsOf g.members

/-- The usage that is compared with the limit. -/
def used (eng : Engine) : Timer → Nat
  | uid u d => eng.scopedUsage u d.scope
  | pool _ g => eng.pooledUsage g g.rules.duration.scope

def deadline (eng : Engine) (timer : Timer) : Option Nat := eng.deadlineAt timer.key

/-- The job of the timer in a tick. -/
def maintain (now : Nat) (eng : Engine) : Timer → Engine
  | uid u d => eng.maintainUidCooldown now (u, d)
  | pool gid g => eng.maintainGroupCooldown now (gid, g)

/-- A cooldown is running, or the limit is not used up. -/
def Settled (now : Nat) (timer : Timer) (eng : Engine) : Prop :=
  (∃ t, timer.deadline eng = some t ∧ now < t) ∨
    timer.deadline eng = none ∧ timer.used eng < timer.limit

end Timer

/-- The timers of an engine, those of single uids first. -/
def Engine.timers (eng : Engine) : List Timer :=
  (eng.cooldownJobs.map fun job => Timer.uid job.1 job.2) ++
    eng.groupJobs.map fun job => Timer.pool job.1 job.2

/-- **The cooldown step maintains one timer after the other.** -/
theorem maintainCooldowns_eq (now : Nat) (eng : Engine) :
    eng.maintainCooldowns now = eng.timers.foldl (Timer.maintain now) eng := by
  rw [Engine.maintainCooldowns, Engine.timers, List.foldl_append, List.foldl_map, List.foldl_map]
  rfl

/-- A rule that cools has a limit and a cooldown period. -/
theorem DurationRule.cools_pos {d : DurationRule} (h : d.cools = true) :
    0 < d.limitMinutes.toNat * 60 ∧ 0 < d.freezeMinutes.toNat * 60 := by
  obtain ⟨hlimit, hperiod⟩ := Bool.and_eq_true_iff.mp h
  have hlimit' := UInt32.lt_iff_toNat_lt.mp (of_decide_eq_true hlimit)
  have hperiod' := UInt32.lt_iff_toNat_lt.mp (of_decide_eq_true hperiod)
  exact ⟨Nat.mul_pos hlimit' (by decide), Nat.mul_pos hperiod' (by decide)⟩

/-- Every timer has both. -/
theorem cools_of_mem_timers {eng : Engine} {timer : Timer} (h : timer ∈ eng.timers) :
    0 < timer.limit ∧ 0 < timer.period := by
  have hcools : timer.duration.cools = true := by
    rcases List.mem_append.mp h with huid | hpool
    · obtain ⟨job, hjob, rfl⟩ := List.mem_map.mp huid
      rcases List.mem_append.mp hjob with happ | hgroup
      · obtain ⟨p, -, hp⟩ := List.mem_flatMap.mp happ
        split_ifs at hp with hcond
        · obtain ⟨uid, -, rfl⟩ := List.mem_map.mp hp
          exact (Bool.and_eq_true_iff.mp hcond).2
        · cases hp
      · obtain ⟨p, -, hp⟩ := List.mem_flatMap.mp hgroup
        split_ifs at hp with hcond
        · obtain ⟨uid, -, rfl⟩ := List.mem_map.mp hp
          exact (Bool.and_eq_true_iff.mp (Bool.and_eq_true_iff.mp hcond).1).2
        · cases hp
    · obtain ⟨job, hjob, rfl⟩ := List.mem_map.mp hpool
      have hcond := (List.mem_filter.mp hjob).2
      exact (Bool.and_eq_true_iff.mp (Bool.and_eq_true_iff.mp hcond).1).2
  exact DurationRule.cools_pos hcools

theorem timers_congr {eng eng' : Engine} (hrules : eng'.rules = eng.rules)
    (huidOf : eng'.uidOf = eng.uidOf) : eng'.timers = eng.timers := by
  simp only [Engine.timers, Engine.cooldownJobs, Engine.groupJobs, Engine.uidsOf, hrules, huidOf]

/-! ## Three things a timer can do -/

/-- The counters of these uids are reset, everything else of the usage stays. -/
structure Resets (uids : List Uid) (eng eng' : Engine) : Prop where
  inside : ∀ u ∈ uids, eng'.usageOf u = 0 ∧ eng'.fgOf u = 0
  outside : ∀ u, u ∉ uids → eng'.usageOf u = eng.usageOf u ∧ eng'.fgOf u = eng.fgOf u

/-- One deadline is set or removed, every other one stays. -/
def DeadlineBecomes (key : TimerKey) (deadline : Option Nat) (eng eng' : Engine) : Prop :=
  ∀ key', eng'.deadlineAt key' = if key' = key then deadline else eng.deadlineAt key'

/-- What maintaining a timer does. -/
inductive Maintained (now : Nat) (timer : Timer) (eng eng' : Engine) : Prop
  | settled (hsettled : timer.Settled now eng) (hsame : eng' = eng)
  | started (hnone : timer.deadline eng = none) (hover : timer.limit ≤ timer.used eng)
      (hdeadline : DeadlineBecomes timer.key (some (now + timer.period)) eng eng')
      (hcounts : Resets [] eng eng')
  | ended {t : Nat} (hsome : timer.deadline eng = some t) (hpassed : t ≤ now)
      (hdeadline : DeadlineBecomes timer.key none eng eng')
      (hcounts : Resets (timer.uids eng) eng eng')

section Counters

variable {uid : Uid} {scope : String} {eng eng' : Engine}

/-- A reset uid has no usage under any scope. -/
theorem scopedUsage_of_reset (h : eng.usageOf uid = 0 ∧ eng.fgOf uid = 0) :
    eng.scopedUsage uid scope = 0 := by
  unfold Engine.scopedUsage
  rw [h.1, h.2]
  split_ifs <;> rfl

theorem scopedUsage_congr (h : eng'.usageOf uid = eng.usageOf uid ∧ eng'.fgOf uid = eng.fgOf uid) :
    eng'.scopedUsage uid scope = eng.scopedUsage uid scope := by
  unfold Engine.scopedUsage
  rw [h.1, h.2]

/-- Resetting some uids leaves no scope with more usage. -/
theorem Resets.scopedUsage_le {uids : List Uid} (h : Resets uids eng eng') (u : Uid)
    (scope : String) : eng'.scopedUsage u scope ≤ eng.scopedUsage u scope := by
  by_cases hu : u ∈ uids
  · rw [scopedUsage_of_reset (h.inside u hu)]
    exact Nat.zero_le _
  · exact (scopedUsage_congr (h.outside u hu)).le

/-- A timer whose uids are all reset has used up nothing. -/
theorem used_eq_zero {timer : Timer}
    (h : ∀ u ∈ timer.uids eng, eng.usageOf u = 0 ∧ eng.fgOf u = 0) : timer.used eng = 0 := by
  cases timer with
  | uid u d => exact scopedUsage_of_reset (h u (List.mem_singleton_self u))
  | pool gid g =>
      refine List.sum_eq_zero fun secs hsecs => ?_
      obtain ⟨u, hu, rfl⟩ := List.mem_map.mp hsecs
      exact scopedUsage_of_reset (h u hu)

/-- Setting the counter of each uid of a list to zero. -/
theorem getD_foldl_insert_zero (uids : List Uid) (m : UidMap Nat) (u : Uid) :
    (uids.foldl (fun m uid => m.insert uid 0) m)[u]?.getD 0 =
      if u ∈ uids then 0 else m[u]?.getD 0 := by
  induction uids generalizing m with
  | nil => simp
  | cons uid uids ih =>
      rw [List.foldl_cons, ih, getElem?_insert_eq]
      by_cases hu : uid = u
      · simp [hu]
      · simp [hu, Ne.symm hu]

end Counters

section Jobs

variable (now : Nat) (eng : Engine)

theorem sameButUsage_maintain (timer : Timer) : SameButUsage eng (timer.maintain now eng) := by
  cases timer with
  | uid u d => exact sameButUsage_maintainUidCooldown now eng (u, d)
  | pool gid g => exact sameButUsage_maintainGroupCooldown now eng (gid, g)

theorem resets_endUidCooldown (u : Uid) : Resets [u] eng (eng.endUidCooldown u) := by
  refine ⟨fun v hv => ?_, fun v hv => ?_⟩
  · obtain rfl := List.mem_singleton.mp hv
    simp [Engine.usageOf, Engine.fgOf, Engine.endUidCooldown]
  · have hne : u ≠ v := fun h => hv (List.mem_singleton.mpr h.symm)
    simp [Engine.usageOf, Engine.fgOf, Engine.endUidCooldown, hne]

theorem resets_endGroupCooldown (gid : String) (g : GroupRule) :
    Resets (eng.uidsOf g.members) eng (eng.endGroupCooldown gid g) := by
  refine ⟨fun v hv => ?_, fun v hv => ?_⟩
  · simp only [Engine.usageOf, Engine.fgOf, Engine.endGroupCooldown, getD_foldl_insert_zero,
      if_pos hv, and_self]
  · simp only [Engine.usageOf, Engine.fgOf, Engine.endGroupCooldown, getD_foldl_insert_zero,
      if_neg hv, and_self]

/-- A deadline of a uid is stored under the uid. -/
theorem deadlineBecomes_uid {uid : Uid} {eng eng' : Engine} {deadline : Option Nat}
    (huid : ∀ v, eng'.cooldownUntil[v]? = if v = uid then deadline else eng.cooldownUntil[v]?)
    (hpool : eng'.groupCooldownUntil = eng.groupCooldownUntil) :
    DeadlineBecomes (.uid uid) deadline eng eng' := by
  intro key
  cases key with
  | uid v => simpa [Engine.deadlineAt] using huid v
  | pool gid => simp [Engine.deadlineAt, hpool]

theorem deadlineBecomes_pool {gid : String} {eng eng' : Engine} {deadline : Option Nat}
    (hpool : ∀ id, eng'.groupCooldownUntil[id]? =
      if id = gid then deadline else eng.groupCooldownUntil[id]?)
    (huid : eng'.cooldownUntil = eng.cooldownUntil) :
    DeadlineBecomes (.pool gid) deadline eng eng' := by
  intro key
  cases key with
  | uid v => simp [Engine.deadlineAt, huid]
  | pool id => simpa [Engine.deadlineAt] using hpool id

/-- A start, when the limit is used up and no cooldown is stored. -/
theorem maintained_start_uid {now : Nat} {uid : Uid} {d : DurationRule} {eng : Engine}
    (hnone : eng.cooldownUntil[uid]? = none) :
    Maintained now (.uid uid d) eng (eng.startUidCooldown now uid d) := by
  unfold Engine.startUidCooldown
  split_ifs with hover
  · refine .started hnone hover (deadlineBecomes_uid (fun v => ?_) rfl)
      ⟨fun v hv => absurd hv List.not_mem_nil, fun v _ => ⟨rfl, rfl⟩⟩
    show (eng.cooldownUntil.insert uid _)[v]? = _
    rw [getElem?_insert_eq]
    simp only [eq_comm]
    rfl
  · exact .settled (.inr ⟨hnone, Nat.lt_of_not_le hover⟩) rfl

theorem maintained_start_pool {now : Nat} {gid : String} {g : GroupRule} {eng : Engine}
    (hnone : eng.groupCooldownUntil[gid]? = none) :
    Maintained now (.pool gid g) eng (eng.startGroupCooldown now gid g) := by
  unfold Engine.startGroupCooldown
  split_ifs with hover
  · refine .started hnone hover (deadlineBecomes_pool (fun id => ?_) rfl)
      ⟨fun v hv => absurd hv List.not_mem_nil, fun v _ => ⟨rfl, rfl⟩⟩
    show (eng.groupCooldownUntil.insert gid _)[id]? = _
    rw [getElem?_insert_eq]
    simp only [eq_comm]
    rfl
  · exact .settled (.inr ⟨hnone, Nat.lt_of_not_le hover⟩) rfl

/-- An end, when the stored deadline is over.  Usage is reset with it, so the
cycle does not start again at once. -/
theorem maintained_end_uid {now t : Nat} {uid : Uid} {d : DurationRule} {eng : Engine}
    (hlimit : 0 < (Timer.uid uid d).limit) (hstored : eng.cooldownUntil[uid]? = some t)
    (hover : t ≤ now) :
    Maintained now (.uid uid d) eng ((eng.endUidCooldown uid).startUidCooldown now uid d) := by
  have hresets := resets_endUidCooldown eng uid
  have hzero : (Timer.uid uid d).used (eng.endUidCooldown uid) = 0 := used_eq_zero hresets.inside
  have hused : ¬ (Timer.uid uid d).limit ≤ (Timer.uid uid d).used (eng.endUidCooldown uid) := by
    omega
  have hstart : (eng.endUidCooldown uid).startUidCooldown now uid d = eng.endUidCooldown uid :=
    if_neg hused
  rw [hstart]
  refine .ended hstored hover (deadlineBecomes_uid (fun v => ?_) rfl) hresets
  show (eng.cooldownUntil.erase uid)[v]? = _
  rw [getElem?_erase_eq]
  simp only [eq_comm]

theorem maintained_end_pool {now t : Nat} {gid : String} {g : GroupRule} {eng : Engine}
    (hlimit : 0 < (Timer.pool gid g).limit) (hstored : eng.groupCooldownUntil[gid]? = some t)
    (hover : t ≤ now) :
    Maintained now (.pool gid g) eng
      ((eng.endGroupCooldown gid g).startGroupCooldown now gid g) := by
  have hresets := resets_endGroupCooldown eng gid g
  have hzero : (Timer.pool gid g).used (eng.endGroupCooldown gid g) = 0 :=
    used_eq_zero hresets.inside
  have hused : ¬ (Timer.pool gid g).limit ≤
      (Timer.pool gid g).used (eng.endGroupCooldown gid g) := by
    omega
  have hstart : (eng.endGroupCooldown gid g).startGroupCooldown now gid g =
      eng.endGroupCooldown gid g := if_neg hused
  rw [hstart]
  refine .ended hstored hover (deadlineBecomes_pool (fun id => ?_) rfl) hresets
  show (eng.groupCooldownUntil.erase gid)[id]? = _
  rw [getElem?_erase_eq]
  simp only [eq_comm]

end Jobs

/-- **What maintaining a timer does.** -/
theorem maintained (now : Nat) (eng : Engine) {timer : Timer} (hlimit : 0 < timer.limit) :
    Maintained now timer eng (timer.maintain now eng) := by
  cases timer with
  | uid u d =>
      show Maintained now (.uid u d) eng (Engine.maintainUidCooldown now eng (u, d))
      cases hstored : eng.cooldownUntil[u]? with
      | none =>
          simp only [Engine.maintainUidCooldown, hstored]
          exact maintained_start_uid hstored
      | some t =>
          simp only [Engine.maintainUidCooldown, hstored]
          split_ifs with hahead
          · exact .settled (.inl ⟨t, hstored, hahead⟩) rfl
          · exact maintained_end_uid hlimit hstored (Nat.le_of_not_lt hahead)
  | pool gid g =>
      show Maintained now (.pool gid g) eng (Engine.maintainGroupCooldown now eng (gid, g))
      cases hstored : eng.groupCooldownUntil[gid]? with
      | none =>
          simp only [Engine.maintainGroupCooldown, hstored]
          exact maintained_start_pool hstored
      | some t =>
          simp only [Engine.maintainGroupCooldown, hstored]
          split_ifs with hahead
          · exact .settled (.inl ⟨t, hstored, hahead⟩) rfl
          · exact maintained_end_pool hlimit hstored (Nat.le_of_not_lt hahead)

/-! ## Settled timers -/

section Settled

variable {now : Nat} {timer other : Timer} {eng eng' : Engine}

/-- A settled timer is left alone. -/
theorem maintain_of_settled (hlimit : 0 < timer.limit) (h : timer.Settled now eng) :
    timer.maintain now eng = eng := by
  cases maintained now eng hlimit with
  | settled _ hsame => exact hsame
  | started hnone hover =>
      rcases h with ⟨t, hsome, -⟩ | ⟨-, hbelow⟩
      · rw [hnone] at hsome
        cases hsome
      · omega
  | ended hsome hpassed =>
      rcases h with ⟨t, hsome', hahead⟩ | ⟨hnone, -⟩
      · obtain rfl := Option.some.inj (hsome.symm.trans hsome')
        omega
      · rw [hsome] at hnone
        cases hnone

/-- No scope of a timer counts more after resets. -/
theorem used_le_of_resets {uids : List Uid} (h : Resets uids eng eng')
    (huidOf : eng'.uidOf = eng.uidOf) : timer.used eng' ≤ timer.used eng := by
  cases timer with
  | uid u d => exact h.scopedUsage_le u d.scope
  | pool gid g =>
      show (((eng'.uidsOf g.members).map _).sum ≤ ((eng.uidsOf g.members).map _).sum)
      unfold Engine.uidsOf
      rw [huidOf]
      exact List.sum_le_sum fun u _ => h.scopedUsage_le u _

/-- A timer whose deadline was left alone and whose usage was at most reset. -/
theorem Timer.Settled.of_resets (h : timer.Settled now eng) {uids : List Uid}
    (hdeadline : timer.deadline eng' = timer.deadline eng) (hcounts : Resets uids eng eng')
    (huidOf : eng'.uidOf = eng.uidOf) : timer.Settled now eng' := by
  rcases h with ⟨t, hsome, hahead⟩ | ⟨hnone, hbelow⟩
  · exact .inl ⟨t, hdeadline.trans hsome, hahead⟩
  · exact .inr ⟨hdeadline.trans hnone, (used_le_of_resets hcounts huidOf).trans_lt hbelow⟩

/-- A timer looks at deadlines, counters and the uid map. -/
theorem Timer.Settled.congr (h : timer.Settled now eng)
    (hdeadline : eng'.cooldownUntil = eng.cooldownUntil)
    (hpool : eng'.groupCooldownUntil = eng.groupCooldownUntil)
    (husage : eng'.usageSeconds = eng.usageSeconds) (hfg : eng'.usageFg = eng.usageFg)
    (huidOf : eng'.uidOf = eng.uidOf) : timer.Settled now eng' := by
  have hkept : timer.deadline eng' = timer.deadline eng := by
    cases timer with
    | uid u d => simp only [Timer.deadline, Timer.key, Engine.deadlineAt, hdeadline]
    | pool gid g => simp only [Timer.deadline, Timer.key, Engine.deadlineAt, hpool]
  have hcounts : Resets [] eng eng' := by
    refine ⟨fun v hv => absurd hv List.not_mem_nil, fun v _ => ?_⟩
    simp only [Engine.usageOf, Engine.fgOf, husage, hfg, and_self]
  exact h.of_resets hkept hcounts huidOf

/-- Maintaining leaves the uid map alone. -/
theorem uidOf_maintain (now : Nat) (eng : Engine) (timer : Timer) :
    (timer.maintain now eng).uidOf = eng.uidOf := by
  obtain ⟨_, _, _, _, h⟩ := sameButUsage_maintain now eng timer
  rw [h]

theorem uids_congr (h : eng'.uidOf = eng.uidOf) : timer.uids eng' = timer.uids eng := by
  cases timer with
  | uid u d => rfl
  | pool gid g => simp only [Timer.uids, Engine.uidsOf, h]

/-- Once maintained a timer is settled. -/
theorem settled_maintain (hlimit : 0 < timer.limit) (hperiod : 0 < timer.period) :
    timer.Settled now (timer.maintain now eng) := by
  have huidOf := uidOf_maintain now eng timer
  cases maintained now eng hlimit with
  | settled hsettled hsame => rwa [hsame]
  | started hnone hover hdeadline hcounts =>
      refine .inl ⟨now + timer.period, (hdeadline timer.key).trans (if_pos rfl), by omega⟩
  | ended hsome hpassed hdeadline hcounts =>
      refine .inr ⟨(hdeadline timer.key).trans (if_pos rfl), ?_⟩
      rw [used_eq_zero fun u hu => hcounts.inside u (uids_congr huidOf ▸ hu)]
      exact hlimit

/-- **A settled timer stays settled** whatever another one does. -/
theorem Timer.Settled.maintain (h : timer.Settled now eng) (hlimit : 0 < other.limit)
    (hperiod : 0 < other.period) : timer.Settled now (other.maintain now eng) := by
  have huidOf := uidOf_maintain now eng other
  cases maintained now eng hlimit with
  | settled hsettled hsame => rwa [hsame]
  | started hnone hover hdeadline hcounts =>
      by_cases hkey : timer.key = other.key
      · exact .inl ⟨now + other.period, (hdeadline timer.key).trans (if_pos hkey), by omega⟩
      · exact h.of_resets ((hdeadline timer.key).trans (if_neg hkey)) hcounts huidOf
  | @ended t hsome hpassed hdeadline hcounts =>
      have hkey : timer.key ≠ other.key := by
        intro heq
        have hsame : timer.deadline eng = some t := by
          rw [← hsome, Timer.deadline, Timer.deadline, heq]
        rcases h with ⟨t', hsome', hahead⟩ | ⟨hnone, -⟩
        · obtain rfl := Option.some.inj (hsame.symm.trans hsome')
          omega
        · rw [hsame] at hnone
          cases hnone
      exact h.of_resets ((hdeadline timer.key).trans (if_neg hkey)) hcounts huidOf

/-- Timers that are maintained one after the other are all settled at the end. -/
theorem settled_foldl {l : List Timer} (hcools : ∀ t ∈ l, 0 < t.limit ∧ 0 < t.period)
    (h : timer ∈ l ∨ timer.Settled now eng) :
    timer.Settled now (l.foldl (Timer.maintain now) eng) := by
  induction l generalizing eng with
  | nil => exact h.resolve_left List.not_mem_nil
  | cons other l ih =>
      obtain ⟨hlimit, hperiod⟩ := hcools other List.mem_cons_self
      refine ih (fun t ht => hcools t (List.mem_cons_of_mem other ht)) ?_
      rcases h with hmem | hsettled
      · rcases List.mem_cons.mp hmem with rfl | hrest
        · exact .inr (settled_maintain hlimit hperiod)
        · exact .inl hrest
      · exact .inr (hsettled.maintain hlimit hperiod)

/-- **After the cooldown step every timer is settled.** -/
theorem settled_maintainCooldowns (h : timer ∈ eng.timers) :
    timer.Settled now (eng.maintainCooldowns now) := by
  rw [maintainCooldowns_eq]
  exact settled_foldl (fun t ht => cools_of_mem_timers ht) (.inl h)

/-- **Where every timer is settled the cooldown step does nothing.** -/
theorem maintainCooldowns_of_settled (h : ∀ timer ∈ eng.timers, timer.Settled now eng) :
    eng.maintainCooldowns now = eng := by
  have hfold (l : List Timer) (hl : ∀ timer ∈ l, timer ∈ eng.timers) :
      l.foldl (Timer.maintain now) eng = eng := by
    induction l with
    | nil => rfl
    | cons timer l ih =>
        have hmem := hl timer List.mem_cons_self
        rw [List.foldl_cons, maintain_of_settled (cools_of_mem_timers hmem).1 (h timer hmem)]
        exact ih fun t ht => hl t (List.mem_cons_of_mem timer ht)
  rw [maintainCooldowns_eq]
  exact hfold _ fun _ ht => ht

end Settled

/-- What survives every reset of counters survives the cooldown step. -/
theorem maintainCooldowns_of_resets {p : Engine → Prop} (now : Nat) {eng : Engine}
    (hresets : ∀ {uids : List Uid} {eng eng' : Engine}, Resets uids eng eng' → p eng → p eng')
    (heng : p eng) : p (eng.maintainCooldowns now) := by
  have hloop (l : List Timer) (hl : ∀ timer ∈ l, 0 < timer.limit) (eng : Engine) (heng : p eng) :
      p (l.foldl (Timer.maintain now) eng) := by
    induction l generalizing eng with
    | nil => exact heng
    | cons timer l ih =>
        obtain ⟨hlimit, hl⟩ := List.forall_mem_cons.mp hl
        refine ih hl _ ?_
        cases maintained now eng hlimit with
        | settled _ hsame =>
            rw [hsame]
            exact heng
        | started _ _ _ hcounts => exact hresets hcounts heng
        | ended _ _ _ hcounts => exact hresets hcounts heng
  rw [maintainCooldowns_eq]
  exact hloop _ (fun timer htimer => (cools_of_mem_timers htimer).1) eng heng

end Ningshi
