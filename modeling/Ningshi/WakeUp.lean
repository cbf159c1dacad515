import Ningshi.Engine.Tick

/-!
# Does the main loop sleep through a change?

One iteration of the main loop reads the clock twice: the tick takes its
verdicts with the first reading, the sleep is computed with the second.
Instants are nanoseconds, a clock reading is the second an instant lies in.

`FirstChange` is the first second after a reading at which some window answer
flips, a deadline passes or the local date changes.  `wake_in_time_iff` says
exactly when the next wake-up is at most one second late for it: a change that
lies between the two readings is missed, whatever the schedule does later.
-/

namespace Ningshi

open Std FiniteMap Transition

/-- Nanoseconds in a second. -/
def nanos : Nat := 1000000000

/-- Something a verdict depends on changes with this second. -/
def ChangesAt (eng : Engine) (second : Nat) : Prop :=
  (∃ set ∈ eng.rules.enabledSets,
      inAnyWindow set (eng.nowParts second).nowMin (eng.nowParts second).weekday ≠
        inAnyWindow set (eng.nowParts (second - 1)).nowMin (eng.nowParts (second - 1)).weekday) ∨
    second ∈ eng.expiries ∨
    (eng.nowParts second).date ≠ (eng.nowParts (second - 1)).date

/-- The first change after a clock reading. -/
structure FirstChange (eng : Engine) (reading change : Nat) : Prop where
  later : reading < change
  changes : ChangesAt eng change
  first : ∀ second, reading < second → second < change → ¬ ChangesAt eng second

/-- An iteration of the main loop whose tick succeeds. -/
structure Iteration where
  env : Env
  before : Sys
  after : Sys
  /-- the instant of the tick's clock reading -/
  judged : Nat
  /-- the instant of the reading for the sleep -/
  slept : Nat
  ticked : tick env before = .ok after
  reading : env.epoch = judged / nanos
  ordered : judged ≤ slept

/-- The second of the clock reading for the sleep. -/
def Iteration.second (it : Iteration) : Nat := it.slept / nanos

/-- The instant of the next wake-up. -/
def Iteration.wake (it : Iteration) : Nat :=
  it.slept + it.after.eng.tickIntervalSecs it.second * nanos

/-- Local minutes start with the minutes of the clock. -/
def Aligned (eng : Engine) : Prop := offsetSecs eng.tzSecs % 60 = 0

/-- When the wake-up comes in time for a change: a change that is still ahead
at the second reading is met, if local minutes start with clock minutes or
something is due by then anyway; a change between the readings is met only if
something happens to be due one second later. -/
def InTime (it : Iteration) (change : Nat) : Prop :=
  if change ≤ it.second then Due (it.after.eng.wakeInputs it.second) 1
  else Aligned it.after.eng ∨
    ∃ d, Due (it.after.eng.wakeInputs it.second) d ∧ it.slept + d * nanos ≤ (change + 1) * nanos

section Changes

variable {eng : Engine} {reading change : Nat}

/-- The date changes within a day. -/
theorem exists_changesAt (eng : Engine) (reading : Nat) :
    ∃ second, reading < second ∧ ChangesAt eng second := by
  refine ⟨reading + (86400 - localSecs eng.tzSecs reading % 86400).toNat, by omega,
    .inr (.inr ?_)⟩
  simp only [Engine.nowParts, nowParts, localSecs]
  omega

/-- **There is a first change after every reading.** -/
theorem exists_firstChange (eng : Engine) (reading : Nat) :
    ∃ change, FirstChange eng reading change := by
  classical
  have hexists := exists_changesAt eng reading
  obtain ⟨hlater, hchanges⟩ := Nat.find_spec hexists
  exact ⟨Nat.find hexists, hlater, hchanges, fun second hlo hhi h =>
    Nat.find_min hexists hhi ⟨hlo, h⟩⟩

/-- Until the first change the answer of an enabled rule set stays. -/
theorem inAnyWindow_of_before {set : RuleSet} (hset : set ∈ eng.rules.enabledSets)
    (hnone : ∀ second, reading < second → second < change → ¬ ChangesAt eng second)
    {second : Nat} (hlo : reading ≤ second) (hhi : second < change) :
    inAnyWindow set (eng.nowParts second).nowMin (eng.nowParts second).weekday =
      inAnyWindow set (eng.nowParts reading).nowMin (eng.nowParts reading).weekday := by
  induction second, hlo using Nat.le_induction with
  | base => rfl
  | succ second hlo ih =>
      refine Eq.trans ?_ (ih (by omega))
      by_contra hne
      exact hnone (second + 1) (by omega) hhi (.inl ⟨set, hset, hne⟩)

/-- Where the answers of two window tests differ, one window differs. -/
theorem exists_window_of_inAnyWindow_ne {set : RuleSet} {m d m' d' : Nat}
    (h : inAnyWindow set m d ≠ inAnyWindow set m' d') :
    ∃ w ∈ set.timeWindows.windows, inWindow w m d ≠ inWindow w m' d' := by
  by_contra hall
  push Not at hall
  refine h ?_
  rw [inAnyWindow, inAnyWindow, Bool.eq_iff_iff, List.any_eq_true, List.any_eq_true]
  exact exists_congr fun w => and_congr_right fun hw => by rw [hall w hw]

/-- The local second of a minute, when minutes are aligned. -/
theorem secInMin_of_aligned (haligned : Aligned eng) (reading : Nat) :
    localSecs eng.tzSecs reading % 60 = (reading % 60 : Nat) := by
  unfold Aligned at haligned
  unfold localSecs
  omega

/-- With aligned minutes the edge of a window is met by a candidate. -/
theorem exists_edge_of_flip (haligned : Aligned eng) (hlater : reading < change)
    (hnear : change < reading + 300) {set : RuleSet} (hset : set ∈ eng.rules.enabledSets)
    {w : TimeWindow} (hw : w ∈ set.timeWindows.windows)
    (hne : inWindow w (eng.nowParts change).nowMin (eng.nowParts change).weekday ≠
      inWindow w (eng.nowParts reading).nowMin (eng.nowParts reading).weekday) :
    ∃ d, Due (eng.wakeInputs reading) d ∧ reading + d ≤ change := by
  have hsec := secInMin_of_aligned haligned reading
  have hadd : change = reading + (change - reading) := by omega
  have hminute := localMinute_add eng.tzSecs reading (change - reading)
  rw [← hadd] at hminute
  obtain ⟨step, hstep⟩ : ∃ step : Nat,
      (step : Int) = (localSecs eng.tzSecs reading % 60 + (change - reading : Nat)) / 60 :=
    ⟨((reading % 60 + (change - reading)) / 60), by rw [hsec]; push_cast; rfl⟩
  rw [← hstep] at hminute
  obtain ⟨hmin, hday, -⟩ := nowParts_of_localMinute_add eng.tzSecs reading hminute
  have hflips : FlipsAt (eng.wakeInputs reading) w step := by
    unfold FlipsAt weekdayAfter
    show inWindow w (((eng.nowParts reading).nowMin + step) % 1440)
      (((eng.nowParts reading).weekday - 1 + ((eng.nowParts reading).nowMin + step) / 1440) % 7
        + 1) ≠ inWindow w (eng.nowParts reading).nowMin (eng.nowParts reading).weekday
    unfold Engine.nowParts
    rw [← hmin, ← hday]
    exact hne
  -- within the minute of the reading nothing flips
  have hstepPos : 1 ≤ step := by
    by_contra hzero
    have : step = 0 := by omega
    subst this
    simp only [Engine.nowParts, hmin, hday] at hne
    have hlt := nowMin_lt eng.tzSecs reading
    have hbounds := weekday_bounds eng.tzSecs reading
    apply hne
    congr 1 <;> omega
  refine ⟨_, .edge hset hw ⟨hstepPos, by omega⟩ hflips, ?_⟩
  show reading + max (step * 60 - reading % 60) 1 ≤ change
  omega

/-- **A change ahead is due.**  With aligned minutes the schedule has a candidate
no later than the first change after its reading. -/
theorem exists_due_of_firstChange (haligned : Aligned eng) (hlater : reading < change)
    (hchanges : ChangesAt eng change)
    (hnone : ∀ second, reading < second → second < change → ¬ ChangesAt eng second) :
    ∃ d, Due (eng.wakeInputs reading) d ∧ reading + d ≤ change := by
  by_cases hfar : reading + idleTickSecs ≤ change
  · exact ⟨idleTickSecs, .idle, hfar⟩
  have hnear : change < reading + 300 := by simpa [idleTickSecs] using hfar
  rcases hchanges with ⟨set, hset, hflip⟩ | hdeadline | hdate
  · -- The answer just before the change is the one at the reading.
    rw [inAnyWindow_of_before hset hnone (by omega : reading ≤ change - 1) (by omega)] at hflip
    obtain ⟨w, hw, hne⟩ := exists_window_of_inAnyWindow_ne hflip
    exact exists_edge_of_flip haligned hlater hnear hset hw hne
  · exact ⟨change - reading, .deadline hdeadline hlater, by omega⟩
  · refine ⟨_, .midnight, ?_⟩
    show reading + max ((1440 - (eng.nowParts reading).nowMin) * 60 - reading % 60) 1 ≤ change
    have hsec := secInMin_of_aligned haligned reading
    simp only [Engine.nowParts, nowParts] at hdate ⊢
    unfold localSecs at hdate hsec ⊢
    omega

end Changes

/-! ## One iteration -/

theorem interval_le_iff {it : Iteration} {limit : Nat} :
    it.after.eng.tickIntervalSecs it.second ≤ limit ↔
      ∃ d, Due (it.after.eng.wakeInputs it.second) d ∧ d ≤ limit := by
  obtain ⟨hdue, hleast⟩ := nextWakeSecs_isLeast (it.after.eng.wakeInputs it.second)
  exact ⟨fun h => ⟨_, hdue, h⟩, fun ⟨d, hd, hle⟩ => (hleast hd).trans hle⟩

theorem second_bounds (it : Iteration) :
    it.second * nanos ≤ it.slept ∧ it.slept < (it.second + 1) * nanos := by
  unfold Iteration.second nanos
  omega

/-- For a change between the readings only the very next second is in time. -/
theorem wake_le_iff_of_past {it : Iteration} {change : Nat} (hpast : change ≤ it.second) :
    it.wake ≤ max it.slept (change * nanos) + nanos ↔
      Due (it.after.eng.wakeInputs it.second) 1 := by
  have hmax : max it.slept (change * nanos) = it.slept :=
    max_eq_left ((Nat.mul_le_mul_right nanos hpast).trans (second_bounds it).1)
  have hinterval : it.slept + it.after.eng.tickIntervalSecs it.second * nanos ≤
      it.slept + nanos ↔ it.after.eng.tickIntervalSecs it.second ≤ 1 := by
    unfold nanos
    omega
  rw [hmax, Iteration.wake, hinterval, interval_le_iff]
  constructor
  · rintro ⟨d, hd, hle⟩
    have hone : d = 1 := Nat.le_antisymm hle hd.pos
    exact hone ▸ hd
  · exact fun h => ⟨1, h, le_rfl⟩

/-- For a change ahead of the second reading something has to be due by then. -/
theorem wake_le_iff_of_ahead {it : Iteration} {change : Nat} (hahead : it.second < change) :
    it.wake ≤ max it.slept (change * nanos) + nanos ↔
      ∃ d, Due (it.after.eng.wakeInputs it.second) d ∧
        it.slept + d * nanos ≤ (change + 1) * nanos := by
  have hmax : max it.slept (change * nanos) = change * nanos :=
    max_eq_right ((second_bounds it).2.le.trans (Nat.mul_le_mul_right nanos hahead))
  rw [hmax, Iteration.wake]
  constructor
  · intro h
    obtain ⟨hdue, -⟩ := nextWakeSecs_isLeast (it.after.eng.wakeInputs it.second)
    refine ⟨_, hdue, h.trans ?_⟩
    rw [Nat.add_mul, Nat.one_mul]
  · rintro ⟨d, hd, hle⟩
    have hinterval := interval_le_iff.mpr ⟨d, hd, le_rfl⟩
    calc it.slept + it.after.eng.tickIntervalSecs it.second * nanos
        ≤ it.slept + d * nanos :=
          Nat.add_le_add_left (Nat.mul_le_mul_right nanos hinterval) it.slept
      _ ≤ (change + 1) * nanos := hle
      _ = change * nanos + nanos := by rw [Nat.add_mul, Nat.one_mul]

/-- **Exactly when an iteration wakes up in time for the first change.** -/
theorem wake_in_time_iff (it : Iteration) {change : Nat}
    (hfirst : FirstChange it.after.eng it.env.epoch change) :
    it.wake ≤ max it.slept (change * nanos) + nanos ↔ InTime it change := by
  have hepoch : it.env.epoch ≤ it.second := by
    rw [it.reading]
    exact Nat.div_le_div_right it.ordered
  unfold InTime
  split_ifs with hpast
  · exact wake_le_iff_of_past hpast
  · have hahead : it.second < change := Nat.lt_of_not_le hpast
    rw [wake_le_iff_of_ahead hahead]
    refine ⟨.inr, fun h => ?_⟩
    rcases h with haligned | hdue
    · obtain ⟨d, hd, hle⟩ := exists_due_of_firstChange haligned hahead hfirst.changes
        fun second hlo hhi => hfirst.first second (hepoch.trans_lt hlo) hhi
      refine ⟨d, hd, ?_⟩
      have hsecond := (second_bounds it).2
      unfold nanos at hsecond ⊢
      omega
    · exact hdue

/-- A daemon without rules whose only app has an extension that ends at second 101. -/
def runningExtension : Sys where
  eng := { Engine.blank .start with
    lastDay := some 0
    extensionUntil := insertAll [(10001, 101)] ∅ }
  fs := ⟨none, none, none, none⟩

theorem runningExtension_tick : (tick (.quiet 100) runningExtension).isOk = true := by
  decide +kernel

/-- The verdicts are taken at second 100, the sleep is computed a second later. -/
def slowIteration : Iteration where
  env := .quiet 100
  before := runningExtension
  after := (tick (.quiet 100) runningExtension).state
  judged := 100 * nanos
  slept := 101 * nanos
  ticked := Outcome.eq_ok_of_isOk runningExtension_tick
  reading := by decide
  ordered := by decide

theorem slowIteration_firstChange : FirstChange slowIteration.after.eng 100 101 where
  later := by decide
  changes := .inr (.inl (by decide +kernel))
  first := fun second hlo hhi => by omega

theorem wake_in_time_iff_slowIteration :
    slowIteration.wake ≤ max slowIteration.slept (101 * nanos) + nanos ↔
      InTime slowIteration 101 :=
  wake_in_time_iff slowIteration slowIteration_firstChange

/-- A deadline that passes between the two readings is slept through. -/
theorem not_wake_in_time :
    ¬ ∀ (it : Iteration) (change : Nat), FirstChange it.after.eng it.env.epoch change →
      it.wake ≤ max it.slept (change * nanos) + nanos := by
  intro h
  have hwake := h slowIteration 101 slowIteration_firstChange
  revert hwake
  decide +kernel

end Ningshi
