import Ningshi.Schedule

/-!
# Nothing changes while the schedule sleeps

`nextWakeSecs` is given the clock as minute, weekday and second of the minute,
and `WakeInputs.clockAfter` says what these are some seconds later.  As long as
the sleep is not over the date stays, no window answer flips and no deadline
passes (`nextWakeSecs_steady`).  The reason is that whatever changed first would
be due no later than it changes, and the schedule sleeps to the least due offset.
-/

namespace Ningshi

open FiniteMap

/-- The minute, the weekday and the second of a clock reading are in range. -/
structure WakeInputs.Clocked (i : WakeInputs) : Prop where
  nowMin : i.nowMin < 1440
  weekday_pos : 1 ≤ i.weekday
  weekday_le : i.weekday ≤ 7
  secInMin : i.secInMin < 60

/-- Minutes from the start of the local day to the instant `d` seconds on. -/
def WakeInputs.minutesAfter (i : WakeInputs) (d : Nat) : Nat := i.nowMin + (i.secInMin + d) / 60

/-- The clock `d` seconds on: how many days later it is, the minute and the weekday. -/
def WakeInputs.clockAfter (i : WakeInputs) (d : Nat) : Nat × Nat × Nat :=
  (i.minutesAfter d / 1440, i.minutesAfter d % 1440, weekdayAfter i.weekday (i.minutesAfter d))

/-- Nothing that a verdict depends on has changed `d` seconds on, as far as it
is a matter of time. -/
structure Steady (i : WakeInputs) (d : Nat) : Prop where
  date : (i.clockAfter d).1 = 0
  windows : ∀ set ∈ i.rules.enabledSets, ∀ w ∈ set.timeWindows.windows,
    inWindow w (i.clockAfter d).2.1 (i.clockAfter d).2.2 = inWindow w i.nowMin i.weekday
  deadlines : ∀ t ∈ i.expiries, ¬ (i.nowEpoch < t ∧ t ≤ i.nowEpoch + d)
  verdicts : ∀ set ∈ i.rules.enabledSets, ∀ extActive overDuration cooldown screenOff,
    eval set (i.clockAfter d).2.1 (i.clockAfter d).2.2 extActive overDuration cooldown screenOff =
      eval set i.nowMin i.weekday extActive overDuration cooldown screenOff

/-- The verdict looks at the clock through the windows only. -/
theorem eval_congr_windows {set : RuleSet} {m d m' d' : Nat}
    (h : ∀ w ∈ set.timeWindows.windows, inWindow w m d = inWindow w m' d')
    (extActive overDuration cooldown screenOff : Bool) :
    eval set m d extActive overDuration cooldown screenOff =
      eval set m' d' extActive overDuration cooldown screenOff := by
  have hany : inAnyWindow set m d = inAnyWindow set m' d' := by
    unfold inAnyWindow
    rw [Bool.eq_iff_iff, List.any_eq_true, List.any_eq_true]
    exact exists_congr fun w => and_congr_right fun hw => by rw [h w hw]
  simp only [eval, hany]

section Clock

variable {i : WakeInputs} {d : Nat}

theorem weekdayAfter_of_lt (h : i.Clocked) {minutes : Nat} (hlt : minutes < 1440) :
    weekdayAfter i.weekday minutes = i.weekday := by
  have hpos := h.weekday_pos
  have hle := h.weekday_le
  unfold weekdayAfter
  omega

/-- Before midnight it is the same day. -/
theorem minutesAfter_lt_of_toMidnight (h : i.Clocked) (hd : d < max i.toMidnight 1) :
    i.minutesAfter d < 1440 := by
  have hmin := h.nowMin
  have hsec := h.secInMin
  unfold WakeInputs.toMidnight at hd
  unfold WakeInputs.minutesAfter
  omega

end Clock

/-- **The wake scheduler never overshoots.**  It sleeps between one second and
five minutes, and until the sleep is over nothing changes. -/
theorem nextWakeSecs_steady {i : WakeInputs} (h : i.Clocked) :
    1 ≤ nextWakeSecs i ∧ nextWakeSecs i ≤ 300 ∧ ∀ d, d < nextWakeSecs i → Steady i d := by
  obtain ⟨hdue, hleast⟩ := nextWakeSecs_isLeast i
  have hidle : nextWakeSecs i ≤ 300 := hleast Due.idle
  refine ⟨hdue.pos, hidle, fun d hd => ?_⟩
  have hmidnight : d < max i.toMidnight 1 := lt_of_lt_of_le hd (hleast Due.midnight)
  have hday : i.minutesAfter d < 1440 := minutesAfter_lt_of_toMidnight h hmidnight
  have hweekday := weekdayAfter_of_lt h hday
  have hminute : i.minutesAfter d % 1440 = i.minutesAfter d := Nat.mod_eq_of_lt hday
  have hwindows : ∀ set ∈ i.rules.enabledSets, ∀ w ∈ set.timeWindows.windows,
      inWindow w (i.clockAfter d).2.1 (i.clockAfter d).2.2 =
        inWindow w i.nowMin i.weekday := by
    intro set hset w hw
    by_contra hflip
    -- The minute has changed, so the flip is an edge the schedule knows about.
    have hstep : 1 ≤ (i.secInMin + d) / 60 := by
      by_contra hzero
      have hsame : i.minutesAfter d = i.nowMin := by
        unfold WakeInputs.minutesAfter
        omega
      apply hflip
      show inWindow w (i.minutesAfter d % 1440) (weekdayAfter i.weekday (i.minutesAfter d)) = _
      rw [hminute, hweekday, hsame]
    have hflips : FlipsAt i w ((i.secInMin + d) / 60) := hflip
    have hsec := h.secInMin
    have hfar : (i.secInMin + d) / 60 ≤ 2 * 1440 := by omega
    have hedge := hleast (Due.edge hset hw ⟨hstep, hfar⟩ hflips)
    have hle : max ((i.secInMin + d) / 60 * 60 - i.secInMin) 1 ≤ d := by omega
    omega
  refine ⟨Nat.div_eq_of_lt hday, hwindows, ?_,
    fun set hset => eval_congr_windows (hwindows set hset)⟩
  rintro t ht ⟨hahead, hpassed⟩
  have hdeadline := hleast (Due.deadline ht hahead)
  omega

/-- One app that may be used between nine and ten, and an extension that ends at
second 100 of the epoch; it is a Monday, half a minute before nine. -/
def beforeNine : WakeInputs where
  rules := { Rules.default with
    apps := insertAll [("0:com.app", ⟨true, { RuleSet.default with
      timeWindows := ⟨"allow", [⟨"09:00", "10:00", []⟩]⟩ }⟩)] ∅ }
  anyBlocked := true
  expiries := [100]
  nowEpoch := 60
  nowMin := 539
  weekday := 1
  secInMin := 30

theorem nextWakeSecs_steady_beforeNine :
    1 ≤ nextWakeSecs beforeNine ∧ nextWakeSecs beforeNine ≤ 300 ∧
      ∀ d, d < nextWakeSecs beforeNine → Steady beforeNine d :=
  nextWakeSecs_steady ⟨by decide, by decide, by decide, by decide⟩

end Ningshi
