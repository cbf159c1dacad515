import Ningshi.Engine.Usage

/-!
# The wake schedule: `next_wake_secs` and `window_edge_secs`

The main loop sleeps for the shortest of several intervals: fixed cadences
while there is something to sweep or to count, the next edge of a time window,
the next deadline and local midnight.  `Due` lists these candidates without
saying how the shortest one is found; `nextWakeSecs_isLeast` says that the
schedule picks the least of them.
-/

namespace Ningshi

open Std FiniteMap

/-- The weekday that many minutes after the start of this weekday. -/
def weekdayAfter (weekday minutes : Nat) : Nat := (weekday - 1 + minutes / 1440) % 7 + 1

/-- The copy of `in_window` in the edge search, without its first check. -/
def insideAt (w : TimeWindow) (m d : Nat) : Bool :=
  let start := parseHhmm w.start
  let stop := parseHhmm w.stop
  if start < stop then daysAllow w.days d && (start ≤ m && m < stop)
  else if start ≤ m then daysAllow w.days d
  else if m < stop then daysAllow w.days (prevWeekday d)
  else false

/-- Seconds until this window's answer flips, searched minute by minute over
two days; `none` for a window whose ends coincide. -/
def windowEdgeSecs (w : TimeWindow) (nowMin weekday secInMin : Nat) : Option Nat :=
  if parseHhmm w.start = parseHhmm w.stop then none
  else
    let inside := inWindow w nowMin weekday
    ((List.range' 1 (2 * 1440)).find? fun step =>
        insideAt w ((nowMin + step) % 1440) (weekdayAfter weekday (nowMin + step)) != inside).map
      fun step => max (step * 60 - secInMin) 1

structure WakeInputs where
  rules : Rules
  anyBlocked : Bool
  /-- deadlines of extensions and cooldowns -/
  expiries : List Nat
  nowEpoch : Nat
  nowMin : Nat
  weekday : Nat
  /-- seconds already elapsed inside the current minute -/
  secInMin : Nat

/-- The cadence one rule set asks for. -/
def cadence (secs : Nat) (set : RuleSet) : Nat :=
  let secs := if 0 < set.duration.limitMinutes then min secs activeTickSecs else secs
  if set.lockBlock then min secs activeTickSecs else secs

/-- The edges of all windows of the enabled rule sets. -/
def WakeInputs.edges (i : WakeInputs) : List Nat :=
  i.rules.enabledSets.flatMap fun set =>
    set.timeWindows.windows.filterMap fun w => windowEdgeSecs w i.nowMin i.weekday i.secInMin

def WakeInputs.toMidnight (i : WakeInputs) : Nat := (1440 - i.nowMin) * 60 - i.secInMin

/-- The sleep schedule. -/
def nextWakeSecs (i : WakeInputs) : Nat :=
  let secs := if i.anyBlocked then min idleTickSecs sweepTickSecs else idleTickSecs
  let secs := i.rules.enabledSets.foldl cadence secs
  let secs := i.edges.foldl min secs
  let secs := i.expiries.foldl
    (fun secs t => if i.nowEpoch < t then min secs (t - i.nowEpoch) else secs) secs
  max (min secs (max i.toMidnight 1)) 1

/-- The deadlines in the engine's maps. -/
def Engine.expiries (eng : Engine) : List Nat :=
  eng.extensionUntil.toList.map Prod.snd ++ eng.groupExtensionUntil.toList.map Prod.snd ++
    eng.cooldownUntil.toList.map Prod.snd ++ eng.groupCooldownUntil.toList.map Prod.snd

/-- What the schedule is given at a clock reading. -/
def Engine.wakeInputs (epoch : Nat) (eng : Engine) : WakeInputs where
  rules := eng.rules
  anyBlocked := !eng.blocked.isEmpty
  expiries := eng.expiries
  nowEpoch := epoch
  nowMin := (eng.nowParts epoch).nowMin
  weekday := (eng.nowParts epoch).weekday
  secInMin := epoch % 60

/-- How long the main loop may sleep. -/
def Engine.tickIntervalSecs (epoch : Nat) (eng : Engine) : Nat :=
  nextWakeSecs (eng.wakeInputs epoch)

/-! ## The candidates -/

/-- Does the answer of the window flip with the minute `step` minutes on? -/
def FlipsAt (i : WakeInputs) (w : TimeWindow) (step : Nat) : Prop :=
  inWindow w ((i.nowMin + step) % 1440) (weekdayAfter i.weekday (i.nowMin + step)) ≠
    inWindow w i.nowMin i.weekday

/-- The offsets at which something is due. -/
inductive Due (i : WakeInputs) : Nat → Prop
  | idle : Due i idleTickSecs
  | sweep (hblocked : i.anyBlocked = true) : Due i sweepTickSecs
  | active {set : RuleSet} (hset : set ∈ i.rules.enabledSets)
      (hcounts : 0 < set.duration.limitMinutes ∨ set.lockBlock = true) : Due i activeTickSecs
  | edge {set : RuleSet} {w : TimeWindow} {step : Nat} (hset : set ∈ i.rules.enabledSets)
      (hw : w ∈ set.timeWindows.windows) (hstep : 1 ≤ step ∧ step ≤ 2 * 1440)
      (hflip : FlipsAt i w step) : Due i (max (step * 60 - i.secInMin) 1)
  | deadline {t : Nat} (ht : t ∈ i.expiries) (hahead : i.nowEpoch < t) : Due i (t - i.nowEpoch)
  | midnight : Due i (max i.toMidnight 1)

/-- Nothing is due at once. -/
theorem Due.pos {i : WakeInputs} {d : Nat} (h : Due i d) : 1 ≤ d := by
  cases h with
  | idle => decide
  | sweep => decide
  | active => decide
  | edge => exact le_max_right _ _
  | deadline _ hahead => omega
  | midnight => exact le_max_right _ _

/-! ## The schedule picks the least one -/

/-- A loop that takes the minimum with some candidates finds the least of them
and its start value. -/
theorem isLeast_foldl {α : Type} (candidate : α → Option Nat) (l : List α) {s : Set Nat}
    {secs : Nat} (hsecs : IsLeast s secs) :
    IsLeast (s ∪ {d | ∃ a ∈ l, candidate a = some d})
      (l.foldl (fun secs a => (candidate a).elim secs (min secs)) secs) := by
  induction l generalizing s secs with
  | nil => simpa using hsecs
  | cons a l ih =>
      rw [List.foldl_cons]
      cases hcand : candidate a with
      | none =>
          have hset : s ∪ {d | ∃ b ∈ a :: l, candidate b = some d} =
              s ∪ {d | ∃ b ∈ l, candidate b = some d} := by
            ext d
            simp [hcand]
          rw [hset]
          exact ih hsecs
      | some b =>
          have hset : s ∪ {d | ∃ b ∈ a :: l, candidate b = some d} =
              s ∪ {b} ∪ {d | ∃ b ∈ l, candidate b = some d} := by
            ext d
            simp [hcand, or_assoc, or_left_comm, eq_comm]
          rw [hset]
          exact ih (hsecs.union isLeast_singleton)

theorem insideAt_eq {w : TimeWindow} (h : parseHhmm w.start ≠ parseHhmm w.stop) (m d : Nat) :
    insideAt w m d = inWindow w m d := by
  simp only [insideAt, inWindow, if_neg h, dayAllowed]

/-- A window whose ends coincide never flips. -/
theorem not_flipsAt_of_degenerate {i : WakeInputs} {w : TimeWindow} {step : Nat}
    (h : parseHhmm w.start = parseHhmm w.stop) : ¬ FlipsAt i w step := by
  simp [FlipsAt, inWindow, h]

/-- The edge of a window is its first flip. -/
theorem windowEdgeSecs_eq_some_iff {i : WakeInputs} {w : TimeWindow} {d : Nat} :
    windowEdgeSecs w i.nowMin i.weekday i.secInMin = some d ↔
      ∃ step, (1 ≤ step ∧ step ≤ 2 * 1440) ∧ FlipsAt i w step ∧
        (∀ earlier, 1 ≤ earlier → earlier < step → ¬ FlipsAt i w earlier) ∧
        d = max (step * 60 - i.secInMin) 1 := by
  by_cases hends : parseHhmm w.start = parseHhmm w.stop
  · simp only [windowEdgeSecs, if_pos hends, reduceCtorEq, false_iff]
    rintro ⟨step, -, hflip, -⟩
    exact not_flipsAt_of_degenerate hends hflip
  · have hflips (step : Nat) :
        (insideAt w ((i.nowMin + step) % 1440) (weekdayAfter i.weekday (i.nowMin + step)) !=
          inWindow w i.nowMin i.weekday) = true ↔ FlipsAt i w step := by
      rw [insideAt_eq hends, bne_iff_ne]
      rfl
    simp only [windowEdgeSecs, if_neg hends, Option.map_eq_some_iff, List.find?_range'_eq_some,
      hflips, List.mem_range'_1]
    constructor
    · rintro ⟨step, ⟨hflip, hrange, hearlier⟩, rfl⟩
      refine ⟨step, by omega, hflip, fun earlier hlo hhi => ?_, rfl⟩
      have := hearlier earlier hlo hhi
      rw [Bool.not_eq_true', ← Bool.not_eq_true, hflips] at this
      exact this
    · rintro ⟨step, hrange, hflip, hearlier, rfl⟩
      refine ⟨step, ⟨hflip, by omega, fun earlier hlo hhi => ?_⟩, rfl⟩
      rw [Bool.not_eq_true', ← Bool.not_eq_true, hflips]
      exact hearlier earlier hlo hhi

/-- Where a window flips, its edge is no later. -/
theorem exists_windowEdgeSecs_le {i : WakeInputs} {w : TimeWindow} {step : Nat}
    (hstep : 1 ≤ step ∧ step ≤ 2 * 1440) (hflip : FlipsAt i w step) :
    ∃ d, windowEdgeSecs w i.nowMin i.weekday i.secInMin = some d ∧
      d ≤ max (step * 60 - i.secInMin) 1 := by
  classical
  have hexists : ∃ step, 1 ≤ step ∧ FlipsAt i w step := ⟨step, hstep.1, hflip⟩
  have hfirst := Nat.find_spec hexists
  have hle : Nat.find hexists ≤ step := Nat.find_min' hexists ⟨hstep.1, hflip⟩
  refine ⟨max (Nat.find hexists * 60 - i.secInMin) 1, windowEdgeSecs_eq_some_iff.mpr
    ⟨Nat.find hexists, ⟨hfirst.1, by omega⟩, hfirst.2, fun earlier hlo hhi hflip' => ?_, rfl⟩,
    by omega⟩
  exact Nat.find_min hexists hhi ⟨hlo, hflip'⟩

/-- The cadence a rule set asks for, if any. -/
def cadenceOf (set : RuleSet) : Option Nat :=
  if 0 < set.duration.limitMinutes ∨ set.lockBlock = true then some activeTickSecs else none

theorem cadence_eq (secs : Nat) (set : RuleSet) :
    cadence secs set = (cadenceOf set).elim secs (min secs) := by
  unfold cadence cadenceOf
  by_cases hlimit : 0 < set.duration.limitMinutes <;> cases set.lockBlock <;> simp [hlimit]

theorem mem_edges_iff {i : WakeInputs} {d : Nat} :
    d ∈ i.edges ↔ ∃ set ∈ i.rules.enabledSets, ∃ w ∈ set.timeWindows.windows,
      windowEdgeSecs w i.nowMin i.weekday i.secInMin = some d := by
  simp [WakeInputs.edges]

/-- The loops of the schedule, as loops over optional candidates. -/
theorem nextWakeSecs_eq (i : WakeInputs) :
    nextWakeSecs i = max (min
      (i.expiries.foldl (fun secs t =>
          (if i.nowEpoch < t then some (t - i.nowEpoch) else none).elim secs (min secs))
        (i.edges.foldl (fun secs d => (some d).elim secs (min secs))
          (i.rules.enabledSets.foldl (fun secs set => (cadenceOf set).elim secs (min secs))
            (if i.anyBlocked then min idleTickSecs sweepTickSecs else idleTickSecs))))
      (max i.toMidnight 1)) 1 := by
  have hcadence : cadence = fun secs set => (cadenceOf set).elim secs (min secs) :=
    funext fun secs => funext fun set => cadence_eq secs set
  have hexpiry : (fun secs t => if i.nowEpoch < t then min secs (t - i.nowEpoch) else secs) =
      fun secs t => (if i.nowEpoch < t then some (t - i.nowEpoch) else none).elim secs
        (min secs) := by
    funext secs t
    split_ifs <;> rfl
  simp only [nextWakeSecs, hcadence, hexpiry]
  rfl

/-- **The schedule picks the least offset at which something is due.** -/
theorem nextWakeSecs_isLeast (i : WakeInputs) : IsLeast {d | Due i d} (nextWakeSecs i) := by
  have hstart : IsLeast {d | d = idleTickSecs ∨ (i.anyBlocked = true ∧ d = sweepTickSecs)}
      (if i.anyBlocked then min idleTickSecs sweepTickSecs else idleTickSecs) := by
    cases i.anyBlocked with
    | false => simp
    | true =>
        have hpair := (isLeast_singleton (a := idleTickSecs)).union
          (isLeast_singleton (a := sweepTickSecs))
        simp only [if_true, true_and]
        exact hpair
  -- Every loop takes the minimum with candidates of its own.
  have hloops := isLeast_foldl
    (fun t => if i.nowEpoch < t then some (t - i.nowEpoch) else none) i.expiries
    (isLeast_foldl some i.edges (isLeast_foldl cadenceOf i.rules.enabledSets hstart))
  obtain ⟨hmem, hlower⟩ := hloops.union (isLeast_singleton (a := max i.toMidnight 1))
  rw [nextWakeSecs_eq]
  generalize min _ (max i.toMidnight 1) = secs at hmem hlower ⊢
  have hdue : Due i secs := by
    rcases hmem with ((((rfl | ⟨hblocked, rfl⟩) | ⟨set, hset, hcand⟩) | ⟨d, hd, hcand⟩) |
      ⟨t, ht, hcand⟩) | hmidnight
    · exact .idle
    · exact .sweep hblocked
    · unfold cadenceOf at hcand
      split_ifs at hcand with hcounts
      obtain rfl := Option.some.inj hcand
      exact .active hset hcounts
    · obtain rfl := Option.some.inj hcand
      obtain ⟨set, hset, w, hw, hedge⟩ := mem_edges_iff.mp hd
      obtain ⟨step, hstep, hflip, -, rfl⟩ := windowEdgeSecs_eq_some_iff.mp hedge
      exact .edge hset hw hstep hflip
    · split_ifs at hcand with hahead
      obtain rfl := Option.some.inj hcand
      exact .deadline ht hahead
    · rw [Set.mem_singleton_iff.mp hmidnight]
      exact .midnight
  rw [max_eq_left hdue.pos]
  refine ⟨hdue, fun d hd => ?_⟩
  cases hd with
  | idle => exact hlower (.inl (.inl (.inl (.inl (.inl rfl)))))
  | sweep hblocked => exact hlower (.inl (.inl (.inl (.inl (.inr ⟨hblocked, rfl⟩)))))
  | @active set hset hcounts =>
      exact hlower (.inl (.inl (.inl (.inr ⟨set, hset, if_pos hcounts⟩))))
  | @edge set w step hset hw hstep hflip =>
      obtain ⟨d', hedge, hle⟩ := exists_windowEdgeSecs_le hstep hflip
      have hmem' : d' ∈ i.edges := mem_edges_iff.mpr ⟨set, hset, w, hw, hedge⟩
      exact (hlower (.inl (.inl (.inr ⟨d', hmem', rfl⟩)))).trans hle
  | @deadline t ht hahead => exact hlower (.inl (.inr ⟨t, ht, if_pos hahead⟩))
  | midnight => exact hlower (.inr rfl)

end Ningshi
