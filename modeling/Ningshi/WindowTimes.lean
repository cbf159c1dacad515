import Ningshi.Schedule

/-!
# Times of day without a bound

`parse_hhmm` computes in `u32`, and nothing between the rules file and the
engine bounds the hours of a window.  `PlainWindow` is a window whose ends are
natural numbers, with the predicates of the engine over them; the engine decides
as the one whose ends are the parsed ones (`inWindow_eq_active`,
`windowEdgeSecs_eq_edgeSecs`).

`readsExactly_iff` says for which windows these are the ends that are written in
the file.
-/

namespace Ningshi

open RustStr

/-- The number a part of a time stands for. -/
def timePart (s : List Char) : Nat := (parseUnsigned (2 ^ 32) s).getD 0

/-- The minute that is written, whatever its size. -/
def writtenMinute (s : String) : Nat :=
  (splitOnce ':' s.toList).elim 0 fun p => 60 * timePart p.1 + timePart p.2

/-- A window with any natural numbers as its ends. -/
structure PlainWindow where
  start : Nat
  stop : Nat
  days : List UInt8
  deriving DecidableEq

namespace PlainWindow

/-- `in_window` after its first check, and the copy of it in the edge search. -/
def inside (w : PlainWindow) (nowMin weekday : Nat) : Bool :=
  if w.start < w.stop then
    daysAllow w.days weekday && (w.start ≤ nowMin && nowMin < w.stop)
  else if w.start ≤ nowMin then daysAllow w.days weekday
  else if nowMin < w.stop then daysAllow w.days (prevWeekday weekday)
  else false

/-- `in_window` -/
def active (w : PlainWindow) (nowMin weekday : Nat) : Bool :=
  w.start ≠ w.stop && w.inside nowMin weekday

/-- Seconds until the answer flips, if it does within two days. -/
def edgeSecs (w : PlainWindow) (nowMin weekday secInMin : Nat) : Option Nat :=
  if w.start = w.stop then none
  else
    ((List.range' 1 (2 * 1440)).find? fun step =>
        w.inside ((nowMin + step) % 1440) (weekdayAfter weekday (nowMin + step)) !=
          w.active nowMin weekday).map
      fun step => max (step * 60 - secInMin) 1

end PlainWindow

/-- The window as the engine reads it. -/
def TimeWindow.parsed (w : TimeWindow) : PlainWindow :=
  ⟨parseHhmm w.start, parseHhmm w.stop, w.days⟩

/-- The window as it is written. -/
def TimeWindow.written (w : TimeWindow) : PlainWindow :=
  ⟨writtenMinute w.start, writtenMinute w.stop, w.days⟩

/-- The ends are read as they are written, and the window is active and changes
when the written one is and does. -/
structure ReadsExactly (w : TimeWindow) : Prop where
  start : parseHhmm w.start = writtenMinute w.start
  stop : parseHhmm w.stop = writtenMinute w.stop
  active : ∀ nowMin weekday, inWindow w nowMin weekday = w.written.active nowMin weekday
  edge : ∀ nowMin weekday secInMin,
    windowEdgeSecs w nowMin weekday secInMin = w.written.edgeSecs nowMin weekday secInMin

/-! ## The engine on the parsed ends -/

theorem inWindow_eq_active (w : TimeWindow) (nowMin weekday : Nat) :
    inWindow w nowMin weekday = w.parsed.active nowMin weekday := by
  by_cases hends : parseHhmm w.start = parseHhmm w.stop
  · have heq : decide (w.parsed.start ≠ w.parsed.stop) = false := decide_eq_false (not_not.mpr hends)
    rw [PlainWindow.active, heq, Bool.false_and]
    exact if_pos hends
  · have hne : decide (w.parsed.start ≠ w.parsed.stop) = true := decide_eq_true hends
    rw [← insideAt_eq hends, PlainWindow.active, hne, Bool.true_and]
    rfl

theorem windowEdgeSecs_eq_edgeSecs (w : TimeWindow) (nowMin weekday secInMin : Nat) :
    windowEdgeSecs w nowMin weekday secInMin = w.parsed.edgeSecs nowMin weekday secInMin := by
  unfold windowEdgeSecs PlainWindow.edgeSecs
  by_cases hends : parseHhmm w.start = parseHhmm w.stop
  · rw [if_pos hends]
    exact (if_pos hends).symm
  · have hparsed : ¬ w.parsed.start = w.parsed.stop := hends
    rw [if_neg hends, if_neg hparsed, inWindow_eq_active]
    rfl

/-! ## Reading a time -/

/-- The parsed minute is the written one up to a wrap. -/
theorem parseHhmm_eq_mod (s : String) : parseHhmm s = writtenMinute s % 2 ^ 32 := by
  unfold parseHhmm writtenMinute
  cases splitOnce ':' s.toList with
  | none => rfl
  | some p => rw [Option.elim_some, Nat.mul_comm 60]; rfl

theorem parseHhmm_eq_written_iff (s : String) :
    parseHhmm s = writtenMinute s ↔ writtenMinute s < 2 ^ 32 := by
  rw [parseHhmm_eq_mod]
  exact Nat.mod_eq_iff_lt (by decide)

/-- **A window is read exactly** when both of its times fit. -/
theorem readsExactly_iff (w : TimeWindow) :
    ReadsExactly w ↔ writtenMinute w.start < 2 ^ 32 ∧ writtenMinute w.stop < 2 ^ 32 := by
  rw [← parseHhmm_eq_written_iff, ← parseHhmm_eq_written_iff]
  constructor
  · intro h
    exact ⟨h.start, h.stop⟩
  · rintro ⟨hstart, hstop⟩
    have hparsed : w.parsed = w.written := by
      rw [TimeWindow.parsed, TimeWindow.written, hstart, hstop]
    exact ⟨hstart, hstop, fun nowMin weekday => hparsed ▸ inWindow_eq_active w nowMin weekday,
      fun nowMin weekday secInMin => hparsed ▸ windowEdgeSecs_eq_edgeSecs w nowMin weekday secInMin⟩

/-- A window from hour 71582797 that the engine takes for one from 9 to 10. -/
def impossibleWindow : TimeWindow := ⟨"71582797:16", "71582798:16", []⟩

theorem not_readsExactly : ¬ ∀ w, ReadsExactly w := by
  intro h
  have hactive := (h impossibleWindow).active 570 1
  revert hactive
  decide +kernel

end Ningshi
