import Mathlib.Data.Nat.ModEq
import Mathlib.Order.Interval.Set.Basic
import Ningshi.Window

/-!
# A window is one weekly interval for each of its days

`in_window` decides by cases: within a day, before midnight on the day a window
starts, and after midnight on the day that follows.  Counted in minutes of the
week these are one half-open interval for each weekday the window starts on,
read modulo a week.  `inWindow_iff_week` says so.
-/

namespace Ningshi

open Set

/-- Minutes since Monday 0:00. -/
def weekMinute (weekday minute : Nat) : Nat := (weekday - 1) * 1440 + minute

/-- The end of a window, in minutes from 0:00 of the day it starts on. -/
def TimeWindow.stopMinute (w : TimeWindow) : Nat :=
  if parseHhmm w.start < parseHhmm w.stop then parseHhmm w.stop else parseHhmm w.stop + 1440

/-- The minutes of the occurrence that starts on this weekday; the one of
Sunday may run past the end of the week. -/
def TimeWindow.occurrence (w : TimeWindow) (weekday : Nat) : Set Nat :=
  Ico (weekMinute weekday (parseHhmm w.start)) (weekMinute weekday w.stopMinute)

/-- Does the window start on this weekday? -/
def TimeWindow.StartsOn (w : TimeWindow) (weekday : UInt8) : Prop :=
  w.days = [] ∨ weekday ∈ w.days

/-! ## Weekdays -/

theorem daysAllow_iff (days : List UInt8) (weekday : UInt8) :
    daysAllow days weekday.toNat = true ↔ days = [] ∨ weekday ∈ days := by
  simp [daysAllow, UInt8.toNat_inj]

/-- Allowed weekdays, by their number. -/
theorem TimeWindow.dayAllowed_iff (w : TimeWindow) {weekday : Nat} (hd : weekday ≤ 7) :
    dayAllowed w weekday = true ↔ ∃ d : UInt8, d.toNat = weekday ∧ w.StartsOn d := by
  have hround : (UInt8.ofNat weekday).toNat = weekday :=
    UInt8.toNat_ofNat_of_lt' (Nat.lt_of_le_of_lt hd (by decide))
  constructor
  · intro h
    refine ⟨.ofNat weekday, hround, (daysAllow_iff _ _).mp ?_⟩
    rwa [hround]
  · rintro ⟨d, rfl, hstarts⟩
    exact (daysAllow_iff _ _).mpr hstarts

theorem prevWeekday_mem {weekday : Nat} (h : weekday ∈ Icc 1 7) :
    prevWeekday weekday ∈ Icc 1 7 := by
  simp only [prevWeekday, mem_Icc] at h ⊢
  split_ifs <;> omega

/-! ## The cases of the code -/

/-- A minute of a week is met again only in the week after. -/
theorem weekMinute_modEq {weekday minute y : Nat} (hm : minute < 1440) (hw : weekday ∈ Icc 1 7)
    (hy : y < 2 * 10080) (hmod : y ≡ weekMinute weekday minute [MOD 10080]) :
    y = weekMinute weekday minute ∨ y = weekMinute weekday minute + 10080 := by
  simp only [Nat.ModEq, weekMinute, mem_Icc] at hmod hw ⊢
  omega

/-- Within a day. -/
theorem occurrence_sameDay {w : TimeWindow} (hlt : parseHhmm w.start < parseHhmm w.stop)
    (hstop : parseHhmm w.stop ≤ 1440) {d weekday minute : Nat} (hm : minute < 1440)
    (hd : d ∈ Icc 1 7) (hw : weekday ∈ Icc 1 7) :
    (∃ y ∈ w.occurrence d, y ≡ weekMinute weekday minute [MOD 10080]) ↔
      d = weekday ∧ parseHhmm w.start ≤ minute ∧ minute < parseHhmm w.stop := by
  have hmem (y : Nat) : y ∈ w.occurrence d ↔
      (d - 1) * 1440 + parseHhmm w.start ≤ y ∧ y < (d - 1) * 1440 + parseHhmm w.stop := by
    simp [TimeWindow.occurrence, TimeWindow.stopMinute, weekMinute, hlt]
  simp only [mem_Icc] at hd
  constructor
  · rintro ⟨y, hy, hmod⟩
    rw [hmem] at hy
    have hx := weekMinute_modEq hm hw (by omega) hmod
    simp only [mem_Icc] at hw
    simp only [weekMinute] at hx
    omega
  · rintro ⟨rfl, hle, hgt⟩
    refine ⟨weekMinute d minute, (hmem _).mpr ?_, rfl⟩
    simp only [weekMinute]
    omega

/-- Across midnight: the first part on the day itself, the tail on the day
after. -/
theorem occurrence_overnight {w : TimeWindow} (hgt : parseHhmm w.stop < parseHhmm w.start)
    (hstart : parseHhmm w.start ≤ 1440) {d weekday minute : Nat} (hm : minute < 1440)
    (hd : d ∈ Icc 1 7) (hw : weekday ∈ Icc 1 7) :
    (∃ y ∈ w.occurrence d, y ≡ weekMinute weekday minute [MOD 10080]) ↔
      (d = weekday ∧ parseHhmm w.start ≤ minute) ∨
        (d = prevWeekday weekday ∧ minute < parseHhmm w.stop) := by
  have hmem (y : Nat) : y ∈ w.occurrence d ↔
      (d - 1) * 1440 + parseHhmm w.start ≤ y ∧ y < (d - 1) * 1440 + (parseHhmm w.stop + 1440) := by
    simp [TimeWindow.occurrence, TimeWindow.stopMinute, weekMinute, Nat.not_lt_of_lt hgt]
  simp only [mem_Icc] at hd
  constructor
  · rintro ⟨y, hy, hmod⟩
    rw [hmem] at hy
    have hx := weekMinute_modEq hm hw (by omega) hmod
    simp only [mem_Icc] at hw
    simp only [weekMinute] at hx
    simp only [prevWeekday]
    -- the second turn of the week is met by the tail of Sunday only
    obtain hx | hx := hx <;> split_ifs <;> omega
  · simp only [mem_Icc] at hw
    rintro (⟨rfl, hle⟩ | ⟨hprev, hlt⟩)
    · refine ⟨weekMinute d minute, (hmem _).mpr ?_, rfl⟩
      simp only [weekMinute]
      omega
    · by_cases hmon : weekday ≤ 1
      · rw [prevWeekday, if_pos hmon] at hprev
        refine ⟨weekMinute weekday minute + 10080, (hmem _).mpr ?_, by simp [Nat.ModEq]⟩
        simp only [weekMinute]
        omega
      · rw [prevWeekday, if_neg hmon] at hprev
        refine ⟨weekMinute weekday minute, (hmem _).mpr ?_, rfl⟩
        simp only [weekMinute]
        omega

/-! ## The meaning of a window -/

/-- **A window means one weekly interval for each weekday it starts on.** -/
theorem inWindow_iff_week (w : TimeWindow) (hne : parseHhmm w.start ≠ parseHhmm w.stop)
    (hstart : parseHhmm w.start ≤ 1440) (hstop : parseHhmm w.stop ≤ 1440)
    {minute weekday : Nat} (hm : minute < 1440) (hw : weekday ∈ Icc 1 7) :
    inWindow w minute weekday = true ↔
      ∃ d : UInt8, d.toNat ∈ Icc 1 7 ∧ w.StartsOn d ∧
        ∃ y ∈ w.occurrence d.toNat, y ≡ weekMinute weekday minute [MOD 10080] := by
  have hprev := prevWeekday_mem hw
  have hday := w.dayAllowed_iff (mem_Icc.mp hw).2
  have hdayPrev := w.dayAllowed_iff (mem_Icc.mp hprev).2
  obtain hlt | hgt := Nat.lt_or_gt_of_ne hne
  · have hcode : inWindow w minute weekday = true ↔ dayAllowed w weekday = true ∧
        parseHhmm w.start ≤ minute ∧ minute < parseHhmm w.stop := by
      simp [inWindow, hne, hlt]
    rw [hcode, hday]
    constructor
    · rintro ⟨⟨d, rfl, hd⟩, hspan⟩
      exact ⟨d, hw, hd, (occurrence_sameDay hlt hstop hm hw hw).mpr ⟨rfl, hspan⟩⟩
    · rintro ⟨d, hd, hstarts, hocc⟩
      obtain ⟨heq, hspan⟩ := (occurrence_sameDay hlt hstop hm hd hw).mp hocc
      exact ⟨⟨d, heq, hstarts⟩, hspan⟩
  · have hcode : inWindow w minute weekday = true ↔
        (dayAllowed w weekday = true ∧ parseHhmm w.start ≤ minute) ∨
          (dayAllowed w (prevWeekday weekday) = true ∧ minute < parseHhmm w.stop) := by
      simp only [inWindow, if_neg hne, if_neg (Nat.not_lt_of_lt hgt)]
      -- the two parts of the day do not overlap
      by_cases hle : parseHhmm w.start ≤ minute
      · have hpast : ¬ minute < parseHhmm w.stop := by omega
        simp [hle, hpast]
      · simp [hle, and_comm]
    rw [hcode, hday, hdayPrev]
    constructor
    · rintro (⟨⟨d, heq, hd⟩, hle⟩ | ⟨⟨d, heq, hd⟩, hlt⟩)
      · have hmem : d.toNat ∈ Icc 1 7 := heq ▸ hw
        exact ⟨d, hmem, hd, (occurrence_overnight hgt hstart hm hmem hw).mpr (.inl ⟨heq, hle⟩)⟩
      · have hmem : d.toNat ∈ Icc 1 7 := heq ▸ hprev
        exact ⟨d, hmem, hd, (occurrence_overnight hgt hstart hm hmem hw).mpr (.inr ⟨heq, hlt⟩)⟩
    · rintro ⟨d, hd, hstarts, hocc⟩
      obtain ⟨heq, hle⟩ | ⟨heq, hlt⟩ := (occurrence_overnight hgt hstart hm hd hw).mp hocc
      · exact .inl ⟨⟨d, heq, hstarts⟩, hle⟩
      · exact .inr ⟨⟨d, heq, hstarts⟩, hlt⟩

/-- Monday 1:00 lies in the tail of a window that starts on Sunday. -/
theorem inWindow_iff_week_sunday :
    inWindow ⟨"22:00", "07:00", [7]⟩ 60 1 = true ↔
      ∃ d : UInt8, d.toNat ∈ Icc 1 7 ∧ TimeWindow.StartsOn ⟨"22:00", "07:00", [7]⟩ d ∧
        ∃ y ∈ TimeWindow.occurrence ⟨"22:00", "07:00", [7]⟩ d.toNat,
          y ≡ weekMinute 1 60 [MOD 10080] :=
  inWindow_iff_week _ (by decide) (by decide) (by decide) (by decide) (by simp)

end Ningshi
