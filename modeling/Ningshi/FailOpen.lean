import Ningshi.WeekWindows

/-!
# Windows that match nothing

Detections fail open: what is malformed must not block an app.  Two laws say so
for the time windows of a rule set, and both have an exception.  Dropping the
invalid weekdays of a window can leave an empty set, which means every day, so
that in block mode a window that matched nothing blocks
(`sanitizeFailsOpen_iff`).  A window whose ends coincide is never active but is
still counted when `eval` asks whether there are windows, so that in allow mode
a rule set with such windows only blocks at all times
(`eval_dropDegenerate_iff`).
-/

namespace Ningshi

open Set

/-! ## The stages of the verdict -/

/-- One of the priorities before the time windows decides. -/
def RuleSet.DecidedEarly (rules : RuleSet)
    (extActive overDuration cooldown screenOff : Bool) : Prop :=
  extActive = true ∨ rules.alwaysOn = true ∨ (rules.lockBlock = true ∧ screenOff = true) ∨
    cooldown = true ∨ overDuration = true

/-- The last stage of the verdict. -/
def TimeWindows.blocks (tw : TimeWindows) (nowMin weekday : Nat) : Bool :=
  !tw.windows.isEmpty &&
    if tw.mode == "block" then tw.windows.any fun w => inWindow w nowMin weekday
    else !tw.windows.any fun w => inWindow w nowMin weekday

section Stages

variable {rules : RuleSet} {extActive overDuration cooldown screenOff : Bool}

/-- The windows are not looked at. -/
theorem eval_decided {tw : TimeWindows}
    (h : rules.DecidedEarly extActive overDuration cooldown screenOff) (nowMin weekday : Nat) :
    eval { rules with timeWindows := tw } nowMin weekday
        extActive overDuration cooldown screenOff =
      eval rules nowMin weekday extActive overDuration cooldown screenOff := by
  obtain h | h | ⟨hlock, hscreen⟩ | h | h := h
  · simp [eval, h]
  · simp [eval, h]
  · simp [eval, hlock, hscreen]
  · simp [eval, h]
  · simp [eval, h]

/-- Only the windows decide. -/
theorem eval_undecided (h : ¬ rules.DecidedEarly extActive overDuration cooldown screenOff)
    (tw : TimeWindows) (nowMin weekday : Nat) :
    eval { rules with timeWindows := tw } nowMin weekday
        extActive overDuration cooldown screenOff = tw.blocks nowMin weekday := by
  simp only [RuleSet.DecidedEarly, not_or, Bool.not_eq_true, not_and] at h
  obtain ⟨hext, halways, hlock, hcool, hover⟩ := h
  have hlock' : (rules.lockBlock && screenOff) = false := by
    cases hl : rules.lockBlock with
    | false => rfl
    | true => simp [hlock hl]
  cases hempty : tw.windows.isEmpty <;>
    simp [eval, hext, halways, hlock', hcool, hover, TimeWindows.blocks, inAnyWindow, hempty]

end Stages

/-! ## Sanitized weekdays -/

theorem mem_sanitizeDays {days : List UInt8} {d : UInt8} :
    d ∈ sanitizeDays days ↔ d ∈ days ∧ 1 ≤ d ∧ d ≤ 7 := by
  have hsorted := List.pairwise_insertionSort (· ≤ ·) (days.filter fun d => 1 ≤ d && d ≤ 7)
  rw [sanitizeDays, hsorted.destutter_eq_dedup, List.mem_dedup, List.mem_insertionSort]
  simp

/-- The days of the window are all invalid. -/
def TimeWindow.Emptied (w : TimeWindow) : Prop :=
  w.days ≠ [] ∧ ∀ d ∈ w.days, ¬ (1 ≤ d ∧ d ≤ 7)

/-- Does the window reach this minute of the day, on whatever day? -/
def TimeWindow.Covers (w : TimeWindow) (nowMin : Nat) : Prop :=
  (parseHhmm w.start ≤ nowMin ∧ nowMin < parseHhmm w.stop) ∨
    (parseHhmm w.stop < parseHhmm w.start ∧
      (parseHhmm w.start ≤ nowMin ∨ nowMin < parseHhmm w.stop))

theorem sanitizeDays_eq_nil {days : List UInt8} :
    sanitizeDays days = [] ↔ ∀ d ∈ days, ¬ (1 ≤ d ∧ d ≤ 7) := by
  simp only [List.eq_nil_iff_forall_not_mem, mem_sanitizeDays, not_and]

/-- A set of days that stays a set keeps its meaning on weekdays. -/
theorem daysAllow_sanitizeDays {days : List UInt8}
    (h : days = [] ∨ ∃ d ∈ days, 1 ≤ d ∧ d ≤ 7) {weekday : Nat} (hw : weekday ∈ Icc 1 7) :
    daysAllow (sanitizeDays days) weekday = daysAllow days weekday := by
  obtain rfl | ⟨d, hd, hvalid⟩ := h
  · rfl
  · have hne : days ≠ [] := List.ne_nil_of_mem hd
    have hne' : sanitizeDays days ≠ [] := List.ne_nil_of_mem (mem_sanitizeDays.mpr ⟨hd, hvalid⟩)
    rw [Bool.eq_iff_iff]
    simp only [daysAllow, Bool.or_eq_true, List.isEmpty_iff, hne, hne', false_or, List.any_eq_true,
      beq_iff_eq, mem_sanitizeDays]
    constructor
    · rintro ⟨c, ⟨hc, -⟩, heq⟩
      exact ⟨c, hc, heq⟩
    · rintro ⟨c, hc, heq⟩
      obtain ⟨hlow, hhigh⟩ := mem_Icc.mp hw
      refine ⟨c, ⟨hc, ?_, ?_⟩, heq⟩
      · exact UInt8.le_iff_toNat_le.mpr (by simpa [heq] using hlow)
      · exact UInt8.le_iff_toNat_le.mpr (by simpa [heq] using hhigh)

/-- Invalid days allow no weekday. -/
theorem daysAllow_emptied {w : TimeWindow} (h : w.Emptied) {weekday : Nat}
    (hw : weekday ∈ Icc 1 7) : daysAllow w.days weekday = false := by
  obtain ⟨hne, hinvalid⟩ := h
  obtain ⟨hlow, hhigh⟩ := mem_Icc.mp hw
  have hmiss : ∀ d ∈ w.days, d.toNat ≠ weekday := by
    rintro d hd rfl
    exact hinvalid d hd ⟨UInt8.le_iff_toNat_le.mpr hlow, UInt8.le_iff_toNat_le.mpr hhigh⟩
  simpa [daysAllow, hne] using hmiss

/-! ## Sanitized windows -/

/-- A window whose days are empty or name a weekday keeps its answer. -/
theorem inWindow_sanitize {w : TimeWindow} (h : ¬ w.Emptied) (nowMin : Nat) {weekday : Nat}
    (hw : weekday ∈ Icc 1 7) : inWindow w.sanitize nowMin weekday = inWindow w nowMin weekday := by
  have hdays : w.days = [] ∨ ∃ d ∈ w.days, 1 ≤ d ∧ d ≤ 7 := by
    by_contra hcon
    rw [not_or] at hcon
    exact h ⟨hcon.1, fun d hd hvalid => hcon.2 ⟨d, hd, hvalid⟩⟩
  have hday := daysAllow_sanitizeDays hdays hw
  have hprev := daysAllow_sanitizeDays hdays (prevWeekday_mem hw)
  simp only [inWindow, dayAllowed, TimeWindow.sanitize, hday, hprev]
  rfl

/-- A window with invalid days only is never active. -/
theorem inWindow_emptied {w : TimeWindow} (h : w.Emptied) (nowMin : Nat) {weekday : Nat}
    (hw : weekday ∈ Icc 1 7) : inWindow w nowMin weekday = false := by
  have hday := daysAllow_emptied h hw
  have hprev := daysAllow_emptied h (prevWeekday_mem hw)
  simp [inWindow, dayAllowed, hday, hprev]

/-- Sanitized, it is active on every day. -/
theorem inWindow_sanitize_emptied {w : TimeWindow} (h : w.Emptied) (nowMin weekday : Nat) :
    inWindow w.sanitize nowMin weekday = true ↔ w.Covers nowMin := by
  have hsan : w.sanitize = ⟨w.start, w.stop, []⟩ := by
    rw [TimeWindow.sanitize, sanitizeDays_eq_nil.mpr h.2]
  have hevery (d : Nat) : dayAllowed ⟨w.start, w.stop, []⟩ d = true := rfl
  rw [hsan]
  simp only [inWindow, hevery, TimeWindow.Covers]
  obtain hlt | heq | hgt := Nat.lt_trichotomy (parseHhmm w.start) (parseHhmm w.stop)
  · simp [hlt, Nat.ne_of_lt hlt, Nat.not_lt_of_lt hlt]
  · simp only [heq, if_pos]
    simp
  · simp only [if_neg (Nat.ne_of_gt hgt), if_neg (Nat.not_lt_of_lt hgt)]
    split_ifs <;> simp <;> omega

/-- Sanitizing makes no window inactive. -/
theorem inWindow_le_sanitize {w : TimeWindow} {nowMin weekday : Nat} (hw : weekday ∈ Icc 1 7)
    (h : inWindow w nowMin weekday = true) : inWindow w.sanitize nowMin weekday = true := by
  by_cases hemptied : w.Emptied
  · rw [inWindow_emptied hemptied nowMin hw] at h
    contradiction
  · rwa [inWindow_sanitize hemptied nowMin hw]

/-! ## Sanitizing a rule set -/

/-- What sanitizing may do to a verdict: nothing that was allowed is blocked,
and nothing changes where every window keeps some of its days. -/
def SanitizeFailsOpen (rules : RuleSet) (nowMin weekday : Nat)
    (extActive overDuration cooldown screenOff : Bool) : Prop :=
  (eval rules.sanitize nowMin weekday extActive overDuration cooldown screenOff = true →
      eval rules nowMin weekday extActive overDuration cooldown screenOff = true) ∧
    ((∀ w ∈ rules.timeWindows.windows, w.days = [] ∨ ∃ d ∈ w.days, 1 ≤ d ∧ d ≤ 7) →
      eval rules.sanitize nowMin weekday extActive overDuration cooldown screenOff =
        eval rules nowMin weekday extActive overDuration cooldown screenOff)

section Sanitizing

variable {rules : RuleSet} {extActive overDuration cooldown screenOff : Bool}

/-- Where no window loses all its days, the verdict stays. -/
theorem eval_sanitize (h : ∀ w ∈ rules.timeWindows.windows, ¬ w.Emptied) (nowMin : Nat)
    {weekday : Nat} (hw : weekday ∈ Icc 1 7) :
    eval rules.sanitize nowMin weekday extActive overDuration cooldown screenOff =
      eval rules nowMin weekday extActive overDuration cooldown screenOff := by
  have hany : (rules.timeWindows.windows.any fun w => inWindow w.sanitize nowMin weekday) =
      rules.timeWindows.windows.any fun w => inWindow w nowMin weekday := by
    rw [Bool.eq_iff_iff, List.any_eq_true, List.any_eq_true]
    exact exists_congr fun w => and_congr_right fun hmem => by
      rw [inWindow_sanitize (h w hmem) nowMin hw]
  simp only [eval, RuleSet.sanitize, inAnyWindow, List.any_map, Function.comp_def, hany,
    List.isEmpty_map]

/-- The windows of a sanitized rule set block more only in block mode, through
a window that has lost all its days. -/
theorem blocks_sanitize_iff (tw : TimeWindows) (nowMin : Nat) {weekday : Nat}
    (hw : weekday ∈ Icc 1 7) :
    (({ tw with windows := tw.windows.map TimeWindow.sanitize }).blocks nowMin weekday = true →
        tw.blocks nowMin weekday = true) ↔
      tw.mode ≠ "block" ∨ (∃ w ∈ tw.windows, inWindow w nowMin weekday = true) ∨
        ∀ w ∈ tw.windows, w.Emptied → ¬ w.Covers nowMin := by
  by_cases hmode : tw.mode = "block"
  · have hany (ws : List TimeWindow) : TimeWindows.blocks ⟨tw.mode, ws⟩ nowMin weekday = true ↔
        ∃ w ∈ ws, inWindow w nowMin weekday = true := by
      cases ws <;> simp [TimeWindows.blocks, hmode]
    rw [hany, show tw.blocks nowMin weekday = true ↔ _ from hany tw.windows]
    simp only [List.mem_map, exists_exists_and_eq_and, hmode, ne_eq, not_true_eq_false, false_or]
    constructor
    · intro himp
      by_cases hactive : ∃ w ∈ tw.windows, inWindow w nowMin weekday = true
      · exact .inl hactive
      · refine .inr fun w hmem hemptied hcovers => hactive (himp ⟨w, hmem, ?_⟩)
        exact (inWindow_sanitize_emptied hemptied nowMin weekday).mpr hcovers
    · rintro (hactive | hnone) ⟨w, hmem, hsan⟩
      · exact hactive
      · by_cases hemptied : w.Emptied
        · have hcovers := (inWindow_sanitize_emptied hemptied nowMin weekday).mp hsan
          exact absurd hcovers (hnone w hmem hemptied)
        · exact ⟨w, hmem, by rwa [inWindow_sanitize hemptied nowMin hw] at hsan⟩
  · refine ⟨fun _ => .inl hmode, fun _ hblocks => ?_⟩
    simp only [TimeWindows.blocks, List.isEmpty_map, beq_eq_false_iff_ne.mpr hmode,
      Bool.and_eq_true, Bool.not_eq_true', List.any_eq_false, Bool.false_eq_true, if_false,
      List.forall_mem_map] at hblocks ⊢
    exact ⟨hblocks.1, fun w hmem hactive => hblocks.2 w hmem (inWindow_le_sanitize hw hactive)⟩

/-- **Exactly when sanitizing fails open.** -/
theorem sanitizeFailsOpen_iff (rules : RuleSet) (nowMin : Nat) {weekday : Nat}
    (hw : weekday ∈ Icc 1 7) (extActive overDuration cooldown screenOff : Bool) :
    SanitizeFailsOpen rules nowMin weekday extActive overDuration cooldown screenOff ↔
      rules.DecidedEarly extActive overDuration cooldown screenOff ∨
        rules.timeWindows.mode ≠ "block" ∨
        (∃ w ∈ rules.timeWindows.windows, inWindow w nowMin weekday = true) ∨
        ∀ w ∈ rules.timeWindows.windows, w.Emptied → ¬ w.Covers nowMin := by
  have hkeeps : (∀ w ∈ rules.timeWindows.windows, w.days = [] ∨ ∃ d ∈ w.days, 1 ≤ d ∧ d ≤ 7) →
      eval rules.sanitize nowMin weekday extActive overDuration cooldown screenOff =
        eval rules nowMin weekday extActive overDuration cooldown screenOff := by
    intro hdays
    refine eval_sanitize (fun w hmem hemptied => ?_) nowMin hw
    obtain hnil | ⟨d, hd, hvalid⟩ := hdays w hmem
    · exact hemptied.1 hnil
    · exact hemptied.2 d hd hvalid
  rw [SanitizeFailsOpen, and_iff_left hkeeps]
  by_cases hearly : rules.DecidedEarly extActive overDuration cooldown screenOff
  · rw [RuleSet.sanitize, eval_decided hearly]
    simp [hearly]
  · have hsame : eval rules nowMin weekday extActive overDuration cooldown screenOff =
        rules.timeWindows.blocks nowMin weekday :=
      eval_undecided hearly rules.timeWindows nowMin weekday
    rw [RuleSet.sanitize, eval_undecided hearly, hsame, blocks_sanitize_iff _ _ hw,
      or_iff_right hearly]

end Sanitizing

/-- A block window whose only weekday is 0 blocks nothing, and sanitized it
blocks every day. -/
def RuleSet.weekdayZero : RuleSet :=
  { RuleSet.default with timeWindows := ⟨"block", [⟨"09:00", "10:00", [0]⟩]⟩ }

theorem sanitizeFailsOpen_iff_weekdayZero :
    SanitizeFailsOpen .weekdayZero 0 1 false false false false ↔
      RuleSet.weekdayZero.DecidedEarly false false false false ∨
        RuleSet.weekdayZero.timeWindows.mode ≠ "block" ∨
        (∃ w ∈ RuleSet.weekdayZero.timeWindows.windows, inWindow w 0 1 = true) ∨
        ∀ w ∈ RuleSet.weekdayZero.timeWindows.windows, w.Emptied → ¬ w.Covers 0 :=
  sanitizeFailsOpen_iff _ 0 (by simp) false false false false

theorem not_sanitizeFailsOpen :
    ¬ SanitizeFailsOpen .weekdayZero 540 1 false false false false := by
  intro h
  have hopen : eval RuleSet.weekdayZero 540 1 false false false false = false := by decide
  have hblocked : eval RuleSet.weekdayZero.sanitize 540 1 false false false false = true := by
    decide
  exact Bool.false_ne_true (hopen ▸ h.1 hblocked)

/-! ## Windows without a length -/

/-- The ends of the window coincide, as those of two malformed strings do. -/
def TimeWindow.Degenerate (w : TimeWindow) : Prop := parseHhmm w.start = parseHhmm w.stop

instance (w : TimeWindow) : Decidable w.Degenerate :=
  inferInstanceAs (Decidable (parseHhmm w.start = parseHhmm w.stop))

/-- The windows that can be active. -/
def TimeWindows.dropDegenerate (tw : TimeWindows) : TimeWindows :=
  { tw with windows := tw.windows.filter fun w => ¬ w.Degenerate }

def RuleSet.dropDegenerate (rules : RuleSet) : RuleSet :=
  { rules with timeWindows := rules.timeWindows.dropDegenerate }

@[simp] theorem inWindow_degenerate {w : TimeWindow} (h : w.Degenerate) (nowMin weekday : Nat) :
    inWindow w nowMin weekday = false := by
  unfold inWindow
  exact if_pos h

/-- The same windows are active. -/
theorem any_dropDegenerate (tw : TimeWindows) (nowMin weekday : Nat) :
    (tw.dropDegenerate.windows.any fun w => inWindow w nowMin weekday) =
      tw.windows.any fun w => inWindow w nowMin weekday := by
  rw [Bool.eq_iff_iff, List.any_eq_true, List.any_eq_true]
  refine exists_congr fun w => and_congr_left fun hactive => ?_
  have hkept : ¬ w.Degenerate := by
    intro hdeg
    rw [inWindow_degenerate hdeg] at hactive
    contradiction
  simp [TimeWindows.dropDegenerate, hkept]

/-- What decides is whether any windows are left. -/
theorem blocks_dropDegenerate_iff (tw : TimeWindows) (nowMin weekday : Nat) :
    tw.dropDegenerate.blocks nowMin weekday = tw.blocks nowMin weekday ↔
      tw.mode = "block" ∨ tw.windows = [] ∨ ∃ w ∈ tw.windows, ¬ w.Degenerate := by
  by_cases hleft : ∃ w ∈ tw.windows, ¬ w.Degenerate
  · -- both lists are there, and the same windows are active
    obtain ⟨w, hmem, hw⟩ := hleft
    have hkept : tw.dropDegenerate.windows ≠ [] := by
      refine List.ne_nil_of_mem (a := w) ?_
      simpa [TimeWindows.dropDegenerate, hmem] using hw
    have hwindows : tw.windows ≠ [] := List.ne_nil_of_mem hmem
    have hmode : tw.dropDegenerate.mode = tw.mode := rfl
    have hsame : tw.dropDegenerate.blocks nowMin weekday = tw.blocks nowMin weekday := by
      simp only [TimeWindows.blocks, any_dropDegenerate, hmode, List.isEmpty_eq_false_iff.mpr hkept,
        List.isEmpty_eq_false_iff.mpr hwindows]
    exact iff_of_true hsame (.inr (.inr ⟨w, hmem, hw⟩))
  · have hall : ∀ w ∈ tw.windows, w.Degenerate := fun w hmem => by
      by_contra hw
      exact hleft ⟨w, hmem, hw⟩
    have hnone : tw.dropDegenerate.windows = [] := by
      simpa [TimeWindows.dropDegenerate] using hall
    have hinactive : (tw.windows.any fun w => inWindow w nowMin weekday) = false := by
      rw [List.any_eq_false]
      intro w hmem
      simp [inWindow_degenerate (hall w hmem)]
    simp only [TimeWindows.blocks, hnone, hinactive, hleft, or_false]
    cases hwindows : tw.windows <;> by_cases hmode : tw.mode = "block" <;> simp [hmode]

/-- **Exactly when windows without a length restrict nothing.** -/
theorem eval_dropDegenerate_iff (rules : RuleSet) (nowMin weekday : Nat)
    (extActive overDuration cooldown screenOff : Bool) :
    eval rules.dropDegenerate nowMin weekday extActive overDuration cooldown screenOff =
        eval rules nowMin weekday extActive overDuration cooldown screenOff ↔
      rules.DecidedEarly extActive overDuration cooldown screenOff ∨
        rules.timeWindows.mode = "block" ∨ rules.timeWindows.windows = [] ∨
        ∃ w ∈ rules.timeWindows.windows, ¬ w.Degenerate := by
  by_cases hearly : rules.DecidedEarly extActive overDuration cooldown screenOff
  · exact iff_of_true (eval_decided hearly nowMin weekday) (.inl hearly)
  · have hsame : eval rules nowMin weekday extActive overDuration cooldown screenOff =
        rules.timeWindows.blocks nowMin weekday :=
      eval_undecided hearly rules.timeWindows nowMin weekday
    rw [RuleSet.dropDegenerate, eval_undecided hearly, hsame, blocks_dropDegenerate_iff,
      or_iff_right hearly]

/-- One malformed window in allow mode. -/
def RuleSet.malformedWindow : RuleSet :=
  { RuleSet.default with timeWindows := ⟨"allow", [⟨"", "soon", []⟩]⟩ }

theorem eval_dropDegenerate_ne :
    eval RuleSet.malformedWindow.dropDegenerate 540 1 false false false false ≠
      eval RuleSet.malformedWindow 540 1 false false false false := by
  decide

end Ningshi
