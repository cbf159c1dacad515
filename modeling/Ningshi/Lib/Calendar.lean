import Mathlib.Tactic

/-!
# Dates: day numbers, civil dates and their ISO text

A date is the number of days since 1970-01-01 in the proleptic Gregorian
calendar.  `civil` splits it into year, month and day by counting in eras of
400 years that begin on the first of March, so that a leap day is the last day
of its year; `ofCivil` puts the three numbers together again.  `isoText` is the
`YYYY-MM-DD` text of a date.  Text and date determine each other from the
year 0 on (`isoText_inj`).
-/

namespace Calendar

/-- The three numbers of a civil date. -/
structure Civil where
  year : Int
  month : Int
  day : Int
  deriving DecidableEq, Repr

/-- Days from 0000-03-01 to 1970-01-01. -/
def epochShift : Int := 719468

/-- Days of an era of 400 years. -/
def eraDays : Int := 146097

/-- Century within its era; the last one is a day longer. -/
def centuryOfEra (doe : Int) : Int := min (doe / 36524) 3

/-- Four-year cycle within its century. -/
def cycleOfCentury (doe : Int) : Int := (doe - 36524 * centuryOfEra doe) / 1461

/-- Year within its cycle; the last one is a day longer. -/
def yearOfCycle (doe : Int) : Int := min ((doe - 36524 * centuryOfEra doe) % 1461 / 365) 3

/-- Year within its era, from the day within the era. -/
def yearOfEra (doe : Int) : Int :=
  100 * centuryOfEra doe + 4 * cycleOfCentury doe + yearOfCycle doe

/-- First day of a year within its era. -/
def yearStart (yoe : Int) : Int := 365 * yoe + yoe / 4 - yoe / 100

/-- Month counted from March = 0, from the day within the March year. -/
def marchMonth (doy : Int) : Int := (5 * doy + 2) / 153

/-- First day of a month of the March year. -/
def marchMonthStart (mp : Int) : Int := (153 * mp + 2) / 5

/-- The month number of a March-based month. -/
def monthOf (mp : Int) : Int := if mp < 10 then mp + 3 else mp - 9

/-- Split a day number into year, month and day. -/
def civil (date : Int) : Civil :=
  let era := (date + epochShift) / eraDays
  let doe := (date + epochShift) % eraDays
  let yoe := yearOfEra doe
  let doy := doe - yearStart yoe
  let mp := marchMonth doy
  let month := monthOf mp
  -- January and February belong to the March year before
  { year := yoe + era * 400 + (if month ≤ 2 then 1 else 0)
    month := month
    day := doy - marchMonthStart mp + 1 }

/-- Put year, month and day together. -/
def ofCivil (c : Civil) : Int :=
  let y := if c.month ≤ 2 then c.year - 1 else c.year
  let mp := if c.month ≤ 2 then c.month + 9 else c.month - 3
  y / 400 * eraDays + (yearStart (y % 400) + (marchMonthStart mp + c.day - 1)) - epochShift

section YearOfEra

variable {doe : Int}

theorem centuryOfEra_bounds (h0 : 0 ≤ doe) : 0 ≤ centuryOfEra doe ∧ centuryOfEra doe ≤ 3 := by
  unfold centuryOfEra
  omega

theorem yearOfCycle_bounds (doe : Int) : 0 ≤ yearOfCycle doe ∧ yearOfCycle doe ≤ 3 := by
  unfold yearOfCycle
  omega

variable (h0 : 0 ≤ doe) (h1 : doe < eraDays)
include h0 h1

theorem cycleOfCentury_bounds : 0 ≤ cycleOfCentury doe ∧ cycleOfCentury doe ≤ 24 := by
  unfold cycleOfCentury centuryOfEra eraDays at *
  omega

theorem yearOfEra_bounds : 0 ≤ yearOfEra doe ∧ yearOfEra doe < 400 := by
  have hcentury := centuryOfEra_bounds h0
  have hcycle := cycleOfCentury_bounds h0 h1
  have hyear := yearOfCycle_bounds doe
  unfold yearOfEra
  omega

/-- The leap rule is linear in the century, the cycle and the year. -/
theorem yearStart_yearOfEra : yearStart (yearOfEra doe) =
    36524 * centuryOfEra doe + 1461 * cycleOfCentury doe + 365 * yearOfCycle doe := by
  have hcentury := centuryOfEra_bounds h0
  have hcycle := cycleOfCentury_bounds h0 h1
  have hyear := yearOfCycle_bounds doe
  unfold yearStart yearOfEra
  omega

theorem dayOfYear_bounds :
    0 ≤ doe - yearStart (yearOfEra doe) ∧ doe - yearStart (yearOfEra doe) ≤ 365 := by
  rw [yearStart_yearOfEra h0 h1]
  unfold cycleOfCentury yearOfCycle centuryOfEra eraDays at *
  omega

end YearOfEra

theorem marchMonth_bounds {doy : Int} (h0 : 0 ≤ doy) (h1 : doy ≤ 365) :
    0 ≤ marchMonth doy ∧ marchMonth doy < 12 := by
  unfold marchMonth
  omega

theorem dayOfMonth_nonneg (doy : Int) : 0 ≤ doy - marchMonthStart (marchMonth doy) := by
  unfold marchMonthStart marchMonth
  omega

/-- A civil date built from a March year and month is put together again. -/
theorem ofCivil_marchDate {era yoe mp d : Int} (hyoe : 0 ≤ yoe ∧ yoe < 400)
    (hmp : 0 ≤ mp ∧ mp < 12) :
    ofCivil ⟨yoe + era * 400 + (if monthOf mp ≤ 2 then 1 else 0), monthOf mp, d⟩ =
      era * eraDays + (yearStart yoe + (marchMonthStart mp + d - 1)) - epochShift := by
  have hdiv : (yoe + era * 400) / 400 = era := by omega
  have hmod : (yoe + era * 400) % 400 = yoe := by omega
  by_cases hlate : mp < 10
  · have hmonth : monthOf mp = mp + 3 := if_pos hlate
    have hnot : ¬ monthOf mp ≤ 2 := by omega
    simp only [ofCivil, if_neg hnot, add_zero, hdiv, hmod]
    rw [hmonth, add_sub_cancel_right]
  · have hmonth : monthOf mp = mp - 9 := if_neg hlate
    have hle : monthOf mp ≤ 2 := by omega
    simp only [ofCivil, if_pos hle, add_sub_cancel_right, hdiv, hmod]
    rw [hmonth, sub_add_cancel]

/-- Splitting loses nothing. -/
theorem ofCivil_civil (date : Int) : ofCivil (civil date) = date := by
  have hdoe0 : 0 ≤ (date + epochShift) % eraDays := Int.emod_nonneg _ (by decide)
  have hdoe1 : (date + epochShift) % eraDays < eraDays := Int.emod_lt_of_pos _ (by decide)
  have hsplit : eraDays * ((date + epochShift) / eraDays) + (date + epochShift) % eraDays =
      date + epochShift := Int.mul_ediv_add_emod _ _
  obtain ⟨hdoy0, hdoy1⟩ := dayOfYear_bounds hdoe0 hdoe1
  refine (ofCivil_marchDate (yearOfEra_bounds hdoe0 hdoe1)
    (marchMonth_bounds hdoy0 hdoy1)).trans ?_
  rw [mul_comm] at hsplit
  omega

/-- Dates with the same civil date are the same date. -/
theorem civil_injective : Function.Injective civil := by
  intro a b h
  rw [← ofCivil_civil a, h, ofCivil_civil]

theorem civil_month_nonneg (date : Int) : 0 ≤ (civil date).month := by
  have hdoe0 : 0 ≤ (date + epochShift) % eraDays := Int.emod_nonneg _ (by decide)
  have hdoe1 : (date + epochShift) % eraDays < eraDays := Int.emod_lt_of_pos _ (by decide)
  obtain ⟨hdoy0, hdoy1⟩ := dayOfYear_bounds hdoe0 hdoe1
  obtain ⟨hmp0, hmp1⟩ := marchMonth_bounds hdoy0 hdoy1
  simp only [civil, monthOf]
  split_ifs <;> omega

theorem civil_day_nonneg (date : Int) : 0 ≤ (civil date).day :=
  Int.le_add_one (dayOfMonth_nonneg _)

/-- From 1 March 0000 on the year is not negative. -/
theorem civil_year_nonneg {date : Int} (h : -epochShift ≤ date) : 0 ≤ (civil date).year := by
  have hdoe0 : 0 ≤ (date + epochShift) % eraDays := Int.emod_nonneg _ (by decide)
  have hdoe1 : (date + epochShift) % eraDays < eraDays := Int.emod_lt_of_pos _ (by decide)
  have hyoe := (yearOfEra_bounds hdoe0 hdoe1).1
  have hera : 0 ≤ (date + epochShift) / eraDays :=
    Int.ediv_nonneg (by omega) (by decide)
  simp only [civil]
  split_ifs <;> omega

/-! ## The ISO text of a date -/

/-- Decimal digits, padded with zeroes on the left. -/
def decimal (width n : Nat) : List Char :=
  List.replicate (width - (Nat.toDigits 10 n).length) '0' ++ Nat.toDigits 10 n

/-- The year as `%Y` prints it: four digits, with a sign outside `0 .. 9999`. -/
def yearText (y : Int) : List Char :=
  if y < 0 then '-' :: decimal 4 y.natAbs
  else if 9999 < y then '+' :: decimal 4 y.natAbs
  else decimal 4 y.natAbs

/-- The text `%Y-%m-%d`. -/
def isoText (date : Int) : String :=
  let c := civil date
  String.ofList (yearText c.year ++ '-' :: (decimal 2 c.month.natAbs ++
    '-' :: decimal 2 c.day.natAbs))

theorem isDigit_of_mem_decimal {width n : Nat} {c : Char} (h : c ∈ decimal width n) :
    c.isDigit = true := by
  rcases List.mem_append.mp h with hzero | hdigit
  · rw [List.eq_of_mem_replicate hzero]
    rfl
  · exact Nat.isDigit_of_mem_toDigits (by decide) (by decide) hdigit

theorem decimal_inj {width n n' : Nat} (h : decimal width n = decimal width n') : n = n' := by
  have hvalue (k : Nat) : Nat.ofDigitChars 10 (decimal width k) 0 = k := by
    rw [decimal, Nat.ofDigitChars_append, Nat.ofDigitChars_replicate_zero, Nat.mul_zero,
      Nat.ofDigitChars_ten_toDigits]
  rw [← hvalue n, h, hvalue]

theorem dash_not_mem_decimal (width n : Nat) : '-' ∉ decimal width n := by
  intro h
  have := isDigit_of_mem_decimal h
  revert this
  decide

theorem filter_isDigit_decimal (width n : Nat) :
    (decimal width n).filter Char.isDigit = decimal width n :=
  List.filter_eq_self.mpr fun _ hc => isDigit_of_mem_decimal hc

theorem filter_isDigit_yearText {y : Int} :
    (yearText y).filter Char.isDigit = decimal 4 y.natAbs := by
  have hminus : Char.isDigit '-' = false := by decide
  have hplus : Char.isDigit '+' = false := by decide
  unfold yearText
  split_ifs <;> simp [filter_isDigit_decimal, hminus, hplus]

theorem dash_not_mem_yearText {y : Int} (hy : 0 ≤ y) : '-' ∉ yearText y := by
  unfold yearText
  rw [if_neg (by omega)]
  split_ifs
  · simp [dash_not_mem_decimal]
  · exact dash_not_mem_decimal _ _

/-- Two lists cut at their first separator are equal part by part. -/
private theorem append_sep_inj {α : Type*} {sep : α} {a b x y : List α}
    (ha : sep ∉ a) (hb : sep ∉ b) (h : a ++ sep :: x = b ++ sep :: y) : a = b ∧ x = y := by
  induction a generalizing b with
  | nil =>
      cases b with
      | nil => exact ⟨rfl, (List.cons.inj h).2⟩
      | cons c b =>
          exact absurd ((List.cons.inj h).1 ▸ List.mem_cons_self) hb
  | cons c a ih =>
      cases b with
      | nil => exact absurd ((List.cons.inj h).1 ▸ List.mem_cons_self) ha
      | cons d b =>
          obtain ⟨hcd, hrest⟩ := List.cons.inj h
          obtain ⟨hab, hxy⟩ := ih (fun hm => ha (List.mem_cons_of_mem c hm))
            (fun hm => hb (List.mem_cons_of_mem d hm)) hrest
          exact ⟨by rw [hcd, hab], hxy⟩

/-- **The ISO text identifies the date**, from 1 March 0000 on. -/
theorem isoText_inj {a b : Int} (ha : -epochShift ≤ a) (hb : -epochShift ≤ b) :
    isoText a = isoText b ↔ a = b := by
  refine ⟨fun h => civil_injective ?_, fun h => h ▸ rfl⟩
  have hlist := String.ofList_injective h
  -- The years are not negative, so the first dash ends the year.
  obtain ⟨hyear, hrest⟩ := append_sep_inj (dash_not_mem_yearText (civil_year_nonneg ha))
    (dash_not_mem_yearText (civil_year_nonneg hb)) hlist
  obtain ⟨hmonth, hday⟩ := append_sep_inj (dash_not_mem_decimal _ _)
    (dash_not_mem_decimal _ _) hrest
  have hyear' := congrArg (List.filter Char.isDigit) hyear
  rw [filter_isDigit_yearText, filter_isDigit_yearText] at hyear'
  have hy := decimal_inj hyear'
  have hm := decimal_inj hmonth
  have hd := decimal_inj hday
  have ha0 := civil_year_nonneg ha
  have hb0 := civil_year_nonneg hb
  have ham := civil_month_nonneg a
  have hbm := civil_month_nonneg b
  have had := civil_day_nonneg a
  have hbd := civil_day_nonneg b
  rcases hca : civil a with ⟨ya, ma, da⟩
  rcases hcb : civil b with ⟨yb, mb, db⟩
  simp only [hca, hcb] at hy hm hd ha0 hb0 ham hbm had hbd
  rw [Civil.mk.injEq]
  omega

example : isoText 19000 = "2022-01-08" := by decide +kernel

end Calendar
