import Ningshi.Clock

/-!
# The offset a timezone setting stands for

The settings that are documented are `UTC`, `UTC+N` and `UTC-N`, and everything
else is meant to be UTC.  `parse_tz` hands whatever follows `UTC` to the integer
parser, which also takes a numeral without a sign, and multiplies in `i32`.
`exactOrUtc_iff` says which settings are read as documented, without an overflow
on the way.
-/

namespace Ningshi

open RustStr

/-- `UTC`, `UTC+N` or `UTC-N` with less than 24 hours, and the hours it names. -/
inductive NamesOffset : List Char → Int → Prop
  | utc : NamesOffset ['U', 'T', 'C'] 0
  | east {digits : List Char} {n : Nat} (hdigits : digitsValue digits = some n) (hn : n < 24) :
      NamesOffset ('U' :: 'T' :: 'C' :: '+' :: digits) n
  | west {digits : List Char} {n : Nat} (hdigits : digitsValue digits = some n) (hn : n < 24) :
      NamesOffset ('U' :: 'T' :: 'C' :: '-' :: digits) (-n)

/-- The parts of the instant that is `hours` later, read as UTC. -/
def shiftedParts (epoch : Nat) (hours : Int) : NowParts where
  epoch := epoch
  nowMin := ((epoch + 3600 * hours) % 86400 / 60).toNat
  date := (epoch + 3600 * hours) / 86400
  weekday := (((epoch + 3600 * hours) / 86400 + 3) % 7).toNat + 1

/-- The hour count that `parse_tz` multiplies, if it gets to that. -/
def hourCount (value : String) : Option Int :=
  (stripPrefix ['U', 'T', 'C'] (trim value.toList)).bind (parseSigned (2 ^ 31))

/-- A setting is read as documented at an instant. -/
structure ExactOrUtc (value : String) (epoch : Nat) : Prop where
  named : ∀ hours, NamesOffset (trim value.toList) hours →
    nowParts (parseTz value) epoch = shiftedParts epoch hours
  other : (∀ hours, ¬ NamesOffset (trim value.toList) hours) →
    nowParts (parseTz value) epoch = shiftedParts epoch 0
  /-- the product fits an `i32` -/
  fits : ∀ n, hourCount value = some n → -2 ^ 31 ≤ n * 3600 ∧ n * 3600 < 2 ^ 31

/-- The settings without a slip: what follows `UTC` is no numeral from 1 to 23
without a sign, and no numeral so large that its product overflows. -/
structure SoundOffset (value : String) : Prop where
  signed : ∀ digits n, trim value.toList = 'U' :: 'T' :: 'C' :: digits →
    digitsValue digits = some n → n = 0 ∨ 24 ≤ n
  small : ∀ n, hourCount value = some n → n.natAbs ≤ 596523

/-! ## How `parse_tz` reads a setting -/

section Reading

variable {value : String} {digits : List Char} {epoch : Nat} {hours n : Int}

theorem hourCount_eq_some_iff :
    hourCount value = some n ↔ ∃ digits, trim value.toList = 'U' :: 'T' :: 'C' :: digits ∧
      parseSigned (2 ^ 31) digits = some n := by
  unfold hourCount
  rw [Option.bind_eq_some_iff]
  simp only [stripPrefix_eq_some_iff]
  rfl

/-- The parts at an offset of whole hours, less than a day. -/
theorem nowParts_hours (hlow : -24 < hours) (hhigh : hours < 24) :
    nowParts (some (3600 * hours)) epoch = shiftedParts epoch hours := by
  have heast : eastOpt (3600 * hours) = some (3600 * hours) :=
    if_pos ⟨by omega, by omega⟩
  simp only [nowParts, shiftedParts, localSecs, offsetSecs, Option.getD_some, heast]

/-- An offset of a day or more counts as none. -/
theorem nowParts_far (hfar : hours ≤ -24 ∨ 24 ≤ hours) :
    nowParts (some (3600 * hours)) epoch = shiftedParts epoch 0 := by
  have heast : eastOpt (3600 * hours) = none := if_neg (by omega)
  simp [nowParts, shiftedParts, localSecs, offsetSecs, heast]

theorem nowParts_none : nowParts none epoch = shiftedParts epoch 0 := by
  have heast : eastOpt 0 = some 0 := rfl
  simp [nowParts, shiftedParts, localSecs, offsetSecs, heast]

/-- Another offset gives another time of day. -/
theorem shiftedParts_ne (hpos : 0 < hours) (hlt : hours < 24) :
    shiftedParts epoch hours ≠ shiftedParts epoch 0 := by
  intro h
  have hmin := congrArg NowParts.nowMin h
  simp only [shiftedParts] at hmin
  omega

/-- Anything but `UTC` itself is read as a product. -/
theorem parseTz_eq_map (hne : trim value.toList ≠ ['U', 'T', 'C']) :
    parseTz value = (hourCount value).map fun n => (n * 3600).bmod (2 ^ 32) := by
  rw [hourCount, Option.map_bind]
  exact if_neg hne

/-- Without an overflow the offset is the product. -/
theorem parseTz_of_hourCount (hcount : hourCount value = some n) (hsmall : n.natAbs ≤ 596523) :
    parseTz value = some (3600 * n) := by
  have hne : trim value.toList ≠ ['U', 'T', 'C'] := by
    intro heq
    obtain ⟨digits, htrim, hdigits⟩ := hourCount_eq_some_iff.mp hcount
    rw [heq] at htrim
    obtain rfl : [] = digits := by simpa using htrim
    cases hdigits
  have hproduct : (n * 3600).bmod (2 ^ 32) = 3600 * n := by
    rw [Int.bmod_def]
    split_ifs <;> omega
  rw [parseTz_eq_map hne, hcount, Option.map_some, hproduct]

/-- A named offset other than `UTC` itself is the hour count. -/
theorem hourCount_of_namesOffset (h : NamesOffset (trim value.toList) hours)
    (hne : trim value.toList ≠ ['U', 'T', 'C']) :
    hourCount value = some hours ∧ -24 < hours ∧ hours < 24 := by
  rw [hourCount_eq_some_iff]
  generalize trim value.toList = v at h hne
  cases h with
  | utc => exact absurd rfl hne
  | @east digits n hdigits hn =>
      refine ⟨⟨_, rfl, parseSigned_eq_some_iff.mpr (.inr (.inl ⟨digits, n, rfl, hdigits, ?_, rfl⟩))⟩,
        ?_, ?_⟩ <;> omega
  | @west digits n hdigits hn =>
      refine ⟨⟨_, rfl, parseSigned_eq_some_iff.mpr (.inl ⟨digits, n, rfl, hdigits, ?_, rfl⟩)⟩,
        ?_, ?_⟩ <;> omega

/-- A numeral without a sign names no offset. -/
theorem not_namesOffset_of_digits (htrim : trim value.toList = 'U' :: 'T' :: 'C' :: digits)
    {k : Nat} (hdigits : digitsValue digits = some k) :
    ¬ NamesOffset (trim value.toList) hours := by
  intro h
  rw [htrim] at h
  cases h with
  | utc => cases hdigits
  | east => exact absurd (isDigit_of_digitsValue hdigits) (by decide)
  | west => exact absurd (isDigit_of_digitsValue hdigits) (by decide)

/-- **What a setting names is what the clock shows.** -/
theorem nowParts_of_namesOffset (h : NamesOffset (trim value.toList) hours) :
    nowParts (parseTz value) epoch = shiftedParts epoch hours := by
  by_cases hutc : trim value.toList = ['U', 'T', 'C']
  · have hzero : hours = 0 := by
      rw [hutc] at h
      cases h
      rfl
    rw [hzero]
    have hparse : parseTz value = some (3600 * 0) := if_pos hutc
    rw [hparse]
    exact nowParts_hours (by decide) (by decide)
  · obtain ⟨hcount, hlow, hhigh⟩ := hourCount_of_namesOffset h hutc
    rw [parseTz_of_hourCount hcount (by omega)]
    exact nowParts_hours hlow hhigh

/-- An hour count that no setting names is none, or a day or more. -/
theorem hourCount_unnamed (hsound : SoundOffset value)
    (hunnamed : ∀ hours, ¬ NamesOffset (trim value.toList) hours)
    (hcount : hourCount value = some n) : n = 0 ∨ n ≤ -24 ∨ 24 ≤ n := by
  obtain ⟨digits, htrim, hdigits⟩ := hourCount_eq_some_iff.mp hcount
  rcases parseSigned_eq_some_iff.mp hdigits with
    ⟨numeral, k, rfl, hk, -, rfl⟩ | ⟨numeral, k, rfl, hk, -, rfl⟩ | ⟨k, hk, -, rfl⟩
  · have hfar : ¬ k < 24 := by
      intro hlt
      refine hunnamed (-k) ?_
      rw [htrim]
      exact .west hk hlt
    omega
  · have hfar : ¬ k < 24 := by
      intro hlt
      refine hunnamed k ?_
      rw [htrim]
      exact .east hk hlt
    omega
  · have hsigned := hsound.signed digits k htrim hk
    omega

/-- **Every other setting is UTC**, unless there is a slip. -/
theorem nowParts_of_unnamed (hsound : SoundOffset value)
    (hunnamed : ∀ hours, ¬ NamesOffset (trim value.toList) hours) :
    nowParts (parseTz value) epoch = shiftedParts epoch 0 := by
  have hne : trim value.toList ≠ ['U', 'T', 'C'] := fun heq => hunnamed 0 (heq ▸ .utc)
  cases hcount : hourCount value with
  | none =>
      rw [parseTz_eq_map hne, hcount]
      exact nowParts_none
  | some n =>
      rw [parseTz_of_hourCount hcount (hsound.small n hcount)]
      rcases hourCount_unnamed hsound hunnamed hcount with rfl | hfar
      · exact nowParts_hours (by decide) (by decide)
      · exact nowParts_far hfar

/-- A numeral from 1 to 23 without a sign shifts the clock all the same. -/
theorem nowParts_of_digits (htrim : trim value.toList = 'U' :: 'T' :: 'C' :: digits)
    {k : Nat} (hdigits : digitsValue digits = some k) (hk : k < 24) :
    nowParts (parseTz value) epoch = shiftedParts epoch k := by
  have hcount : hourCount value = some k := by
    refine hourCount_eq_some_iff.mpr ⟨digits, htrim, ?_⟩
    exact parseSigned_eq_some_iff.mpr (.inr (.inr ⟨k, hdigits, by omega, rfl⟩))
  rw [parseTz_of_hourCount hcount (by omega)]
  exact nowParts_hours (by omega) (by omega)

end Reading

/-! ## The settings that are read as documented -/

/-- **A setting is exact or UTC**, without an overflow, exactly when it is not
one of the two kinds that slip through. -/
theorem exactOrUtc_iff (value : String) (epoch : Nat) :
    ExactOrUtc value epoch ↔ SoundOffset value := by
  constructor
  · intro h
    refine ⟨fun digits k htrim hdigits => ?_, fun n hcount => ?_⟩
    · by_contra hk
      push Not at hk
      have hshown : nowParts (parseTz value) epoch = shiftedParts epoch k :=
        nowParts_of_digits htrim hdigits hk.2
      rw [h.other fun _ => not_namesOffset_of_digits htrim hdigits] at hshown
      exact shiftedParts_ne (by omega) (by omega) hshown.symm
    · have hfits := h.fits n hcount
      omega
  · intro hsound
    refine ⟨fun hours => nowParts_of_namesOffset, nowParts_of_unnamed hsound, fun n hcount => ?_⟩
    have hsmall := hsound.small n hcount
    omega

/-- `UTC5` is not documented, and shifts the clock by five hours. -/
theorem not_exactOrUtc : ¬ ∀ value epoch, ExactOrUtc value epoch := by
  intro h
  have htrim : trim "UTC5".toList = ['U', 'T', 'C', '5'] := by decide
  have hdigits : digitsValue ['5'] = some 5 := by decide
  have hshown : nowParts (parseTz "UTC5") 0 = shiftedParts 0 5 :=
    nowParts_of_digits htrim hdigits (by decide)
  rw [(h "UTC5" 0).other fun _ => not_namesOffset_of_digits htrim hdigits] at hshown
  exact shiftedParts_ne (by decide) (by decide) hshown.symm

-- An overflow can look like an offset: this one is 31 minutes and 44 seconds.
example : parseTz "UTC+1193047" = some 1904 := by decide

end Ningshi
