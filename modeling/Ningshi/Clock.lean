import Ningshi.Lib.Calendar
import Ningshi.Lib.RustStr

/-!
# Local time: `parse_tz` and `now_parts`

The daemon keeps a fixed offset east of UTC in seconds.  `parseTz` reads it
from the timezone setting in `i32` arithmetic, so an hour count whose product
with 3600 does not fit wraps around.  `nowParts` splits a clock reading into
the epoch second and the local minute, date and weekday.  A date is a day
number (`Calendar`); seconds since the epoch are never negative.

The lemmas below describe how the parts move: they are functions of the local
minute count, and `nowParts_of_localMinute_add` says what they are some
minutes later.
-/

namespace Ningshi

/-- Parse the timezone setting: `UTC` or `UTC` followed by a signed hour count. -/
def parseTz (value : String) : Option Int :=
  let v := RustStr.trim value.toList
  if v = ['U', 'T', 'C'] then some 0
  else
    (RustStr.stripPrefix ['U', 'T', 'C'] v).bind fun hours =>
      (RustStr.parseSigned (2 ^ 31) hours).map fun n => (n * 3600).bmod (2 ^ 32)

/-- `FixedOffset::east_opt`: offsets of less than a day. -/
def eastOpt (secs : Int) : Option Int :=
  if -86400 < secs ∧ secs < 86400 then some secs else none

/-- The offset `now_parts` works with. -/
def offsetSecs (tzSecs : Option Int) : Int := (eastOpt (tzSecs.getD 0)).getD 0

/-- The parts of a clock reading. -/
structure NowParts where
  epoch : Nat
  nowMin : Nat
  date : Int
  weekday : Nat
  deriving DecidableEq

/-- Seconds of local time. -/
def localSecs (tzSecs : Option Int) (epoch : Nat) : Int := epoch + offsetSecs tzSecs

/-- Epoch seconds, minute of day, date and ISO weekday (1 = Monday) in the
configured timezone.  1970-01-01 was a Thursday. -/
def nowParts (tzSecs : Option Int) (epoch : Nat) : NowParts where
  epoch := epoch
  nowMin := (localSecs tzSecs epoch % 86400 / 60).toNat
  date := localSecs tzSecs epoch / 86400
  weekday := ((localSecs tzSecs epoch / 86400 + 3) % 7).toNat + 1

/-- The local date of a clock reading. -/
abbrev localDate (tzSecs : Option Int) (epoch : Nat) : Int := (nowParts tzSecs epoch).date

/-- Minutes of local time. -/
def localMinute (tzSecs : Option Int) (epoch : Nat) : Int := localSecs tzSecs epoch / 60

variable (tzSecs : Option Int) (epoch : Nat)

@[simp] theorem nowParts_epoch : (nowParts tzSecs epoch).epoch = epoch := rfl

theorem offsetSecs_bounds : -86400 < offsetSecs tzSecs ∧ offsetSecs tzSecs < 86400 := by
  unfold offsetSecs eastOpt
  split_ifs with h
  · exact h
  · decide

theorem nowMin_lt : (nowParts tzSecs epoch).nowMin < 1440 := by
  simp only [nowParts]
  omega

theorem weekday_bounds :
    1 ≤ (nowParts tzSecs epoch).weekday ∧ (nowParts tzSecs epoch).weekday ≤ 7 := by
  simp only [nowParts]
  omega

/-- A local date is at most one day before the epoch. -/
theorem neg_one_le_localDate : -1 ≤ localDate tzSecs epoch := by
  have hoff := (offsetSecs_bounds tzSecs).1
  simp only [localDate, nowParts, localSecs]
  omega

theorem nowMin_eq_localMinute :
    ((nowParts tzSecs epoch).nowMin : Int) = localMinute tzSecs epoch % 1440 := by
  simp only [nowParts, localMinute]
  omega

theorem date_eq_localMinute :
    (nowParts tzSecs epoch).date = localMinute tzSecs epoch / 1440 := by
  simp only [nowParts, localMinute]
  omega

theorem weekday_eq_date :
    ((nowParts tzSecs epoch).weekday : Int) = ((nowParts tzSecs epoch).date + 3) % 7 + 1 := by
  simp only [nowParts]
  omega

/-- What the parts of the clock are `step` minutes later. -/
theorem nowParts_of_localMinute_add {later step : Nat}
    (h : localMinute tzSecs later = localMinute tzSecs epoch + step) :
    (nowParts tzSecs later).nowMin = ((nowParts tzSecs epoch).nowMin + step) % 1440 ∧
      (nowParts tzSecs later).weekday =
        ((nowParts tzSecs epoch).weekday - 1 +
          ((nowParts tzSecs epoch).nowMin + step) / 1440) % 7 + 1 ∧
      (nowParts tzSecs later).date =
        (nowParts tzSecs epoch).date + ((nowParts tzSecs epoch).nowMin + step) / 1440 := by
  have hmin := nowMin_eq_localMinute tzSecs epoch
  have hmin' := nowMin_eq_localMinute tzSecs later
  have hdate := date_eq_localMinute tzSecs epoch
  have hdate' := date_eq_localMinute tzSecs later
  have hday := weekday_eq_date tzSecs epoch
  have hday' := weekday_eq_date tzSecs later
  rw [h] at hmin' hdate'
  -- From here on only the local minute counts, and the rest is arithmetic.
  generalize nowParts tzSecs epoch = now at *
  generalize nowParts tzSecs later = now' at *
  refine ⟨by omega, ?_, by omega⟩
  rw [hdate] at hday
  rw [hdate'] at hday'
  omega

/-- The local minute advances with the seconds of the local minute. -/
theorem localMinute_add (d : Nat) :
    localMinute tzSecs (epoch + d) =
      localMinute tzSecs epoch + (localSecs tzSecs epoch % 60 + d) / 60 := by
  simp only [localMinute, localSecs]
  push_cast
  omega

end Ningshi
