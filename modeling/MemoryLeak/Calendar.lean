import Mathlib.Data.Int.Order.Basic
import Mathlib.Order.Monotone.Basic
import Mathlib.Data.List.Lex

/-!
# The Gregorian calendar

Seconds since the epoch and broken-down times, in zones whose offset does not change.
-/
namespace MemoryLeak.Calendar

/-! ### Years and months -/

def LeapYear (y : ℤ) : Prop := y % 4 = 0 ∧ (y % 100 ≠ 0 ∨ y % 400 = 0)

instance : DecidablePred LeapYear := fun _ => inferInstanceAs (Decidable (_ ∧ _))

/-- The days from 1 January of the year 1 to 1 January of a year. -/
def daysBeforeYear (y : ℤ) : ℤ := 365 * (y - 1) + (y - 1) / 4 - (y - 1) / 100 + (y - 1) / 400

/-- The days of a year before the first of a month, January being 1. -/
def daysBeforeMonth (y m : ℤ) : ℤ :=
  (367 * m - 362) / 12 - if m ≤ 2 then 0 else if LeapYear y then 1 else 2

theorem daysBeforeYear_succ (y : ℤ) :
    daysBeforeYear (y + 1) = daysBeforeYear y + daysBeforeMonth y 13 := by
  unfold daysBeforeYear daysBeforeMonth LeapYear
  split_ifs <;> omega

theorem daysBeforeYear_lt_iff (y y' : ℤ) : daysBeforeYear y < daysBeforeYear y' ↔ y < y' := by
  have hnext : ∀ y, daysBeforeYear y < daysBeforeYear (y + 1) := fun y => by
    unfold daysBeforeYear
    omega
  exact (strictMono_int_of_lt_succ hnext).lt_iff_lt

/-- The year of a day, counted from 1 January of the year 1. -/
def yearOfDay (n : ℤ) : ℤ :=
  let y := 400 * n / 146097 + 1
  if daysBeforeYear (y + 1) ≤ n then y + 1 else y

theorem yearOfDay_spec (n : ℤ) :
    daysBeforeYear (yearOfDay n) ≤ n ∧ n < daysBeforeYear (yearOfDay n + 1) := by
  unfold yearOfDay
  dsimp only
  split_ifs with h
  · refine ⟨h, ?_⟩
    unfold daysBeforeYear
    omega
  · refine ⟨?_, not_le.mp h⟩
    unfold daysBeforeYear
    omega

theorem yearOfDay_unique {n y : ℤ} (h : daysBeforeYear y ≤ n) (h' : n < daysBeforeYear (y + 1)) :
    yearOfDay n = y := by
  obtain ⟨hlow, hhigh⟩ := yearOfDay_spec n
  have hle : yearOfDay n < y + 1 := (daysBeforeYear_lt_iff _ _).mp (hlow.trans_lt h')
  have hge : y < yearOfDay n + 1 := (daysBeforeYear_lt_iff _ _).mp (h.trans_lt hhigh)
  omega

/-- The month of a day of a year, counted from 1 January. -/
def monthOfDay (y d : ℤ) : ℤ :=
  (12 * (d + if d < daysBeforeMonth y 3 then 0 else if LeapYear y then 1 else 2) + 373) / 367

theorem monthOfDay_spec {y d : ℤ} (h : 0 ≤ d) (h' : d < daysBeforeMonth y 13) :
    (1 ≤ monthOfDay y d ∧ monthOfDay y d ≤ 12) ∧
      daysBeforeMonth y (monthOfDay y d) ≤ d ∧ d < daysBeforeMonth y (monthOfDay y d + 1) := by
  unfold monthOfDay daysBeforeMonth at *
  by_cases hleap : LeapYear y
  · simp only [hleap, if_true] at *
    split_ifs at * <;> omega
  · simp only [hleap, if_false] at *
    split_ifs at * <;> omega

theorem daysBeforeMonth_lt_iff (y m m' : ℤ) :
    daysBeforeMonth y m < daysBeforeMonth y m' ↔ m < m' := by
  have hnext : ∀ m, daysBeforeMonth y m < daysBeforeMonth y (m + 1) := fun m => by
    unfold daysBeforeMonth
    split_ifs <;> omega
  exact (strictMono_int_of_lt_succ hnext).lt_iff_lt

theorem daysBeforeMonth_le {y m m' : ℤ} (h : m ≤ m') : daysBeforeMonth y m ≤ daysBeforeMonth y m' :=
  not_lt.mp fun hlt => absurd ((daysBeforeMonth_lt_iff y m' m).mp hlt) (not_lt.mpr h)

theorem monthOfDay_unique {y d m : ℤ} (hm : 1 ≤ m ∧ m ≤ 12) (h : daysBeforeMonth y m ≤ d)
    (h' : d < daysBeforeMonth y (m + 1)) : monthOfDay y d = m := by
  have hfirst : daysBeforeMonth y 1 ≤ daysBeforeMonth y m :=
    daysBeforeMonth_le hm.1
  have hlast : daysBeforeMonth y (m + 1) ≤ daysBeforeMonth y 13 :=
    daysBeforeMonth_le (by omega)
  have hzero : daysBeforeMonth y 1 = 0 := by simp [daysBeforeMonth]
  obtain ⟨_, hlow, hhigh⟩ := monthOfDay_spec (y := y) (d := d) (by omega) (by omega)
  have hle : monthOfDay y d < m + 1 :=
    (daysBeforeMonth_lt_iff _ _ _).mp (hlow.trans_lt h')
  have hge : m < monthOfDay y d + 1 := (daysBeforeMonth_lt_iff _ _ _).mp (h.trans_lt hhigh)
  omega

/-! ### Broken-down times -/

/-- `struct tm`, with the year and the month as they are written. -/
@[ext] structure Tm where
  year : ℤ
  mon : ℤ
  mday : ℤ
  hour : ℤ
  min : ℤ
  sec : ℤ
deriving DecidableEq

/-- A date of the calendar and a time of its day. -/
structure Tm.Valid (tm : Tm) : Prop where
  mon : 1 ≤ tm.mon ∧ tm.mon ≤ 12
  mday : 1 ≤ tm.mday ∧
    tm.mday ≤ daysBeforeMonth tm.year (tm.mon + 1) - daysBeforeMonth tm.year tm.mon
  hour : 0 ≤ tm.hour ∧ tm.hour ≤ 23
  min : 0 ≤ tm.min ∧ tm.min ≤ 59
  sec : 0 ≤ tm.sec ∧ tm.sec ≤ 59

/-- The fields in the order of their weight. -/
def Tm.key (tm : Tm) : List ℤ := [tm.year, tm.mon, tm.mday, tm.hour, tm.min, tm.sec]

/-- The days from 1 January of the year 1. -/
def Tm.day (tm : Tm) : ℤ :=
  daysBeforeYear tm.year + daysBeforeMonth tm.year tm.mon + (tm.mday - 1)

/-- The seconds since the epoch, of which the day is number 719162; fields out of their
range are carried. -/
def timegm (tm : Tm) : ℤ :=
  (tm.day - 719162) * 86400 + tm.hour * 3600 + tm.min * 60 + tm.sec

/-- The fields of a moment; the hour, the minute and the second are those of its day. -/
def gmtime (t : ℤ) : Tm :=
  let n := t / 86400 + 719162
  let year := yearOfDay n
  let yday := n - daysBeforeYear year
  let mon := monthOfDay year yday
  ⟨year, mon, yday - daysBeforeMonth year mon + 1, t % 86400 / 3600, t % 3600 / 60, t % 60⟩

/-- The day of a moment lies in its year, and in its month. -/
theorem gmtime_date (t : ℤ) :
    daysBeforeYear (gmtime t).year ≤ t / 86400 + 719162 ∧
    t / 86400 + 719162 < daysBeforeYear ((gmtime t).year + 1) ∧
    (1 ≤ (gmtime t).mon ∧ (gmtime t).mon ≤ 12) ∧
    daysBeforeMonth (gmtime t).year (gmtime t).mon ≤
      t / 86400 + 719162 - daysBeforeYear (gmtime t).year ∧
    t / 86400 + 719162 - daysBeforeYear (gmtime t).year <
      daysBeforeMonth (gmtime t).year ((gmtime t).mon + 1) := by
  obtain ⟨hlow, hhigh⟩ := yearOfDay_spec (t / 86400 + 719162)
  have hlast := daysBeforeYear_succ (yearOfDay (t / 86400 + 719162))
  exact ⟨hlow, hhigh, monthOfDay_spec (by omega) (by omega)⟩

theorem gmtime_day (t : ℤ) : (gmtime t).day = t / 86400 + 719162 := by
  simp only [Tm.day, gmtime]
  omega

theorem gmtime_valid (t : ℤ) : (gmtime t).Valid := by
  obtain ⟨_, _, hmon, hlow, hhigh⟩ := gmtime_date t
  have hmday : (gmtime t).mday =
      t / 86400 + 719162 - daysBeforeYear (gmtime t).year -
        daysBeforeMonth (gmtime t).year (gmtime t).mon + 1 := rfl
  refine ⟨hmon, ?_, ?_, ?_, ?_⟩
  · omega
  · simp only [gmtime]
    omega
  · simp only [gmtime]
    omega
  · simp only [gmtime]
    omega

theorem timegm_gmtime (t : ℤ) : timegm (gmtime t) = t := by
  rw [timegm, gmtime_day]
  simp only [gmtime]
  omega

theorem gmtime_timegm {tm : Tm} (h : tm.Valid) : gmtime (timegm tm) = tm := by
  obtain ⟨hmon, hmday, hhour, hmin, hsec⟩ := h
  have hday : timegm tm / 86400 + 719162 = tm.day := by
    unfold timegm
    omega
  have hfirst : daysBeforeMonth tm.year 1 ≤ daysBeforeMonth tm.year tm.mon :=
    daysBeforeMonth_le hmon.1
  have hlast : daysBeforeMonth tm.year (tm.mon + 1) ≤ daysBeforeMonth tm.year 13 :=
    daysBeforeMonth_le (by omega)
  have hzero : daysBeforeMonth tm.year 1 = 0 := by simp [daysBeforeMonth]
  have hyear : yearOfDay tm.day = tm.year := by
    refine yearOfDay_unique ?_ ?_
    · unfold Tm.day
      omega
    · rw [daysBeforeYear_succ]
      unfold Tm.day
      omega
  have hmonth : monthOfDay tm.year (tm.day - daysBeforeYear tm.year) = tm.mon := by
    refine monthOfDay_unique hmon ?_ ?_
    · unfold Tm.day
      omega
    · unfold Tm.day
      omega
  ext
  · simp only [gmtime, hday, hyear]
  · simp only [gmtime, hday, hyear, hmonth]
  · simp only [gmtime, hday, hyear, hmonth]
    unfold Tm.day
    omega
  · simp only [gmtime, timegm]
    omega
  · simp only [gmtime, timegm]
    omega
  · simp only [gmtime, timegm]
    omega

example : gmtime 951868799 = ⟨2000, 2, 29, 23, 59, 59⟩ := by decide

/-- A later day has a later date. -/
theorem gmtime_date_lt {t t' : ℤ} (h : t / 86400 < t' / 86400) :
    (gmtime t).year < (gmtime t').year ∨ (gmtime t).year = (gmtime t').year ∧
      ((gmtime t).mon < (gmtime t').mon ∨ (gmtime t).mon = (gmtime t').mon ∧
        (gmtime t).mday < (gmtime t').mday) := by
  obtain ⟨hlow, _, _, hmlow, _⟩ := gmtime_date t
  obtain ⟨_, hhigh, _, _, hmhigh⟩ := gmtime_date t'
  have hday := gmtime_day t
  have hday' := gmtime_day t'
  have hyear : (gmtime t).year < (gmtime t').year + 1 :=
    (daysBeforeYear_lt_iff _ _).mp (by omega)
  rcases Int.lt_or_eq_of_le (Int.lt_add_one_iff.mp hyear) with hlt | heq
  · exact Or.inl hlt
  · rw [heq] at hmlow
    have hmon : (gmtime t).mon < (gmtime t').mon + 1 :=
      (daysBeforeMonth_lt_iff (gmtime t').year _ _).mp (by omega)
    refine Or.inr ⟨heq, ?_⟩
    rcases Int.lt_or_eq_of_le (Int.lt_add_one_iff.mp hmon) with hlt | hmeq
    · exact Or.inl hlt
    · refine Or.inr ⟨hmeq, ?_⟩
      simp only [Tm.day, heq, hmeq] at hday hday'
      omega

/-- The start of a day by its number. -/
def midnight (n : ℤ) : Tm := gmtime ((n - 719162) * 86400)

theorem midnight_valid (n : ℤ) : (midnight n).Valid := gmtime_valid _

@[simp] theorem midnight_day (n : ℤ) : (midnight n).day = n := by
  rw [midnight, gmtime_day]
  omega

theorem midnight_clock (n : ℤ) :
    (midnight n).hour = 0 ∧ (midnight n).min = 0 ∧ (midnight n).sec = 0 := by
  refine ⟨?_, ?_, ?_⟩
  · simp only [midnight, gmtime]
    omega
  · simp only [midnight, gmtime]
    omega
  · simp only [midnight, gmtime]
    omega

/-- Every date is that of a day number. -/
theorem midnight_eq {tm : Tm} (h : tm.Valid) :
    midnight tm.day = { tm with hour := 0, min := 0, sec := 0 } := by
  have hzero : timegm { tm with hour := 0, min := 0, sec := 0 } = (tm.day - 719162) * 86400 := by
    simp only [timegm, Tm.day]
    omega
  have hvalid : Tm.Valid { tm with hour := 0, min := 0, sec := 0 } := by
    constructor
    · exact h.mon
    · exact h.mday
    all_goals
      dsimp only
      omega
  rw [midnight, ← hzero]
  exact gmtime_timegm hvalid

/-- Later moments have later fields. -/
theorem gmtime_key_lt {t t' : ℤ} (h : t < t') : (gmtime t).key < (gmtime t').key := by
  simp only [Tm.key, List.cons_lt_cons_iff]
  rcases lt_or_ge (t / 86400) (t' / 86400) with hday | hday
  · rcases gmtime_date_lt hday with hlt | ⟨heq, hlt | ⟨hmeq, hlt⟩⟩
    · exact Or.inl hlt
    · exact Or.inr ⟨heq, Or.inl hlt⟩
    · exact Or.inr ⟨heq, Or.inr ⟨hmeq, Or.inl hlt⟩⟩
  · have hday : t / 86400 = t' / 86400 := by omega
    refine Or.inr ⟨?_, Or.inr ⟨?_, Or.inr ⟨?_, ?_⟩⟩⟩
    · simp only [gmtime, hday]
    · simp only [gmtime, hday]
    · simp only [gmtime, hday]
    · simp only [gmtime]
      omega

theorem gmtime_year_mono {t t' : ℤ} (h : t ≤ t') : (gmtime t).year ≤ (gmtime t').year := by
  rcases Int.lt_or_eq_of_le h with hlt | rfl
  · have hkey := gmtime_key_lt hlt
    simp only [Tm.key, List.cons_lt_cons_iff] at hkey
    omega
  · exact le_refl _

/-! ### Zones -/

/-- A zone whose offset from UTC does not change; no zone is further from it than a day and an
hour. -/
structure Zone where
  offset : ℤ
  near : -90000 < offset ∧ offset < 90000

def localtime (zone : Zone) (t : ℤ) : Tm := gmtime (t + zone.offset)

def mktime (zone : Zone) (tm : Tm) : ℤ := timegm tm - zone.offset

theorem localtime_valid (zone : Zone) (t : ℤ) : (localtime zone t).Valid := gmtime_valid _

theorem mktime_localtime (zone : Zone) (t : ℤ) : mktime zone (localtime zone t) = t := by
  rw [mktime, localtime, timegm_gmtime]
  omega

theorem localtime_mktime (zone : Zone) {tm : Tm} (h : tm.Valid) :
    localtime zone (mktime zone tm) = tm := by
  rw [mktime, localtime, Int.sub_add_cancel, gmtime_timegm h]

end MemoryLeak.Calendar
