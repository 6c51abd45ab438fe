/-
The dates of the archive's records (`crawler::storage::iso8601`).

* `civilFromDays_days` — the number of every date is converted back into it;
* `civilFromDaysChecked_eq`, `iso8601Checked_eq` — no step of the conversion leaves its type;
* `stampText_injective` — a text denotes one second of one date.
-/
import MjlSearch.Calendar
import MjlSearch.Machine
import MjlSearch.Warc
import Mathlib.Tactic.IntervalCases

open Text Calendar Machine

namespace Warc

/-! ### The conversion, with its types -/

/-- An `i64` operation whose exact result is given. -/
def i64 (z : ℤ) : Option ℤ := if IsI64 z then some z else none

/-- A `u64` operation, or a cast to `u64`, whose exact result is given. -/
def u64 (z : ℤ) : Option ℕ := if 0 ≤ z ∧ z < 2 ^ 64 then some z.toNat else none

/-- A cast to `u32`. -/
def u32 (n : ℕ) : Option ℕ := if n < 2 ^ 32 then some n else none

/-- The year of an era that a day of it is in. -/
def yearOfEraChecked (dayOfEra : ℕ) : Option ℕ := do
  let short ← u64 ((dayOfEra : ℤ) - (dayOfEra / 1460 : ℕ))
  let long ← u64 ((short : ℤ) + (dayOfEra / 36524 : ℕ))
  let even ← u64 ((long : ℤ) - (dayOfEra / 146096 : ℕ))
  some (even / 365)

/-- The day of a year of an era. -/
def dayOfYearChecked (dayOfEra yearOfEra : ℕ) : Option ℕ := do
  let days ← u64 (365 * (yearOfEra : ℤ))
  let julian ← u64 ((days : ℤ) + (yearOfEra / 4 : ℕ))
  let start ← u64 ((julian : ℤ) - (yearOfEra / 100 : ℕ))
  u64 ((dayOfEra : ℤ) - start)

/-- The month that is `monthPrime` months after March. -/
def monthChecked (monthPrime : ℕ) : Option ℕ :=
  if monthPrime < 10 then u64 ((monthPrime : ℤ) + 3) else u64 ((monthPrime : ℤ) - 9)

/-- The month and the day of it. -/
def monthDayChecked (dayOfYear : ℕ) : Option (ℕ × ℕ) := do
  let fives ← u64 (5 * (dayOfYear : ℤ))
  let numerator ← u64 ((fives : ℤ) + 2)
  let monthPrime := numerator / 153
  let scaled ← u64 (153 * (monthPrime : ℤ))
  let shifted ← u64 ((scaled : ℤ) + 2)
  let index ← u64 ((dayOfYear : ℤ) - (shifted / 5 : ℕ))
  let day ← u32 (← u64 ((index : ℤ) + 1))
  let month ← u32 (← monthChecked monthPrime)
  some (month, day)

/-- The number that is divided by the length of an era. -/
def eraDividendChecked (shifted : ℤ) : Option ℤ :=
  if 0 ≤ shifted then some shifted else i64 (shifted - 146096)

/-- The year that a month is in, where years begin with March. -/
def yearChecked (year : ℤ) (month : ℕ) : Option ℤ :=
  if month ≤ 2 then i64 (year + 1) else some year

/-- `civilFromDays`, which gives up at an overflow and at a cast that changes a number. -/
def civilFromDaysChecked (days : ℤ) : Option (ℤ × ℕ × ℕ) := do
  let shifted ← i64 (days + 719468)
  let era ← i64 ((← eraDividendChecked shifted).tdiv 146097)
  let start ← i64 (era * 146097)
  let dayOfEra ← u64 (← i64 (shifted - start))
  let yearOfEra ← yearOfEraChecked dayOfEra
  let years ← i64 (era * 400)
  let year ← i64 ((← i64 yearOfEra) + years)
  let dayOfYear ← dayOfYearChecked dayOfEra yearOfEra
  let (month, day) ← monthDayChecked dayOfYear
  some (← yearChecked year month, month, day)

/-- `iso8601`, which gives up at an overflow and at a cast that changes a number. -/
def iso8601Checked (timestampSeconds : ℤ) : Option Str := do
  let days ← i64 (timestampSeconds / 86400)
  let secondsOfDay ← i64 (timestampSeconds % 86400)
  let (year, month, day) ← civilFromDaysChecked days
  let hour ← i64 (secondsOfDay.tdiv 3600)
  let minute ← i64 ((← i64 (secondsOfDay.tmod 3600)).tdiv 60)
  let second ← i64 (secondsOfDay.tmod 60)
  some (paddedInt 4 year ++ '-' :: padded 2 month ++ '-' :: padded 2 day ++
    'T' :: paddedInt 2 hour ++ ':' :: paddedInt 2 minute ++ ':' :: paddedInt 2 second ++ ['Z'])

example : iso8601Checked (-1) = some "1969-12-31T23:59:59Z".toList := by decide

theorem i64_eq {z : ℤ} (h : IsI64 z) : i64 z = some z := if_pos h

theorem u64_eq {z : ℤ} {n : ℕ} (h : z = n) (hn : n < 2 ^ 64) : u64 z = some n := by
  rw [u64, h, if_pos ⟨by omega, by omega⟩, Int.toNat_natCast]

theorem u32_eq {n : ℕ} (h : n < 2 ^ 32) : u32 n = some n := if_pos h

/-! ### The year and the day of it -/

section
variable {dayOfEra : ℕ} (e : EraDay dayOfEra)

/-- The year of the era that a day is in. -/
def yearOf : ℕ := 100 * e.century + 4 * e.cycle + e.year

theorem yearOf_le : yearOf e ≤ 399 := by
  have hcentury := e.century_le
  have hcycle := e.cycle_le
  have hyear := e.year_le
  rw [yearOf]
  omega

/-- Every four years have a day too many for years of 365 days, but for the last of most
centuries. -/
theorem yearOfEra_eq :
    (dayOfEra - dayOfEra / 1460 + dayOfEra / 36524 - dayOfEra / 146096) / 365 = yearOf e := by
  obtain ⟨c, q, y, k, hc, hq, hy, hk, hleap, heq⟩ := e
  show _ = 100 * c + 4 * q + y
  rcases Nat.lt_or_ge (1461 * q + 365 * y + k) 36524 with hlt | hge
  · have hcentury : dayOfEra / 36524 = c := by
      clear hleap
      omega
    have hlast : dayOfEra / 146096 = 0 := by
      clear hleap
      omega
    rw [hcentury, hlast]
    -- the day of the cycle that is left over, if the cycle has come to it
    rcases Nat.lt_or_ge (24 * c + q + 365 * y + k) 1460 with hshort | hlong
    · have hday : k ≤ 364 := by omega
      have hcycles : dayOfEra / 1460 = 25 * c + q := by
        clear hleap
        omega
      have hdays : dayOfEra - (25 * c + q) + c - 0 = 365 * (100 * c + 4 * q + y) + k := by
        clear hleap
        omega
      rw [hcycles, hdays]
      clear hleap
      omega
    · have hcycles : dayOfEra / 1460 = 25 * c + q + 1 := by
        clear hleap
        omega
      have hdays : dayOfEra - (25 * c + q + 1) + c - 0 =
          365 * (100 * c + 4 * q + y) + (k - 1) := by
        clear hleap
        omega
      rw [hcycles, hdays]
      clear hleap
      omega
  · -- the last day of the era
    obtain ⟨rfl, rfl, rfl⟩ : q = 24 ∧ y = 3 ∧ k = 365 := by
      clear hleap
      omega
    have hlast := (hleap rfl).2
    obtain rfl : c = 3 := by omega
    subst heq
    rfl

/-- The days of the era before a year of it, and the day of that year. -/
theorem yearStart_add :
    365 * yearOf e + yearOf e / 4 - yearOf e / 100 + e.day = dayOfEra := by
  have hcycle := e.cycle_le
  have hyear := e.year_le
  have heq := e.eq
  have hfourth : yearOf e / 4 = 25 * e.century + e.cycle := by
    rw [yearOf]
    omega
  have hcentury : yearOf e / 100 = e.century := by
    rw [yearOf]
    omega
  rw [hfourth, hcentury, yearOf]
  omega

theorem dayOfYear_eq :
    dayOfEra - (365 * yearOf e + yearOf e / 4 - yearOf e / 100) = e.day := by
  have hstart := yearStart_add e
  omega

/-- A year that begins with March has a day 366 if it ends in a leap year. -/
theorem isLeap_of_last (era : ℤ) (h : e.day = 365) : IsLeap (yearOf e + era * 400 + 1) := by
  have hcentury := e.century_le
  have hcycle := e.cycle_le
  obtain ⟨hyear, hlast⟩ := e.leap h
  rw [IsLeap, yearOf, hyear]
  omega

/-- The years before the first of January that a year beginning with March runs through. -/
theorem daysBeforeYear_eq (era : ℤ) :
    daysBeforeYear (yearOf e + era * 400 + 1) =
      146097 * era + (dayOfEra - e.day : ℤ) - 719162 := by
  have hcentury := e.century_le
  have hcycle := e.cycle_le
  have hyear := e.year_le
  have heq := e.eq
  rw [daysBeforeYear, yearOf, Int.add_sub_cancel]
  push_cast
  omega

end

/-! ### The month and the day of it -/

/-- The month of a year that begins with March, counted from zero, that a day of it is in. -/
def monthPrime (dayOfYear : ℕ) : ℕ := (5 * dayOfYear + 2) / 153

/-- The days of the months of that year before a month of it. -/
def marchDays (monthPrime : ℕ) : ℕ := (153 * monthPrime + 2) / 5

theorem monthPrime_le {dayOfYear : ℕ} (h : dayOfYear ≤ 365) : monthPrime dayOfYear ≤ 11 := by
  rw [monthPrime]
  omega

theorem marchDays_le (dayOfYear : ℕ) : marchDays (monthPrime dayOfYear) ≤ dayOfYear := by
  rw [marchDays, monthPrime]
  omega

theorem lt_marchDays_succ (dayOfYear : ℕ) :
    dayOfYear < marchDays (monthPrime dayOfYear + 1) := by
  rw [marchDays, monthPrime]
  omega

/-- The months from March to December. -/
theorem march_month (year : ℤ) {m : ℕ} (h : m < 10) :
    daysBeforeMonth year (m + 3) + 306 = yearLength year + marchDays m ∧
      marchDays (m + 1) = marchDays m + monthLength year (m + 3) := by
  by_cases hleap : IsLeap year
  · interval_cases m <;>
      simp [daysBeforeMonth, List.range', monthLength, yearLength, marchDays, hleap]
  · interval_cases m <;>
      simp [daysBeforeMonth, List.range', monthLength, yearLength, marchDays, hleap]

/-- January and February. -/
theorem january_month {year : ℤ} {m dayOfYear : ℕ} (h : 10 ≤ m) (hm : m ≤ 11)
    (hday : dayOfYear ≤ 365) (hlt : dayOfYear < marchDays (m + 1))
    (hleap : dayOfYear = 365 → IsLeap year) :
    daysBeforeMonth year (m - 9) + 306 = marchDays m ∧
      dayOfYear < marchDays m + monthLength year (m - 9) := by
  obtain rfl | rfl : m = 10 ∨ m = 11 := by omega
  · exact ⟨rfl, hlt⟩
  · refine ⟨rfl, ?_⟩
    -- the length of February is what its last day depends on
    by_cases hlast : dayOfYear = 365
    · simp [marchDays, monthLength, hleap hlast, hlast]
    · have hfebruary : 28 ≤ monthLength year 2 := by
        rw [monthLength, if_pos rfl]
        split <;> decide
      show dayOfYear < 337 + monthLength year 2
      omega

/-- The month and the day that a day of a year beginning with March is written with. -/
theorem exists_date {dayOfYear : ℕ} {year : ℤ} (h : dayOfYear ≤ 365)
    (hleap : dayOfYear = 365 → IsLeap (year + 1)) :
    ∃ d : Date, d.month = (if monthPrime dayOfYear < 10 then monthPrime dayOfYear + 3
        else monthPrime dayOfYear - 9) ∧
      d.year = (if d.month ≤ 2 then year + 1 else year) ∧
      d.day = dayOfYear - marchDays (monthPrime dayOfYear) + 1 ∧
      d.days = daysBeforeYear (year + 1) - 306 + dayOfYear := by
  have hlow := marchDays_le dayOfYear
  have hhigh := lt_marchDays_succ dayOfYear
  have hm := monthPrime_le h
  generalize monthPrime dayOfYear = m at *
  by_cases hmarch : m < 10
  · obtain ⟨hbefore, hlength⟩ := march_month year hmarch
    have hsame : ¬ m + 3 ≤ 2 := by omega
    refine ⟨⟨year, m + 3, dayOfYear - marchDays m + 1, by omega, by omega, by omega, by omega⟩,
      (if_pos hmarch).symm, (if_neg hsame).symm, rfl, ?_⟩
    rw [Date.days, daysBeforeYear_succ]
    dsimp only
    omega
  · obtain ⟨hbefore, hlength⟩ := january_month (Nat.not_lt.mp hmarch) hm h hhigh hleap
    have hnext : m - 9 ≤ 2 := by omega
    refine ⟨⟨year + 1, m - 9, dayOfYear - marchDays m + 1, by omega, by omega, by omega,
      by omega⟩, (if_neg hmarch).symm, (if_pos hnext).symm, rfl, ?_⟩
    rw [Date.days]
    dsimp only
    omega

/-! ### The date -/

/-- The era and the day of it. -/
theorem exists_era (days : ℤ) : ∃ (era : ℤ) (dayOfEra : ℕ), dayOfEra < 146097 ∧
    (if 0 ≤ days + 719468 then days + 719468 else days + 719468 - 146096).tdiv 146097 = era ∧
    days + 719468 = era * 146097 + dayOfEra := by
  refine ⟨(days + 719468) / 146097, ((days + 719468) % 146097).toNat, by omega, ?_, by omega⟩
  split
  · rename_i hpos
    exact Int.tdiv_eq_ediv_of_nonneg hpos
  · rename_i hneg
    -- the quotient is rounded to zero, which the dividend makes up for
    rw [← Int.neg_inj, ← Int.neg_tdiv, Int.tdiv_eq_ediv_of_nonneg (by omega)]
    omega

/-- **The conversion gives a date, whose number is the one converted.** -/
theorem civilFromDays_spec (days : ℤ) : ∃ d : Date,
    civilFromDays days = (d.year, d.month, d.day) ∧ d.days = days := by
  obtain ⟨era, dayOfEra, hlt, hera, hdays⟩ := exists_era days
  have e := eraDay dayOfEra hlt
  obtain ⟨d, hmonth, hyear, hday, hnumber⟩ := exists_date e.day_le (isLeap_of_last e era)
  refine ⟨d, ?_, ?_⟩
  · have hstart : (days + 719468 - era * 146097).toNat = dayOfEra := by omega
    rw [hyear, hday, hmonth]
    simp only [civilFromDays, hera, hstart, yearOfEra_eq e, dayOfYear_eq e]
    rfl
  · rw [hnumber, daysBeforeYear_eq]
    omega

/-- **The number of a date is converted back into it.** -/
theorem civilFromDays_days (d : Date) : civilFromDays d.days = (d.year, d.month, d.day) := by
  obtain ⟨d', hcivil, hdays⟩ := civilFromDays_spec d.days
  rw [hcivil, Date.days_injective hdays]

/-! ### No step leaves its type -/

theorem yearOfEraChecked_eq {dayOfEra : ℕ} (h : dayOfEra < 146097) :
    yearOfEraChecked dayOfEra =
      some ((dayOfEra - dayOfEra / 1460 + dayOfEra / 36524 - dayOfEra / 146096) / 365) := by
  have hfourth : dayOfEra / 1460 ≤ dayOfEra := Nat.div_le_self ..
  have hlast : dayOfEra / 146096 ≤ dayOfEra / 36524 := Nat.div_le_div_left (by decide) (by decide)
  have hcentury : dayOfEra / 36524 ≤ 4 := by omega
  rw [yearOfEraChecked, u64_eq (n := dayOfEra - dayOfEra / 1460) (by omega) (by omega),
    Option.bind_eq_bind, Option.bind_some,
    u64_eq (n := dayOfEra - dayOfEra / 1460 + dayOfEra / 36524) (by omega) (by omega),
    Option.bind_some, u64_eq (n := dayOfEra - dayOfEra / 1460 + dayOfEra / 36524 -
      dayOfEra / 146096) (by omega) (by omega)]
  rfl

theorem dayOfYearChecked_eq {dayOfEra : ℕ} (e : EraDay dayOfEra) :
    dayOfYearChecked dayOfEra (yearOf e) =
      some (dayOfEra - (365 * yearOf e + yearOf e / 4 - yearOf e / 100)) := by
  have hle := yearOf_le e
  have hstart := yearStart_add e
  have hcentury : yearOf e / 100 ≤ yearOf e / 4 := Nat.div_le_div_left (by decide) (by decide)
  have hfourth : yearOf e / 4 ≤ 99 := by omega
  have hera : dayOfEra < 2 ^ 64 := by
    have hday := e.day_le
    omega
  rw [dayOfYearChecked, u64_eq (n := 365 * yearOf e) (by omega) (by omega),
    Option.bind_eq_bind, Option.bind_some,
    u64_eq (n := 365 * yearOf e + yearOf e / 4) (by omega) (by omega), Option.bind_some,
    u64_eq (n := 365 * yearOf e + yearOf e / 4 - yearOf e / 100) (by omega) (by omega),
    Option.bind_some]
  exact u64_eq (by omega) (by omega)

theorem monthDayChecked_eq {dayOfYear : ℕ} (h : dayOfYear ≤ 365) :
    monthDayChecked dayOfYear =
      some (if monthPrime dayOfYear < 10 then monthPrime dayOfYear + 3
        else monthPrime dayOfYear - 9, dayOfYear - marchDays (monthPrime dayOfYear) + 1) := by
  have hm := monthPrime_le h
  have hlow := marchDays_le dayOfYear
  have hmonth : monthChecked (monthPrime dayOfYear) = some (if monthPrime dayOfYear < 10 then
      monthPrime dayOfYear + 3 else monthPrime dayOfYear - 9) := by
    rw [monthChecked]
    split
    · exact u64_eq (by omega) (by omega)
    · exact u64_eq (by omega) (by omega)
  have hsmall : (if monthPrime dayOfYear < 10 then monthPrime dayOfYear + 3
      else monthPrime dayOfYear - 9) < 2 ^ 32 := by
    split <;> omega
  rw [monthDayChecked, u64_eq (n := 5 * dayOfYear) (by omega) (by omega),
    Option.bind_eq_bind, Option.bind_some, u64_eq (n := 5 * dayOfYear + 2) (by omega) (by omega),
    Option.bind_some]
  change (u64 (153 * (monthPrime dayOfYear : ℤ))).bind _ = _
  rw [u64_eq (n := 153 * monthPrime dayOfYear) (by omega) (by omega), Option.bind_some,
    u64_eq (n := 153 * monthPrime dayOfYear + 2) (by omega) (by omega), Option.bind_some]
  change (u64 ((dayOfYear : ℤ) - (marchDays (monthPrime dayOfYear) : ℕ))).bind _ = _
  rw [u64_eq (n := dayOfYear - marchDays (monthPrime dayOfYear)) (by omega) (by omega),
    Option.bind_some,
    u64_eq (n := dayOfYear - marchDays (monthPrime dayOfYear) + 1) (by omega) (by omega),
    Option.bind_some, u32_eq (by omega), Option.bind_some]
  change (monthChecked (monthPrime dayOfYear)).bind _ = _
  rw [hmonth, Option.bind_some, u32_eq hsmall]
  rfl

/-- The days an `i64` of seconds comes to. -/
theorem days_bounds {t : ℤ} (h : IsI64 t) : -2 ^ 47 ≤ t / 86400 ∧ t / 86400 ≤ 2 ^ 47 := by
  rw [IsI64, i64Min, i64Max] at h
  omega

theorem civilFromDaysChecked_eq {days : ℤ} (h : -2 ^ 47 ≤ days ∧ days ≤ 2 ^ 47) :
    civilFromDaysChecked days = some (civilFromDays days) := by
  obtain ⟨era, dayOfEra, hlt, hera, hdays⟩ := exists_era days
  have e := eraDay dayOfEra hlt
  have hle := yearOf_le e
  have hstart : (days + 719468 - era * 146097).toNat = dayOfEra := by omega
  -- far within an `i64`
  have hfits : ∀ z : ℤ, -2 ^ 62 ≤ z → z ≤ 2 ^ 62 → i64 z = some z := by
    intro z hlow hhigh
    exact i64_eq ⟨by rw [i64Min]; omega, by rw [i64Max]; omega⟩
  have hdividend : eraDividendChecked (days + 719468) =
      some (if 0 ≤ days + 719468 then days + 719468 else days + 719468 - 146096) := by
    rw [eraDividendChecked]
    split
    · rfl
    · exact hfits _ (by omega) (by omega)
  have hyear : ∀ month, yearChecked (yearOf e + era * 400) month = some (if month ≤ 2 then
      (yearOf e + era * 400 : ℤ) + 1 else yearOf e + era * 400) := by
    intro month
    rw [yearChecked]
    split
    · exact hfits _ (by omega) (by omega)
    · rfl
  simp only [civilFromDaysChecked, Option.bind_eq_bind]
  rw [hfits (days + 719468) (by omega) (by omega), Option.bind_some, hdividend,
    Option.bind_some, hera, hfits era (by omega) (by omega), Option.bind_some,
    hfits (era * 146097) (by omega) (by omega), Option.bind_some,
    hfits (days + 719468 - era * 146097) (by omega) (by omega), Option.bind_some,
    u64_eq (n := dayOfEra) (by omega) (by omega), Option.bind_some, yearOfEraChecked_eq hlt,
    Option.bind_some, yearOfEra_eq e, hfits (era * 400) (by omega) (by omega), Option.bind_some,
    hfits (yearOf e) (by omega) (by omega), Option.bind_some,
    hfits (yearOf e + era * 400) (by omega) (by omega), Option.bind_some,
    dayOfYearChecked_eq e, Option.bind_some, dayOfYear_eq e, monthDayChecked_eq e.day_le,
    Option.bind_some]
  dsimp only
  rw [hyear, Option.bind_some]
  simp only [civilFromDays, hera, hstart, yearOfEra_eq e, dayOfYear_eq e]
  rfl

/-- The time of day is not negative, so that its signed form is the unsigned one. -/
theorem paddedInt_natCast (width n : ℕ) : paddedInt width n = padded width n := by
  rw [paddedInt, if_neg (by omega), Int.natAbs_natCast]

/-- **No step of the formatting leaves its type.** -/
theorem iso8601Checked_eq {t : ℤ} (h : IsI64 t) : iso8601Checked t = some (iso8601 t) := by
  obtain ⟨secondsOfDay, hseconds⟩ : ∃ n : ℕ, t % 86400 = n :=
    Int.eq_ofNat_of_zero_le (Int.emod_nonneg _ (by decide))
  have hlt : secondsOfDay < 86400 := by omega
  have hfits : ∀ n : ℕ, n < 86400 → i64 n = some (n : ℤ) := by
    intro n hn
    exact i64_eq ⟨by rw [i64Min]; omega, by rw [i64Max]; omega⟩
  have hdays : IsI64 (t / 86400) := by
    have hbounds := days_bounds h
    exact ⟨by rw [i64Min]; omega, by rw [i64Max]; omega⟩
  simp only [iso8601Checked, Option.bind_eq_bind]
  rw [i64_eq hdays, Option.bind_some, hseconds, hfits _ hlt, Option.bind_some,
    civilFromDaysChecked_eq (days_bounds h), Option.bind_some]
  rw [show (secondsOfDay : ℤ).tdiv 3600 = (secondsOfDay / 3600 : ℕ) from rfl,
    show (secondsOfDay : ℤ).tmod 3600 = (secondsOfDay % 3600 : ℕ) from rfl,
    show (secondsOfDay : ℤ).tmod 60 = (secondsOfDay % 60 : ℕ) from rfl,
    hfits (secondsOfDay / 3600) (by omega), Option.bind_some,
    hfits (secondsOfDay % 3600) (by omega), Option.bind_some,
    show ((secondsOfDay % 3600 : ℕ) : ℤ).tdiv 60 = (secondsOfDay % 3600 / 60 : ℕ) from rfl,
    hfits (secondsOfDay % 3600 / 60) (by omega), Option.bind_some,
    hfits (secondsOfDay % 60) (by omega), Option.bind_some]
  simp only [paddedInt_natCast, iso8601, hseconds, Int.toNat_natCast]

/-! ### The text -/

/-- A second of a date, as it is written. -/
def stampText (i : Instant) : Str :=
  paddedInt 4 i.date.year ++ '-' :: padded 2 i.date.month ++ '-' :: padded 2 i.date.day ++
    'T' :: padded 2 i.hour ++ ':' :: padded 2 i.minute ++ ':' :: padded 2 i.second ++ ['Z']

/-- **A timestamp is written as the second that it is.** -/
theorem iso8601_spec (t : ℤ) : ∃ i : Instant, iso8601 t = stampText i ∧ i.seconds = t := by
  obtain ⟨d, hcivil, hdays⟩ := civilFromDays_spec (t / 86400)
  obtain ⟨secondsOfDay, hseconds⟩ : ∃ n : ℕ, t % 86400 = n :=
    Int.eq_ofNat_of_zero_le (Int.emod_nonneg _ (by decide))
  refine ⟨⟨d, secondsOfDay / 3600, secondsOfDay % 3600 / 60, secondsOfDay % 60, by omega,
    by omega, by omega⟩, ?_, ?_⟩
  · simp only [iso8601, hcivil, hseconds, Int.toNat_natCast, stampText]
  · rw [Instant.seconds, hdays]
    dsimp only
    omega

/-- The text of a second of a date is its own. -/
theorem iso8601_seconds (i : Instant) : iso8601 i.seconds = stampText i := by
  have hhour := i.hour_lt
  have hminute := i.minute_lt
  have hsecond := i.second_lt
  have hday : i.seconds / 86400 = i.date.days := by
    rw [Instant.seconds]
    omega
  have hrest : i.seconds % 86400 = (3600 * i.hour + 60 * i.minute + i.second : ℕ) := by
    rw [Instant.seconds]
    omega
  simp only [iso8601, hday, hrest, civilFromDays_days, Int.toNat_natCast, stampText]
  rw [show (3600 * i.hour + 60 * i.minute + i.second) / 3600 = i.hour by omega,
    show (3600 * i.hour + 60 * i.minute + i.second) % 3600 / 60 = i.minute by omega,
    show (3600 * i.hour + 60 * i.minute + i.second) % 60 = i.second by omega]

theorem padded_injective (width : ℕ) : Function.Injective (padded width) := by
  intro m n h
  rw [← ofDigitChars_padded width m, h, ofDigitChars_padded]

theorem paddedInt_injective (width : ℕ) : Function.Injective (paddedInt width) := by
  have hsign : ∀ m n k : ℕ, '-' :: padded m n ≠ padded width k := by
    intro m n k h
    have hdigit : ('-').isDigit := isDigit_of_mem_padded (by rw [← h]; exact List.mem_cons_self ..)
    exact absurd hdigit (by decide)
  intro y z h
  rw [paddedInt, paddedInt] at h
  split at h
  · split at h
    · have habs := padded_injective _ (List.cons.inj h).2
      omega
    · exact absurd h (hsign _ _ _)
  · split at h
    · exact absurd h.symm (hsign _ _ _)
    · have habs := padded_injective _ h
      omega

/-- A number of at most two digits is written with two. -/
theorem length_padded_two {n : ℕ} (h : n < 100) : (padded 2 n).length = 2 := by
  revert n
  decide

/-- The last two digits of a text. -/
theorem append_padded_inj {s t : Str} {c : Char} {m n : ℕ} (hm : m < 100) (hn : n < 100)
    (h : s ++ c :: padded 2 m = t ++ c :: padded 2 n) : s = t ∧ m = n := by
  have hlength : (c :: padded 2 m).length = (c :: padded 2 n).length := by
    rw [List.length_cons, List.length_cons, length_padded_two hm, length_padded_two hn]
  obtain ⟨hst, hdigits⟩ := List.append_inj' h hlength
  exact ⟨hst, padded_injective 2 (List.cons.inj hdigits).2⟩

/-- **A text denotes one second of one date.** -/
theorem stampText_injective : Function.Injective stampText := by
  intro i j h
  have hday : ∀ d : Date, d.day < 100 := fun d =>
    (d.day_le.trans (monthLength_le _ _)).trans_lt (by decide)
  have hmonth : ∀ d : Date, d.month < 100 := fun d => d.month_le.trans_lt (by decide)
  have hhour : ∀ i : Instant, i.hour < 100 := fun i => i.hour_lt.trans (by decide)
  have hminute : ∀ i : Instant, i.minute < 100 := fun i => i.minute_lt.trans (by decide)
  have hsecond : ∀ i : Instant, i.second < 100 := fun i => i.second_lt.trans (by decide)
  rw [stampText, stampText] at h
  -- all but the year have a fixed width, so the text is taken apart from its end
  obtain ⟨h, hs⟩ := append_padded_inj (hsecond i) (hsecond j) (List.append_cancel_right h)
  obtain ⟨h, hm⟩ := append_padded_inj (hminute i) (hminute j) h
  obtain ⟨h, hh⟩ := append_padded_inj (hhour i) (hhour j) h
  obtain ⟨h, hd⟩ := append_padded_inj (hday i.date) (hday j.date) h
  obtain ⟨h, hmo⟩ := append_padded_inj (hmonth i.date) (hmonth j.date) h
  exact Instant.ext (Date.ext (paddedInt_injective 4 h) hmo hd) hh hm hs

/-- **Timestamps are formatted exactly**: the text of a timestamp is that of one valid date and
time of day, which is as many seconds from the epoch as the timestamp says, and a day later that
of the next date; no other timestamp has this text, and no step of the formatting leaves its
type. -/
theorem iso8601_exact {t : ℤ} (h : IsI64 t) :
    (∃ i : Instant, (∀ j : Instant, stampText j = iso8601 t ↔ j = i) ∧ i.seconds = t ∧
        iso8601 (t + 86400) = stampText i.tomorrow) ∧
      (∀ t' : ℤ, IsI64 t' → iso8601 t' = iso8601 t → t' = t) ∧
      iso8601Checked t = some (iso8601 t) := by
  obtain ⟨i, htext, hseconds⟩ := iso8601_spec t
  refine ⟨⟨i, fun j => ⟨fun hj => stampText_injective (hj.trans htext), ?_⟩, hseconds, ?_⟩,
    fun t' _ heq => ?_, iso8601Checked_eq h⟩
  · rintro rfl
    exact htext.symm
  · rw [← hseconds, ← i.seconds_tomorrow, iso8601_seconds]
  · obtain ⟨i', htext', hseconds'⟩ := iso8601_spec t'
    have hsame : i' = i := stampText_injective (by rw [← htext', heq, htext])
    rw [← hseconds', hsame, hseconds]

/-- The last second before the epoch. -/
theorem iso8601_exact_before_epoch :
    (∃ i : Instant, (∀ j : Instant, stampText j = iso8601 (-1) ↔ j = i) ∧ i.seconds = -1 ∧
        iso8601 (-1 + 86400) = stampText i.tomorrow) ∧
      (∀ t' : ℤ, IsI64 t' → iso8601 t' = iso8601 (-1) → t' = -1) ∧
      iso8601Checked (-1) = some (iso8601 (-1)) :=
  iso8601_exact (by decide)

end Warc
