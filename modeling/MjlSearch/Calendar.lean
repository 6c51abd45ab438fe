/-
The proleptic Gregorian calendar, with its days numbered from the first of January 1970.

* `Date.days_next` — the day after a date has the next number;
* `Date.days_injective` — no two dates have one number;
* `eraDay` — a day of an era of four hundred years, which begins with a first of March,
  is the day of a year of a cycle of four years of a century.
-/
import Mathlib.Algebra.Order.Ring.Int
import Mathlib.Algebra.Order.Ring.Nat

namespace Calendar

/-- The leap years: every fourth, of the full centuries every fourth again. -/
def IsLeap (year : ℤ) : Prop := year % 4 = 0 ∧ (year % 100 ≠ 0 ∨ year % 400 = 0)

instance : DecidablePred IsLeap := fun year =>
  inferInstanceAs (Decidable (year % 4 = 0 ∧ (year % 100 ≠ 0 ∨ year % 400 = 0)))

/-- The length of a year. -/
def yearLength (year : ℤ) : ℕ := if IsLeap year then 366 else 365

/-- The length of a month, numbered from one. -/
def monthLength (year : ℤ) (month : ℕ) : ℕ :=
  if month = 2 then if IsLeap year then 29 else 28
  else if month = 4 ∨ month = 6 ∨ month = 9 ∨ month = 11 then 30 else 31

/-- The days of the months of a year before a month of it. -/
def daysBeforeMonth (year : ℤ) (month : ℕ) : ℕ :=
  ((List.range' 1 (month - 1)).map (monthLength year)).sum

/-- The days from the first of January 1970 to that of a year. -/
def daysBeforeYear (year : ℤ) : ℤ :=
  365 * (year - 1970) + ((year - 1) / 4 - 492) - ((year - 1) / 100 - 19) + ((year - 1) / 400 - 4)

/-- A date. -/
@[ext] structure Date where
  year : ℤ
  month : ℕ
  day : ℕ
  month_pos : 1 ≤ month
  month_le : month ≤ 12
  day_pos : 1 ≤ day
  day_le : day ≤ monthLength year month

/-- The number of a date. -/
def Date.days (d : Date) : ℤ :=
  daysBeforeYear d.year + daysBeforeMonth d.year d.month + (d.day - 1)

/-! ### Years and months -/

theorem daysBeforeYear_succ (year : ℤ) :
    daysBeforeYear (year + 1) = daysBeforeYear year + yearLength year := by
  rw [daysBeforeYear, daysBeforeYear, yearLength]
  by_cases hleap : IsLeap year
  · rw [if_pos hleap]
    rw [IsLeap] at hleap
    omega
  · rw [if_neg hleap]
    rw [IsLeap] at hleap
    omega

theorem daysBeforeYear_mono {year year' : ℤ} (h : year ≤ year') :
    daysBeforeYear year ≤ daysBeforeYear year' := by
  induction year', h using Int.leInduction with
  | base => exact le_refl _
  | succ year' _ ih =>
    rw [daysBeforeYear_succ]
    omega

theorem monthLength_pos (year : ℤ) (month : ℕ) : 1 ≤ monthLength year month := by
  rw [monthLength]
  split
  · split <;> decide
  · split <;> decide

theorem monthLength_le (year : ℤ) (month : ℕ) : monthLength year month ≤ 31 := by
  rw [monthLength]
  split
  · split <;> decide
  · split <;> decide

@[simp] theorem daysBeforeMonth_one (year : ℤ) : daysBeforeMonth year 1 = 0 := rfl

theorem daysBeforeMonth_succ (year : ℤ) {month : ℕ} (h : 1 ≤ month) :
    daysBeforeMonth year (month + 1) = daysBeforeMonth year month + monthLength year month := by
  obtain ⟨month, rfl⟩ := Nat.exists_eq_add_of_le' h
  rw [daysBeforeMonth, daysBeforeMonth, Nat.add_sub_cancel, Nat.add_sub_cancel,
    List.range'_concat, List.map_append, List.sum_append]
  simp [Nat.add_comm 1]

theorem daysBeforeMonth_mono (year : ℤ) {month month' : ℕ} (hpos : 1 ≤ month)
    (h : month ≤ month') : daysBeforeMonth year month ≤ daysBeforeMonth year month' := by
  induction month', h using Nat.le_induction with
  | base => exact le_refl _
  | succ month' hle ih =>
    rw [daysBeforeMonth_succ year (hpos.trans hle)]
    omega

/-- The twelve months are the year. -/
theorem daysBeforeMonth_thirteen (year : ℤ) : daysBeforeMonth year 13 = yearLength year := by
  simp only [daysBeforeMonth, List.range', List.map, monthLength, yearLength]
  by_cases hleap : IsLeap year <;> simp [hleap]

/-! ### The numbers of the dates -/

/-- The day after a date. -/
def Date.next (d : Date) : Date :=
  if h : d.day < monthLength d.year d.month then
    { d with day := d.day + 1, day_pos := Nat.succ_pos _, day_le := h }
  else if h : d.month < 12 then
    ⟨d.year, d.month + 1, 1, Nat.succ_pos _, h, Nat.le_refl 1, monthLength_pos _ _⟩
  else ⟨d.year + 1, 1, 1, Nat.le_refl 1, by decide, Nat.le_refl 1, monthLength_pos _ _⟩

/-- **The day after a date has the next number.** -/
theorem Date.days_next (d : Date) : d.next.days = d.days + 1 := by
  have hle := d.day_le
  have hpos := d.day_pos
  have hmonth := daysBeforeMonth_succ d.year d.month_pos
  rw [Date.next]
  split
  · rw [Date.days, Date.days]
    dsimp only
    omega
  · rename_i hlast
    split
    · rw [Date.days, Date.days]
      dsimp only
      omega
    · -- the last day of December: the months before the next one are the whole year
      have hdecember : d.month = 12 := by
        have := d.month_le
        omega
      rw [hdecember, daysBeforeMonth_thirteen] at hmonth
      rw [hdecember] at hle hlast
      rw [Date.days, Date.days, hdecember]
      dsimp only
      rw [daysBeforeYear_succ, daysBeforeMonth_one]
      omega

/-- A date is before the months that follow its own. -/
theorem Date.days_lt_month (d : Date) :
    d.days < daysBeforeYear d.year + daysBeforeMonth d.year (d.month + 1) := by
  have hle := d.day_le
  rw [daysBeforeMonth_succ d.year d.month_pos, Date.days]
  omega

/-- A date is before the years that follow its own. -/
theorem Date.days_lt_year (d : Date) : d.days < daysBeforeYear (d.year + 1) := by
  have hmonths := daysBeforeMonth_mono d.year (Nat.le_add_left 1 d.month)
    (Nat.succ_le_succ d.month_le)
  have hlt := d.days_lt_month
  rw [daysBeforeMonth_thirteen] at hmonths
  rw [daysBeforeYear_succ]
  omega

theorem Date.le_days (d : Date) :
    daysBeforeYear d.year + daysBeforeMonth d.year d.month ≤ d.days := by
  have hpos := d.day_pos
  rw [Date.days]
  omega

theorem Date.days_lt_of_year_lt {d d' : Date} (h : d.year < d'.year) : d.days < d'.days := by
  have hlt := d.days_lt_year
  have hyears := daysBeforeYear_mono h
  have hle := d'.le_days
  omega

theorem Date.days_lt_of_month_lt {d d' : Date} (hyear : d.year = d'.year)
    (h : d.month < d'.month) : d.days < d'.days := by
  have hlt := d.days_lt_month
  have hmonths := daysBeforeMonth_mono d.year (Nat.le_add_left 1 d.month) h
  have hle := d'.le_days
  rw [← hyear] at hle
  omega

/-- **No two dates have one number.** -/
theorem Date.days_injective : Function.Injective Date.days := by
  intro d d' h
  have hyear : d.year = d'.year := by
    rcases lt_trichotomy d.year d'.year with hlt | heq | hgt
    · exact absurd h (ne_of_lt (Date.days_lt_of_year_lt hlt))
    · exact heq
    · exact absurd h.symm (ne_of_lt (Date.days_lt_of_year_lt hgt))
  have hmonth : d.month = d'.month := by
    rcases lt_trichotomy d.month d'.month with hlt | heq | hgt
    · exact absurd h (ne_of_lt (Date.days_lt_of_month_lt hyear hlt))
    · exact heq
    · exact absurd h.symm (ne_of_lt (Date.days_lt_of_month_lt hyear.symm hgt))
  have hday : d.day = d'.day := by
    rw [Date.days, Date.days, hyear, hmonth] at h
    omega
  exact Date.ext hyear hmonth hday

/-- A second of a date. -/
@[ext] structure Instant where
  date : Date
  hour : ℕ
  minute : ℕ
  second : ℕ
  hour_lt : hour < 24
  minute_lt : minute < 60
  second_lt : second < 60

/-- The seconds from the first one of January 1970. -/
def Instant.seconds (i : Instant) : ℤ :=
  86400 * i.date.days + 3600 * i.hour + 60 * i.minute + i.second

/-- The same time of the day after. -/
def Instant.tomorrow (i : Instant) : Instant := { i with date := i.date.next }

theorem Instant.seconds_tomorrow (i : Instant) : i.tomorrow.seconds = i.seconds + 86400 := by
  have hdays : i.tomorrow.date.days = i.date.days + 1 := i.date.days_next
  rw [Instant.seconds, Instant.seconds, hdays, show i.tomorrow.hour = i.hour from rfl,
    show i.tomorrow.minute = i.minute from rfl, show i.tomorrow.second = i.second from rfl]
  omega

/-! ### Eras -/

/-- A day of an era of four hundred years of which each ends with February, its day at the
end if it has one more: the `day` of a `year` of a `cycle` of four years of a `century`. -/
structure EraDay (dayOfEra : ℕ) where
  century : ℕ
  cycle : ℕ
  year : ℕ
  day : ℕ
  century_le : century ≤ 3
  cycle_le : cycle ≤ 24
  year_le : year ≤ 3
  day_le : day ≤ 365
  leap : day = 365 → year = 3 ∧ (cycle ≠ 24 ∨ century = 3)
  eq : dayOfEra = 36524 * century + 1461 * cycle + 365 * year + day

/-- The day of an era, taken apart. -/
def eraDay (dayOfEra : ℕ) (h : dayOfEra < 146097) : EraDay dayOfEra where
  century := min (dayOfEra / 36524) 3
  cycle := (dayOfEra - 36524 * min (dayOfEra / 36524) 3) / 1461
  year := min ((dayOfEra - 36524 * min (dayOfEra / 36524) 3) % 1461 / 365) 3
  day := (dayOfEra - 36524 * min (dayOfEra / 36524) 3) % 1461 -
    365 * min ((dayOfEra - 36524 * min (dayOfEra / 36524) 3) % 1461 / 365) 3
  century_le := by omega
  cycle_le := by omega
  year_le := by omega
  day_le := by omega
  leap := by omega
  eq := by omega

end Calendar
