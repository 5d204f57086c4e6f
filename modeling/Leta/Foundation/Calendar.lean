import Mathlib.Tactic

/-! # The proleptic Gregorian calendar

Days are counted from 1970-01-01, in both directions. -/

namespace Leta

structure Date where
  year : ℤ
  month : ℕ
  day : ℕ
  deriving DecidableEq, Repr

namespace Date

/-! ## From dates to day numbers -/

def isLeapYear (year : ℤ) : Bool := year % 4 = 0 && (year % 100 ≠ 0 || year % 400 = 0)

def daysInMonth (year : ℤ) (month : ℕ) : ℕ :=
  match month with
  | 2 => if isLeapYear year then 29 else 28
  | 4 | 6 | 9 | 11 => 30
  | _ => 31

theorem daysInMonth_le (year : ℤ) (month : ℕ) : daysInMonth year month ≤ 31 := by
  unfold daysInMonth
  split
  · split_ifs <;> omega
  all_goals omega

structure Valid (date : Date) : Prop where
  month : 1 ≤ date.month ∧ date.month ≤ 12
  day : 1 ≤ date.day ∧ date.day ≤ daysInMonth date.year date.month

/-- The days from 0000-01-01 to the first day of the year. Year 0 is a leap year. -/
def daysBeforeYear (year : ℤ) : ℤ :=
  365 * year + (year + 3) / 4 - (year + 99) / 100 + (year + 399) / 400

def daysBeforeMonth (year : ℤ) (month : ℕ) : ℕ :=
  ((List.range' 1 (month - 1)).map (daysInMonth year)).sum

def dayNumber (date : Date) : ℤ :=
  daysBeforeYear date.year - daysBeforeYear 1970 + daysBeforeMonth date.year date.month +
    (date.day - 1)

theorem isLeapYear_iff (year : ℤ) :
    isLeapYear year ↔ year % 4 = 0 ∧ (year % 100 ≠ 0 ∨ year % 400 = 0) := by
  simp [isLeapYear]

/-- The leap years counted with the year itself. -/
theorem daysBeforeYear_leap (year : ℤ) :
    daysBeforeYear year + (if isLeapYear year then 1 else 0) =
      365 * year + year / 4 - year / 100 + year / 400 + 1 := by
  rw [daysBeforeYear]
  split_ifs with h <;> rw [isLeapYear_iff] at h <;> omega

theorem daysBeforeYear_succ (year : ℤ) :
    daysBeforeYear (year + 1) = 365 * year + year / 4 - year / 100 + year / 400 + 366 := by
  rw [daysBeforeYear]
  omega

/-! ## From day numbers to dates -/

/-- The year that starts in March, and the day in it, for a number of days from 0000-03-01. A
leap day is then the last day of its year, its cycle of 4 years and, if at all, its century and
its cycle of 400 years. -/
def marchYear (n : ℤ) : ℤ × ℤ :=
  let inCycle := n % 146097
  let century := min (inCycle / 36524) 3
  let inCentury := inCycle - 36524 * century
  let inFour := inCentury % 1461
  let year := min (inFour / 365) 3
  (400 * (n / 146097) + 100 * century + 4 * (inCentury / 1461) + year, inFour - 365 * year)

/-- The month, counted from March, and the day of the month for a day of a March year. -/
def marchMonth (day : ℕ) : ℕ × ℕ :=
  let month := (5 * day + 2) / 153
  (month, day - (153 * month + 2) / 5 + 1)

def ofDayNumber (n : ℤ) : Date :=
  let (year, day) := marchYear (n + 719468)
  let (month, day) := marchMonth day.toNat
  if month < 10 then ⟨year, month + 3, day⟩ else ⟨year + 1, month - 9, day⟩

/-- The parts of a March year: cycles of 400 years, centuries, cycles of 4 years and years. -/
theorem marchYear_parts (cycle : ℤ) {century four year : ℤ} (hcentury : 0 ≤ century ∧ century ≤ 3)
    (hfour : 0 ≤ four ∧ four ≤ 24) (hyear : 0 ≤ year ∧ year ≤ 3) :
    let all := 400 * cycle + 100 * century + 4 * four + year
    365 * all + all / 4 - all / 100 + all / 400 =
      146097 * cycle + 36524 * century + 1461 * four + 365 * year := by
  intro all
  have hquarter : all / 4 = 100 * cycle + 25 * century + four := by omega
  have hhundred : all / 100 = 4 * cycle + century := by omega
  have hcycle : all / 400 = cycle := by omega
  omega

theorem marchYear_eq (n : ℤ) :
    let (year, day) := marchYear n
    n = 365 * year + year / 4 - year / 100 + year / 400 + day ∧ 0 ≤ day ∧ day ≤ 365 ∧
      (day = 365 → isLeapYear (year + 1)) := by
  rw [marchYear]
  dsimp only
  generalize hcycle : n / 146097 = cycle
  generalize hinCycle : n % 146097 = inCycle
  generalize hcentury : min (inCycle / 36524) 3 = century
  have hcenturies : 0 ≤ century ∧ century ≤ 3 ∧ 36524 * century ≤ inCycle ∧
      inCycle ≤ 36524 * century + 36524 ∧ (century < 3 → inCycle < 36524 * century + 36524) := by
    omega
  generalize hinCentury : inCycle - 36524 * century = inCentury
  generalize hfour : inCentury / 1461 = four
  generalize hinFour : inCentury % 1461 = inFour
  have hfours : 0 ≤ four ∧ four ≤ 24 ∧ inCentury = 1461 * four + inFour ∧ 0 ≤ inFour ∧
      inFour < 1461 := by omega
  generalize hyear : min (inFour / 365) 3 = year
  have hyears : 0 ≤ year ∧ year ≤ 3 ∧ 365 * year ≤ inFour ∧ inFour ≤ 365 * year + 365 ∧
      (year < 3 → inFour < 365 * year + 365) := by omega
  have hparts := marchYear_parts cycle ⟨hcenturies.1, hcenturies.2.1⟩
    ⟨hfours.1, hfours.2.1⟩ ⟨hyears.1, hyears.2.1⟩
  clear hcentury hfour hinFour hyear
  refine ⟨?_, by omega, by omega, fun hleap => ?_⟩
  · have hn : n = 146097 * cycle + inCycle := by omega
    clear hcycle hinCycle
    dsimp only at hparts
    omega
  · rw [isLeapYear_iff]
    have hthree : year = 3 := by omega
    clear hparts
    omega

/-- The months from March on are 31, 30, 31, 30 and 31 days long, again and again. -/
theorem marchMonth_eq (day : ℕ) (h : day ≤ 365) :
    let (month, dayOfMonth) := marchMonth day
    month ≤ 11 ∧ day + 1 = dayOfMonth + (153 * month + 2) / 5 ∧ 1 ≤ dayOfMonth ∧
      day < (153 * (month + 1) + 2) / 5 := by
  rw [marchMonth]
  dsimp only
  omega

/-- From March to December the date is in the calendar year that its March year starts in. -/
theorem dayNumber_march {year : ℤ} {month dayOfMonth : ℕ} (hmonth : month < 10) :
    dayNumber ⟨year, month + 3, dayOfMonth⟩ =
      365 * year + year / 4 - year / 100 + year / 400 + ((153 * month + 2) / 5 : ℕ) + dayOfMonth -
        719469 := by
  have hleap := daysBeforeYear_leap year
  have hepoch : daysBeforeYear 1970 = 719528 := by decide
  have hbefore : daysBeforeMonth year (month + 3) =
      59 + (if isLeapYear year then 1 else 0) + (153 * month + 2) / 5 := by
    rw [daysBeforeMonth]
    interval_cases month <;> simp [List.range', daysInMonth] <;> split_ifs <;> rfl
  rw [dayNumber, hepoch, hbefore]
  push_cast
  omega

theorem dayNumber_january {year : ℤ} {month dayOfMonth : ℕ} (hmonth : 10 ≤ month)
    (hmonth' : month ≤ 11) :
    dayNumber ⟨year + 1, month - 9, dayOfMonth⟩ =
      365 * year + year / 4 - year / 100 + year / 400 + ((153 * month + 2) / 5 : ℕ) + dayOfMonth -
        719469 := by
  have hnext := daysBeforeYear_succ year
  have hepoch : daysBeforeYear 1970 = 719528 := by decide
  rw [dayNumber, hepoch, hnext, daysBeforeMonth]
  interval_cases month <;> simp [daysInMonth] <;> omega

theorem dayNumber_ofDayNumber (n : ℤ) : (ofDayNumber n).dayNumber = n := by
  have hyear := marchYear_eq (n + 719468)
  rw [ofDayNumber]
  generalize marchYear (n + 719468) = parts at hyear ⊢
  obtain ⟨year, day⟩ := parts
  obtain ⟨hn, hday, hday', -⟩ := hyear
  have hmonth := marchMonth_eq day.toNat (by omega)
  dsimp only
  generalize marchMonth day.toNat = parts at hmonth ⊢
  obtain ⟨month, dayOfMonth⟩ := parts
  obtain ⟨hmonth, hdayOfMonth, -⟩ := hmonth
  dsimp only
  split_ifs with hmarch
  · rw [dayNumber_march hmarch]
    omega
  · rw [dayNumber_january (by omega) hmonth]
    omega

theorem valid_ofDayNumber (n : ℤ) : (ofDayNumber n).Valid := by
  have hyear := marchYear_eq (n + 719468)
  rw [ofDayNumber]
  generalize marchYear (n + 719468) = parts at hyear ⊢
  obtain ⟨year, day⟩ := parts
  obtain ⟨-, hday, hday', hleap⟩ := hyear
  have hmonth := marchMonth_eq day.toNat (by omega)
  dsimp only
  generalize marchMonth day.toNat = parts at hmonth ⊢
  obtain ⟨month, dayOfMonth⟩ := parts
  obtain ⟨hmonth, hdayOfMonth, hfirst, hlast⟩ := hmonth
  dsimp only
  split_ifs with hmarch
  · refine ⟨by dsimp only; omega, hfirst, ?_⟩
    clear hday hleap
    dsimp only
    interval_cases month <;> simp only [daysInMonth] <;> omega
  · refine ⟨by dsimp only; omega, hfirst, ?_⟩
    dsimp only
    obtain rfl | rfl : month = 10 ∨ month = 11 := by omega
    · simp only [daysInMonth]
      omega
    · simp only [daysInMonth]
      split_ifs with hyear
      · omega
      · have : day ≠ 365 := fun hday => hyear (hleap hday)
        omega

/-! ## Years -/

theorem daysBeforeYear_mono {year year' : ℤ} (h : year ≤ year') :
    daysBeforeYear year ≤ daysBeforeYear year' := by
  rcases h.eq_or_lt with rfl | h
  · exact le_rfl
  · rw [daysBeforeYear, daysBeforeYear]
    omega

/-- The last day of a month is in its year. -/
theorem daysBeforeMonth_add (year : ℤ) {month : ℕ} (h : 1 ≤ month) (h' : month ≤ 12) :
    daysBeforeMonth year month + daysInMonth year month ≤
      365 + if isLeapYear year then 1 else 0 := by
  rw [daysBeforeMonth]
  interval_cases month <;> simp [List.range', daysInMonth] <;> split_ifs <;> omega

theorem dayNumber_newYear (year : ℤ) :
    dayNumber ⟨year, 1, 1⟩ = daysBeforeYear year - daysBeforeYear 1970 := by
  simp [dayNumber, daysBeforeMonth]

theorem Valid.dayNumber_bounds {date : Date} (h : date.Valid) :
    dayNumber ⟨date.year, 1, 1⟩ ≤ date.dayNumber ∧
      date.dayNumber < dayNumber ⟨date.year + 1, 1, 1⟩ := by
  have hleap := daysBeforeYear_leap date.year
  have hnext := daysBeforeYear_succ date.year
  have hmonth := daysBeforeMonth_add date.year h.month.1 h.month.2
  have hday := h.day
  rw [dayNumber_newYear, dayNumber_newYear, dayNumber]
  split_ifs at hleap hmonth <;> omega

theorem Valid.lt_year {date : Date} (h : date.Valid) {year : ℤ}
    (hlt : date.dayNumber < dayNumber ⟨year, 1, 1⟩) : date.year < year := by
  by_contra hle
  have hmono := daysBeforeYear_mono (not_lt.mp hle)
  have hbounds := h.dayNumber_bounds
  rw [dayNumber_newYear] at hlt hbounds
  omega

theorem Valid.year_le {date : Date} (h : date.Valid) {year : ℤ}
    (hle : dayNumber ⟨year, 1, 1⟩ ≤ date.dayNumber) : year ≤ date.year := by
  by_contra hlt
  have hmono := daysBeforeYear_mono (Int.add_one_le_of_lt (not_le.mp hlt))
  have hbounds := h.dayNumber_bounds
  rw [dayNumber_newYear] at hle
  rw [dayNumber_newYear, dayNumber_newYear] at hbounds
  omega

/-! ## The order of dates -/

theorem daysBeforeMonth_succ (year : ℤ) {month : ℕ} (h : 1 ≤ month) :
    daysBeforeMonth year (month + 1) = daysBeforeMonth year month + daysInMonth year month := by
  obtain ⟨month, rfl⟩ : ∃ n, month = n + 1 := ⟨month - 1, by omega⟩
  rw [daysBeforeMonth, daysBeforeMonth, Nat.add_sub_cancel, Nat.add_sub_cancel,
    List.range'_1_concat, List.map_append, List.sum_append, List.map_singleton,
    List.sum_singleton, Nat.add_comm 1]

theorem daysBeforeMonth_mono (year : ℤ) {month month' : ℕ} (h : 1 ≤ month) (hle : month ≤ month') :
    daysBeforeMonth year month ≤ daysBeforeMonth year month' := by
  induction month', hle using Nat.le_induction with
  | base => exact le_rfl
  | succ month' hle ih =>
      rw [daysBeforeMonth_succ year (by omega)]
      omega

/-- The later of two dates has the greater day number. -/
theorem Valid.dayNumber_lt {date date' : Date} (h : date.Valid) (h' : date'.Valid)
    (hlt : date.year < date'.year ∨ date.year = date'.year ∧
      (date.month < date'.month ∨ date.month = date'.month ∧ date.day < date'.day)) :
    date.dayNumber < date'.dayNumber := by
  rcases hlt with hyear | ⟨hyear, hmonth | ⟨hmonth, hday⟩⟩
  · have hmono := daysBeforeYear_mono (Int.add_one_le_of_lt hyear)
    have hbounds := h.dayNumber_bounds
    have hbounds' := h'.dayNumber_bounds
    rw [dayNumber_newYear, dayNumber_newYear] at hbounds hbounds'
    omega
  · have hmono := daysBeforeMonth_mono date.year (Nat.le_succ_of_le h.month.1) hmonth
    rw [Nat.succ_eq_add_one, daysBeforeMonth_succ _ h.month.1] at hmono
    have hday := h.day
    have hday' := h'.day
    rw [dayNumber, dayNumber, ← hyear]
    omega
  · rw [dayNumber, dayNumber, ← hyear, ← hmonth]
    omega

end Date

end Leta
