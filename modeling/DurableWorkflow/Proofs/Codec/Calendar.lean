import DurableWorkflow.Time.Timestamp

/-!
# Days and dates

A cycle of 400 years has 146097 days. Counted from March, year `y` of it begins after `yearStart y`
days, and `yearOf` finds the year of a day: it is right at both ends of every year and never falls,
so it is right in between. From this, the date of a day is a day of the calendar, it is counted as
that day, and a later day has a later date.
-/

namespace DurableWorkflow.Date

/-! ### Years of a cycle -/

/-- The days of a cycle before year `y`. -/
def yearStart (y : Nat) : Nat := 365 * y + y / 4 - y / 100 + y / 400

/-- The year of the cycle that has day `d`. -/
def yearOf (d : Nat) : Nat := (d - d / 1460 + d / 36524 - d / 146096) / 365

theorem yearOf_mono {a b : Nat} (h : a ≤ b) : yearOf a ≤ yearOf b := by
  induction h with
  | refl => exact Nat.le_refl _
  | @step n _ ih =>
    -- only one day in 1460 does not count, and it counts where a century ends
    refine Nat.le_trans ih (Nat.div_le_div_right ?_)
    have hcycle (m : Nat) : m / 146096 = m / 36524 / 4 := by rw [Nat.div_div_eq_div_mul]
    rw [hcycle n, hcycle (n + 1)]
    omega

theorem yearOf_yearStart : ∀ y < 400, yearOf (yearStart y) = y := by decide +kernel

theorem yearOf_yearEnd : ∀ y < 400, yearOf (yearStart (y + 1) - 1) = y := by decide +kernel

theorem yearOf_lt {d : Nat} (h : d < 146097) : yearOf d < 400 := by
  have hlast : yearOf 146096 = 399 := by decide
  have := yearOf_mono (Nat.le_of_lt_succ h)
  omega

/-- The day lies in its year. -/
theorem yearStart_le {d : Nat} (h : d < 146097) :
    yearStart (yearOf d) ≤ d ∧ d < yearStart (yearOf d + 1) := by
  have hy := yearOf_lt h
  constructor
  · refine Nat.le_of_not_lt fun hlt => ?_
    cases hyear : yearOf d with
    | zero =>
      simp [hyear, yearStart] at hlt
    | succ y =>
      rw [hyear] at hlt hy
      have := yearOf_mono (Nat.le_sub_one_of_lt hlt)
      rw [yearOf_yearEnd y (by omega)] at this
      omega
  · refine Nat.lt_of_not_le fun hle => ?_
    have := yearOf_mono hle
    by_cases hlast : yearOf d + 1 < 400
    · rw [yearOf_yearStart _ hlast] at this
      omega
    · have hend : yearOf d + 1 = 400 := by omega
      have hstart : yearStart 400 = 146097 := by decide
      rw [hend, hstart] at hle
      omega

theorem yearStart_succ_le (y : Nat) : yearStart (y + 1) ≤ yearStart y + 366 := by
  unfold yearStart
  omega

theorem yearStart_mono {a b : Nat} (h : a ≤ b) : yearStart a ≤ yearStart b := by
  induction h with
  | refl => exact Nat.le_refl _
  | @step n _ ih =>
    refine Nat.le_trans ih ?_
    unfold yearStart
    omega

/-! ### Months of a year -/

/-- The month, counted from March, of a day of the year. -/
def monthOf (d : Nat) : Nat := (5 * d + 2) / 153

/-- The days of a year before a month. -/
def monthStart (m : Nat) : Nat := (153 * m + 2) / 5

theorem monthOf_lt {d : Nat} (h : d < 366) : monthOf d < 12 := by
  unfold monthOf
  omega

theorem monthStart_le (d : Nat) : monthStart (monthOf d) ≤ d := by
  unfold monthStart monthOf
  omega

/-- How many days a month has, the last with its leap day. -/
def monthLength (m : Nat) : Nat :=
  if m = 11 then 29 else if m = 1 ∨ m = 3 ∨ m = 6 ∨ m = 8 then 30 else 31

theorem day_le_monthLength :
    ∀ d < 366, d - monthStart (monthOf d) + 1 ≤ monthLength (monthOf d) := by
  decide +kernel

theorem day_le_of_lt_leapDay :
    ∀ d < 365, monthOf d = 11 → d - monthStart (monthOf d) + 1 ≤ 28 := by
  decide +kernel

/-! ### Dates -/

/-- The days since 1970 from a cycle, a year of it and a day of the year. -/
def dayOf (era : Int) (y d : Nat) : Int := era * 146097 + yearStart y + d - 719468

/-- The date of a day of the year, counted from March. -/
def marchDate (era : Int) (y d : Nat) : Date :=
  ⟨y + era * 400 + (if monthOf d < 10 then 0 else 1),
    if monthOf d < 10 then monthOf d + 3 else monthOf d - 9, d - monthStart (monthOf d) + 1⟩

theorem toDays_marchDate {era : Int} {y d : Nat} (hy : y < 400) (hd : d < 366) :
    (marchDate era y d).toDays = dayOf era y d := by
  have hmonth := monthOf_lt hd
  have hstart := monthStart_le d
  have hyear : (if (marchDate era y d).month ≤ 2 then (marchDate era y d).year - 1
      else (marchDate era y d).year) = y + era * 400 := by
    simp only [marchDate]
    split <;> split <;> omega
  have hm : (if (marchDate era y d).month > 2 then ((marchDate era y d).month : Int) - 3
      else (marchDate era y d).month + 9) = monthOf d := by
    simp only [marchDate]
    split <;> split <;> omega
  have hday : (153 * (monthOf d : Int) + 2) / 5 + (marchDate era y d).day - 1 = d := by
    simp only [marchDate]
    unfold monthStart at hstart ⊢
    omega
  have hera : (y + era * 400 : Int) / 400 = era := by omega
  simp only [toDays, hyear, hm, hday, hera, dayOf]
  unfold yearStart
  omega

theorem isLeap_of_leapDay (era : Int) {y d : Nat} (hy : y < 400)
    (hd : yearStart y + d < yearStart (y + 1)) (h : d = 365) :
    isLeap (y + era * 400 + 1) = true := by
  unfold yearStart at hd
  simp only [isLeap, Bool.and_eq_true, Bool.or_eq_true, beq_iff_eq, bne_iff_ne]
  omega

theorem monthLength_eq (year : Int) : ∀ m < 12, m ≠ 11 →
    monthLength m = daysInMonth year (if m < 10 then m + 3 else m - 9) := by
  intro m hm hne
  have hcases : m = 0 ∨ m = 1 ∨ m = 2 ∨ m = 3 ∨ m = 4 ∨ m = 5 ∨ m = 6 ∨ m = 7 ∨ m = 8 ∨ m = 9 ∨
      m = 10 := by omega
  rcases hcases with rfl | rfl | rfl | rfl | rfl | rfl | rfl | rfl | rfl | rfl | rfl <;> rfl

theorem day_le_daysInMonth (era : Int) {y d : Nat} (hy : y < 400) (hd366 : d < 366)
    (hd : yearStart y + d < yearStart (y + 1)) :
    (marchDate era y d).day ≤ daysInMonth (marchDate era y d).year (marchDate era y d).month := by
  have hmonth := monthOf_lt hd366
  have hle := day_le_monthLength d hd366
  by_cases hfeb : monthOf d = 11
  · -- only a leap year has the last day of February that ends the longest year
    by_cases hleap : d = 365
    · have := isLeap_of_leapDay era hy hd hleap
      simpa [marchDate, hfeb, daysInMonth, this, monthLength] using hle
    · have h28 := day_le_of_lt_leapDay d (by omega) hfeb
      have : 28 ≤ daysInMonth (marchDate era y d).year 2 := by
        simp only [daysInMonth, if_true]
        split <;> decide
      simpa [marchDate, hfeb] using Nat.le_trans h28 this
  · rw [monthLength_eq _ _ hmonth hfeb] at hle
    exact hle

/-- January begins with the day 306 of the year counted from March. -/
theorem monthOf_lt_ten_iff (d : Nat) : monthOf d < 10 ↔ d < 306 := by
  unfold monthOf
  omega

theorem minYear_le {era : Int} {y d : Nat} (hy : y < 400)
    (hd : yearStart y + d < yearStart (y + 1)) (h : toDays ⟨minYear, 1, 1⟩ ≤ dayOf era y d) :
    minYear ≤ (marchDate era y d).year := by
  have hfirst : toDays ⟨minYear, 1, 1⟩ = -96465292 := by decide
  have hend : yearStart (y + 1) ≤ 146097 := yearStart_mono (show y + 1 ≤ 400 by omega)
  have hbefore : y < 256 → yearStart (y + 1) ≤ yearStart 256 := fun hlt => yearStart_mono hlt
  have hstart : yearStart 256 = 93502 := by decide
  simp only [hfirst, dayOf] at h
  simp only [marchDate, minYear, monthOf_lt_ten_iff]
  have hera : -656 ≤ era := by omega
  by_cases hlow : era = -656
  · subst hlow
    have h256 : 256 ≤ y := by omega
    by_cases heq : y = 256
    · subst heq
      split <;> omega
    · split <;> omega
  · split <;> omega

theorem year_le_maxYear {era : Int} {y d : Nat} (hy : y < 400)
    (hd : yearStart y + d < yearStart (y + 1)) (h : dayOf era y d ≤ toDays ⟨maxYear, 12, 31⟩) :
    (marchDate era y d).year ≤ maxYear := by
  have hlast : toDays ⟨maxYear, 12, 31⟩ = 95026236 := by decide
  have hafter : 142 < y → yearStart 143 ≤ yearStart y := fun hlt => yearStart_mono hlt
  have hstart : yearStart 143 = 52229 := by decide
  have hstart' : yearStart 142 = 51864 := by decide
  simp only [hlast, dayOf] at h
  simp only [marchDate, maxYear, monthOf_lt_ten_iff]
  have hera : era ≤ 655 := by omega
  by_cases hhigh : era = 655
  · subst hhigh
    have h142 : y ≤ 142 := by omega
    by_cases heq : y = 142
    · subst heq
      split <;> omega
    · split <;> omega
  · split <;> omega

theorem isValid_marchDate {era : Int} {y d : Nat} (hy : y < 400)
    (hd : yearStart y + d < yearStart (y + 1)) (hmin : toDays ⟨minYear, 1, 1⟩ ≤ dayOf era y d)
    (hmax : dayOf era y d ≤ toDays ⟨maxYear, 12, 31⟩) : (marchDate era y d).isValid = true := by
  have hd366 : d < 366 := by
    have := yearStart_succ_le y
    omega
  have hday := day_le_daysInMonth era hy hd366 hd
  have hmonth := monthOf_lt hd366
  have hmonths : 1 ≤ (marchDate era y d).month ∧ (marchDate era y d).month ≤ 12 := by
    simp only [marchDate]
    split <;> omega
  simp only [isValid, Bool.and_eq_true, decide_eq_true_eq]
  exact ⟨⟨⟨⟨⟨minYear_le hy hd hmin, year_le_maxYear hy hd hmax⟩, hmonths.1⟩, hmonths.2⟩,
    by simp [marchDate]⟩, hday⟩

/-- Every day has a cycle, a year and a day of the year. -/
theorem exists_dayOf (n : Int) : ∃ era : Int, ∃ y d : Nat, y < 400 ∧
    yearStart y + d < yearStart (y + 1) ∧ n = dayOf era y d ∧ ofDays n = marchDate era y d := by
  obtain ⟨k, hk⟩ : ∃ k : Nat, n + 719468 - (n + 719468) / 146097 * 146097 = k :=
    ⟨(n + 719468 - (n + 719468) / 146097 * 146097).toNat, by omega⟩
  have hlt : k < 146097 := by omega
  obtain ⟨hle, hend⟩ := yearStart_le hlt
  refine ⟨(n + 719468) / 146097, yearOf k, k - yearStart (yearOf k), yearOf_lt hlt, by omega, ?_, ?_⟩
  · simp only [dayOf]
    omega
  · have hyear : ((k - k / 1460 + k / 36524 - k / 146096) / 365 : Int) = (yearOf k : Nat) := by
      unfold yearOf
      omega
    have hday : (k : Int) - (365 * (yearOf k : Nat) + (yearOf k : Nat) / 4 - (yearOf k : Nat) / 100)
        = (k - yearStart (yearOf k) : Nat) := by
      have := yearOf_lt hlt
      rw [Int.natCast_sub hle]
      unfold yearStart
      omega
    simp only [ofDays, hk, hyear, hday]
    have hmonths : monthOf (k - yearStart (yearOf k)) < 12 := by
      have := yearStart_succ_le (yearOf k)
      exact monthOf_lt (by omega)
    clear hk hlt hle hend hyear hday
    generalize k - yearStart (yearOf k) = d at hmonths ⊢
    have hmonth : (5 * (d : Int) + 2) / 153 = (monthOf d : Nat) := by
      unfold monthOf
      omega
    have hstart : (153 * ((monthOf d : Nat) : Int) + 2) / 5 = (monthStart (monthOf d) : Nat) := by
      unfold monthStart
      omega
    have := monthStart_le d
    simp only [hmonth, hstart, marchDate, Date.mk.injEq]
    refine ⟨?_, ?_, by omega⟩
    · split <;> split <;> split <;> omega
    · split <;> split <;> omega

/-- The date of a day is counted as that day. -/
theorem toDays_ofDays (n : Int) : (ofDays n).toDays = n := by
  obtain ⟨era, y, d, hy, hd, rfl, hof⟩ := exists_dayOf n
  have := yearStart_succ_le y
  rw [hof, toDays_marchDate hy (by omega)]

/-- The date of a day within the calendar is a day of the calendar. -/
theorem isValid_ofDays {n : Int} (hmin : toDays ⟨minYear, 1, 1⟩ ≤ n)
    (hmax : n ≤ toDays ⟨maxYear, 12, 31⟩) : (ofDays n).isValid = true := by
  obtain ⟨era, y, d, hy, hd, rfl, hof⟩ := exists_dayOf n
  rw [hof]
  exact isValid_marchDate hy hd hmin hmax

/-! ### Later days -/

/-- Years count most, and days least. -/
def Before (a b : Date) : Prop :=
  a.year < b.year ∨ a.year = b.year ∧ (a.month < b.month ∨ a.month = b.month ∧ a.day < b.day)

theorem monthOf_mono {a b : Nat} (h : a ≤ b) : monthOf a ≤ monthOf b := by
  unfold monthOf
  omega

/-- A later day of the same year, counted from March. -/
theorem marchDate_before_of_day {era : Int} {y d d' : Nat} (hd : d' < 366) (h : d < d') :
    (marchDate era y d).Before (marchDate era y d') := by
  have hmono := monthOf_mono (Nat.le_of_lt h)
  have hlast := monthOf_lt hd
  have hstart := monthStart_le d
  simp only [Before, marchDate]
  rcases Nat.eq_or_lt_of_le hmono with hsame | hlt
  · rw [← hsame]
    exact .inr ⟨rfl, .inr ⟨rfl, by omega⟩⟩
  · split <;> split <;> omega

/-- A day of a later year. -/
theorem marchDate_before_of_year {era era' : Int} {y y' d d' : Nat} (hd : d < 366)
    (h : y + era * 400 < y' + era' * 400) :
    (marchDate era y d).Before (marchDate era' y' d') := by
  have hlast := monthOf_lt hd
  simp only [Before, marchDate]
  split <;> split <;> omega

/-- A later day is one of a later year, or a later one of the same year. -/
theorem year_lt_of_dayOf_lt {era era' : Int} {y y' d d' : Nat} (hy : y < 400) (hy' : y' < 400)
    (hd : yearStart y + d < yearStart (y + 1)) (hd' : yearStart y' + d' < yearStart (y' + 1))
    (h : dayOf era y d < dayOf era' y' d') :
    y + era * 400 < y' + era' * 400 ∨ era = era' ∧ y = y' ∧ d < d' := by
  have hend : yearStart (y + 1) ≤ 146097 := yearStart_mono (show y + 1 ≤ 400 by omega)
  have hend' : yearStart (y' + 1) ≤ 146097 := yearStart_mono (show y' + 1 ≤ 400 by omega)
  have hlater : y' < y → yearStart (y' + 1) ≤ yearStart y := fun hlt => yearStart_mono hlt
  simp only [dayOf] at h
  have hera : era ≤ era' := by omega
  rcases Int.lt_or_eq_of_le hera with hlt | rfl
  · exact .inl (by omega)
  · rcases Nat.lt_trichotomy y y' with hlt | rfl | hgt
    · exact .inl (by omega)
    · exact .inr ⟨rfl, rfl, by omega⟩
    · have := hlater hgt
      omega

/-- A later day has a later date. -/
theorem ofDays_before {m n : Int} (h : m < n) : (ofDays m).Before (ofDays n) := by
  obtain ⟨era, y, d, hy, hd, rfl, hm⟩ := exists_dayOf m
  obtain ⟨era', y', d', hy', hd', rfl, hn⟩ := exists_dayOf n
  rw [hm, hn]
  have hlength := yearStart_succ_le y
  rcases year_lt_of_dayOf_lt hy hy' hd hd' h with hyear | ⟨rfl, rfl, hday⟩
  · exact marchDate_before_of_year (by omega) hyear
  · exact marchDate_before_of_day (by omega) hday

end DurableWorkflow.Date
