import VoodooStore.Cron
import VoodooStore.Lib.Calendar

/-!
# Dates of the scheduler

`civil_from_days` agrees with the calendar. Its years begin on 1 March, so that
the leap day is their last day, and an era has 400 of them.
-/

namespace VoodooStore
open Calendar
set_option linter.unusedSimpArgs false

/-- The day of the era on which a year of the era begins. -/
def era_year_start (year : Nat) : Nat := 365 * year + year / 4 - year / 100 + year / 400

/-- The year of the era, from the day of the era. -/
def year_of_era (day : Nat) : Nat := (day - day / 1460 + day / 36524 - day / 146096) / 365

theorem year_of_era_mono {day later : Nat} (le : day ≤ later) : year_of_era day ≤ year_of_era later := by
  unfold year_of_era
  apply Nat.div_le_div_right
  induction later,le using Nat.le_induction with
  | base => exact le_rfl
  | succ later _ ih => omega

/-- The formula is right on the first and the last day of each year. -/
theorem year_of_era_ends : ∀ year < 400, year_of_era (era_year_start year) = year ∧
    year_of_era (era_year_start (year + 1) - 1) = year := by
  decide +kernel

theorem year_of_era_within {day : Nat} (inside : day < 146097) :
    year_of_era day < 400 ∧ era_year_start (year_of_era day) ≤ day ∧ day < era_year_start (year_of_era day + 1) := by
  have small : year_of_era day ≤ 399 := year_of_era_mono (Nat.le_of_lt_succ inside)
  refine ⟨by omega,?_,?_⟩
  · by_contra before
    cases found : year_of_era day with
    | zero =>
      rw [found] at before
      exact before (Nat.zero_le _)
    | succ year =>
      rw [found] at before small
      have earlier : day ≤ era_year_start (year + 1) - 1 := by omega
      have := year_of_era_mono earlier
      rw [(year_of_era_ends year (by omega)).2] at this
      omega
  · by_contra behind
    by_cases last : year_of_era day = 399
    · rw [last] at behind
      exact behind inside
    · have := year_of_era_mono (Nat.not_lt.mp behind)
      rw [(year_of_era_ends _ (by omega)).1] at this
      omega

theorem month_from_march (year : Int) {mp : Nat} (to_december : mp < 10) :
    month_start year (mp + 3) = (153 * mp + 2) / 5 + 59 + (if Leap year then 1 else 0) ∧
      month_days year (mp + 3) = (153 * (mp + 1) + 2) / 5 - (153 * mp + 2) / 5 := by
  interval_cases mp <;> simp only [month_start,month_days] <;> split_ifs <;> constructor <;> norm_num

/-- The month and the day from the day of a year that begins on 1 March. -/
theorem march_date (year doy : Int) (first : 0 ≤ doy) (last : doy ≤ 364 ∨ doy = 365 ∧ Leap (year + 1)) :
    ∃ date : Date, date.number + 719468 = 365 * year + year / 4 - year / 100 + year / 400 + doy ∧
      (date.month : Int) = (5 * doy + 2) / 153 + (if (5 * doy + 2) / 153 < 10 then 3 else -9) ∧
      date.year = year + (if (date.month : Int) ≤ 2 then 1 else 0) ∧
      (date.day : Int) = doy - (153 * ((5 * doy + 2) / 153) + 2) / 5 + 1 := by
  obtain ⟨mp,months⟩ : ∃ mp : Nat, (5 * doy + 2) / 153 = mp := ⟨((5 * doy + 2) / 153).toNat,by omega⟩
  have epoch : year_start 1970 = 719162 := by decide
  rw [months]
  by_cases to_december : mp < 10
  · obtain ⟨start,long⟩ := month_from_march year to_december
    refine ⟨⟨year,mp + 3,(doy - (153 * mp + 2) / 5 + 1).toNat,by omega,by omega,by omega⟩,?_,?_,?_,?_⟩
    · simp only [Date.number,start,epoch,year_start]
      unfold Leap
      split_ifs <;> omega
    · rw [if_pos (by omega)]
      push_cast
      rfl
    · rw [if_neg (by push_cast; omega),add_zero]
    · dsimp only
      omega
  · have january_or_february : mp = 10 ∨ mp = 11 := by omega
    rcases january_or_february with rfl | rfl
    · refine ⟨⟨year + 1,1,(doy - 305).toNat,by omega,by omega,by simp only [month_days]; omega⟩,?_,?_,?_,?_⟩
      · simp only [Date.number,month_start,epoch,year_start]
        omega
      · norm_num
      · norm_num
      · dsimp only
        omega
    · have ends : doy - 336 ≤ month_days (year + 1) 2 := by
        rw [month_days]
        split_ifs with leap
        · omega
        · have : doy ≤ 364 := last.resolve_right (fun extra => leap extra.2)
          omega
      refine ⟨⟨year + 1,2,(doy - 336).toNat,by omega,by omega,by omega⟩,?_,?_,?_,?_⟩
      · simp only [Date.number,month_start,month_days,epoch,year_start]
        omega
      · norm_num
      · norm_num
      · dsimp only
        omega

theorem era_year_start_succ (year : Nat) :
    (era_year_start (year + 1) : Int) = era_year_start year + if Leap (year + 1) then 366 else 365 := by
  unfold era_year_start Leap
  split_ifs <;> omega

theorem leap_periodic (year era : Int) : Leap (year + era * 400) ↔ Leap year := by
  unfold Leap
  omega

/-- The calendar repeats itself from era to era. -/
theorem era_year_start_periodic (year : Nat) (era : Int) :
    365 * (year + era * 400) + (year + era * 400) / 4 - (year + era * 400) / 100 + (year + era * 400) / 400 =
      era_year_start year + era * 146097 := by
  have fours : (year + era * 400) / 4 = year / 4 + era * 100 := by omega
  have centuries : (year + era * 400) / 100 = year / 100 + era * 4 := by omega
  have eras : (year + era * 400) / 400 = year / 400 + era := by omega
  rw [fours,centuries,eras]
  unfold era_year_start
  omega

/-- The conversion gives the date of the day. -/
theorem civil_from_days_date {days : Int} (since : 0 ≤ days) :
    ∃ date : Date, date.number = days ∧ civil_from_days days = (date.year,(date.month : Int),(date.day : Int)) := by
  obtain ⟨doe,era,inside,split⟩ : ∃ (doe : Nat) (era : Int), doe < 146097 ∧ days + 719468 = doe + era * 146097 :=
    ⟨((days + 719468) % 146097).toNat,(days + 719468) / 146097,by omega,by omega⟩
  obtain ⟨bound,begun,ends⟩ := year_of_era_within inside
  obtain ⟨yoe,years⟩ : ∃ yoe, year_of_era doe = yoe := ⟨_,rfl⟩
  rw [years] at bound begun ends
  have start : (era_year_start yoe : Int) = 365 * yoe + yoe / 4 - yoe / 100 := by
    unfold era_year_start
    omega
  have era_start := era_year_start_periodic yoe era
  have next := era_year_start_succ yoe
  have last : (doe : Int) - era_year_start yoe ≤ 364 ∨ (doe : Int) - era_year_start yoe = 365 ∧ Leap (yoe + era * 400 + 1) := by
    by_cases leap : Leap (yoe + 1)
    · rw [if_pos leap] at next
      by_cases extra : (doe : Int) - era_year_start yoe = 365
      · refine .inr ⟨extra,?_⟩
        rw [add_right_comm,leap_periodic]
        exact leap
      · exact .inl (by omega)
    · rw [if_neg leap] at next
      exact .inl (by omega)
  obtain ⟨date,number,month,year,day⟩ := march_date (yoe + era * 400) (doe - era_year_start yoe) (by omega) last
  refine ⟨date,by omega,?_⟩
  rw [start] at day month
  have the_era : (if days + 719468 ≥ 0 then days + 719468 else days + 719468 - 146096) / 146097 = era := by
    rw [if_pos (by omega)]
    omega
  have the_day : days + 719468 - era * 146097 = doe := by omega
  have the_year : ((doe : Int) - (doe : Int).tdiv 1460 + (doe : Int).tdiv 36524 - (doe : Int).tdiv 146096) / 365 = yoe := by
    rw [← years,year_of_era]
    simp only [Int.tdiv_eq_ediv_of_nonneg (Int.natCast_nonneg doe)]
    omega
  simp only [civil_from_days,the_era,the_day,the_year,Int.tdiv_eq_ediv_of_nonneg (Int.natCast_nonneg yoe)]
  rw [← day,← month,← year]

/-! ## The calendar as a whole -/

/-- The date as the conversion spells it. -/
def civil (date : Date) : Int × Int × Int := (date.year,(date.month : Int),(date.day : Int))

/-- What a day and the next one are converted into: the date of the day, the date
    after it, and back again. Its day of the week is the one that the code computes. -/
structure GregorianDay (days : Int) (date : Date) : Prop where
  converted : civil_from_days days = civil date
  inverse : date.number = days
  successor : civil_from_days (days + 1) = civil date.next
  weekday : (((days + 4) % 7).as_u8.toNat : Int) = day_of_week date.year date.month date.day

/-- The conversion is the Gregorian calendar, from the epoch on. -/
theorem civil_from_days_gregorian : civil_from_days 0 = (1970,1,1) ∧
    (∀ days, 0 ≤ days → ∃ date, GregorianDay days date) ∧ ∀ date : Date, 0 ≤ date.number → civil_from_days date.number = civil date := by
  have back : ∀ date : Date, 0 ≤ date.number → civil_from_days date.number = civil date := by
    intro date since
    obtain ⟨other,number,converted⟩ := civil_from_days_date since
    rw [converted,Date.number_injective number]
    rfl
  refine ⟨by decide,?_,back⟩
  intro days since
  obtain ⟨date,rfl,converted⟩ := civil_from_days_date since
  refine ⟨date,converted,rfl,?_,?_⟩
  · rw [← Date.number_next]
    exact back date.next (by rw [Date.number_next]; omega)
  · rw [Date.day_of_week,Int.as_u8,UInt8.toNat_ofNat']
    omega

theorem leap_day_converted : civil_from_days 11016 = (2000,2,29) ∧ ∃ date, GregorianDay 11016 date :=
  ⟨by decide,civil_from_days_gregorian.2.1 11016 (by decide)⟩

end VoodooStore
