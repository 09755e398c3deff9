import Mathlib.Tactic

/-!
# The proleptic Gregorian calendar

Days are counted from 1 January 1970. A date is a year, a month and a day that
the month has. Each day has one date, and a date comes back within eight years,
the longest wait being that for 29 February across a century without leap day.
-/

namespace Calendar
set_option linter.unusedSimpArgs false

/-- A year with 29 February. -/
def Leap (year : Int) : Prop := year % 4 = 0 ∧ (year % 100 ≠ 0 ∨ year % 400 = 0)

instance (year : Int) : Decidable (Leap year) := by unfold Leap; infer_instance

def month_days (year : Int) : Nat → Int
  | 2 => if Leap year then 29 else 28
  | 4 | 6 | 9 | 11 => 30
  | _ => 31

/-- The days between 1 January of the year 1 and 1 January of the year. -/
def year_start (year : Int) : Int := 365 * (year - 1) + (year - 1) / 4 - (year - 1) / 100 + (year - 1) / 400

/-- The days of the year before the month. -/
def month_start (year : Int) : Nat → Int
  | 0 | 1 => 0
  | month + 2 => month_start year (month + 1) + month_days year (month + 1)

structure Date where
  year : Int
  month : Nat
  day : Nat
  month_exists : 1 ≤ month ∧ month ≤ 12
  day_exists : 1 ≤ day ∧ (day : Int) ≤ month_days year month

/-- The days since the epoch. -/
def Date.number (date : Date) : Int :=
  year_start date.year + month_start date.year date.month + (date.day - 1) - year_start 1970

/-- The day of the week, which is zero on Sundays. The epoch was a Thursday. -/
def Date.weekday (date : Date) : Nat := ((date.number + 4) % 7).toNat

/-! ## Years and months -/

theorem year_start_succ (year : Int) : year_start (year + 1) = year_start year + if Leap year then 366 else 365 := by
  unfold year_start Leap
  split_ifs <;> omega

theorem year_start_le {year other : Int} (le : year ≤ other) : year_start year ≤ year_start other := by
  unfold year_start
  omega

theorem month_days_pos (year : Int) (month : Nat) : 28 ≤ month_days year month ∧ month_days year month ≤ 31 := by
  unfold month_days
  split <;> (try split_ifs) <;> omega

theorem month_start_before {year : Int} {month other : Nat} (positive : 1 ≤ month) (before : month < other) :
    month_start year month + month_days year month ≤ month_start year other := by
  induction other,before using Nat.le_induction with
  | base =>
    obtain ⟨month,rfl⟩ := Nat.exists_eq_add_of_le' positive
    exact le_of_eq rfl
  | succ other after ih =>
    obtain ⟨other,rfl⟩ := Nat.exists_eq_add_of_le' (positive.trans (Nat.le_of_lt after))
    have days := month_days_pos year (other + 1)
    rw [month_start]
    omega

theorem month_start_nonneg (year : Int) (month : Nat) : 0 ≤ month_start year month := by
  induction month using month_start.induct with
  | case1 | case2 => simp [month_start]
  | case3 month ih =>
    have days := month_days_pos year (month + 1)
    rw [month_start]
    omega

/-- Every month ends in its year. -/
theorem month_start_within (year : Int) {month : Nat} (exists_month : 1 ≤ month ∧ month ≤ 12) :
    month_start year month + month_days year month ≤ if Leap year then 366 else 365 := by
  have whole : month_start year 13 = if Leap year then 366 else 365 := by
    simp only [month_start,month_days]
    split_ifs <;> norm_num
  rw [← whole]
  exact month_start_before exists_month.1 (by omega)

/-! ## One date for a day -/

theorem Date.within (date : Date) :
    year_start date.year ≤ date.number + year_start 1970 ∧ date.number + year_start 1970 < year_start (date.year + 1) := by
  have first := month_start_nonneg date.year date.month
  have ends := month_start_within date.year date.month_exists
  have day := date.day_exists
  rw [year_start_succ,number]
  omega

theorem Date.number_injective {a b : Date} (same : a.number = b.number) : a = b := by
  obtain ⟨year,month,day,month_exists,day_exists⟩ := a
  obtain ⟨year',month',day',month_exists',day_exists'⟩ := b
  have within := Date.within ⟨year,month,day,month_exists,day_exists⟩
  have within' := Date.within ⟨year',month',day',month_exists',day_exists'⟩
  rw [same] at within
  have years : year = year' := by
    by_contra differ
    rcases lt_or_gt_of_ne differ with before | behind
    · have := @year_start_le (year + 1) year' before
      dsimp only at within within'
      omega
    · have := @year_start_le (year' + 1) year behind
      dsimp only at within within'
      omega
  subst years
  simp only [number] at same
  have months : month = month' := by
    by_contra differ
    rcases Nat.lt_or_gt_of_ne differ with before | behind
    · have := @month_start_before year _ _ month_exists.1 before
      omega
    · have := @month_start_before year _ _ month_exists'.1 behind
      omega
  subst months
  have days : day = day' := by omega
  subst days
  rfl

/-! ## The day after -/

def Date.next (date : Date) : Date :=
  if later : (date.day : Int) < month_days date.year date.month then
    ⟨date.year,date.month,date.day + 1,date.month_exists,by omega,by omega⟩
  else if more : date.month < 12 then
    ⟨date.year,date.month + 1,1,by omega,by omega,by have := month_days_pos date.year (date.month + 1); omega⟩
  else ⟨date.year + 1,1,1,by omega,by omega,by have := month_days_pos (date.year + 1) 1; omega⟩

theorem Date.number_next (date : Date) : date.next.number = date.number + 1 := by
  have day := date.day_exists
  obtain ⟨month,is⟩ := Nat.exists_eq_add_of_le' date.month_exists.1
  unfold Date.next
  split
  · simp only [Date.number]
    omega
  · split
    · simp only [Date.number,is,month_start]
      rw [is] at day
      rename_i last _
      rw [is] at last
      omega
    · rename_i last december
      have twelve : date.month = 12 := by
        have := date.month_exists.2
        omega
      rw [twelve] at last day
      have whole : month_start date.year 12 + 31 = if Leap date.year then 366 else 365 := by
        simp only [month_start,month_days]
        split_ifs <;> norm_num
      have year := year_start_succ date.year
      have long : month_days date.year 12 = 31 := rfl
      simp only [Date.number,twelve]
      rw [month_start]
      omega

/-! ## The day of the week, from the date alone -/

/-- How far the days of the week are shifted at the beginning of a month, in a
    year that begins in March. -/
def month_shift : Nat → Int
  | 1 => 0 | 2 => 3 | 3 => 2 | 4 => 5 | 5 => 0 | 6 => 3 | 7 => 5 | 8 => 1 | 9 => 4 | 10 => 6 | 11 => 2 | _ => 4

/-- The day of the week of a date, which is zero on Sundays. -/
def day_of_week (year : Int) (month day : Nat) : Int :=
  let year := if month < 3 then year - 1 else year
  (year + year / 4 - year / 100 + year / 400 + month_shift month + day) % 7

theorem Date.day_of_week (date : Date) : Calendar.day_of_week date.year date.month date.day = (date.number + 4) % 7 := by
  obtain ⟨year,month,day,⟨first,last⟩,day_exists⟩ := date
  have next := year_start_succ year
  simp only [year_start,add_sub_cancel_right] at next
  by_cases leap : Leap year
  · rw [if_pos leap] at next
    simp only [Date.number,Calendar.day_of_week,year_start]
    interval_cases month <;> norm_num [month_start,month_days,month_shift,leap] <;> omega
  · rw [if_neg leap] at next
    simp only [Date.number,Calendar.day_of_week,year_start]
    interval_cases month <;> norm_num [month_start,month_days,month_shift,leap] <;> omega

theorem exists_year (n : Int) : ∃ year, year_start year ≤ n ∧ n < year_start (year + 1) := by
  have bounded : ∀ year, year_start year ≤ n → year ≤ max 1 (n + 1) := by
    intro year reached
    unfold year_start at reached
    omega
  have some_year : ∃ year, year_start year ≤ n := by
    refine ⟨min n 0,?_⟩
    unfold year_start
    omega
  obtain ⟨year,reached,greatest⟩ := Int.exists_greatest_of_bdd ⟨_,bounded⟩ some_year
  refine ⟨year,reached,?_⟩
  by_contra next
  have := greatest (year + 1) (by omega)
  omega

/-! ## The next time a date comes back -/

theorem exists_leap (year : Int) : ∃ other, year ≤ other ∧ other ≤ year + 7 ∧ Leap other := by
  by_cases leap : Leap (year + -year % 4)
  · exact ⟨year + -year % 4,by omega,by omega,leap⟩
  · refine ⟨year + -year % 4 + 4,by omega,by omega,?_⟩
    unfold Leap at *
    omega

/-- A day that its month has in every year. -/
theorem month_days_common {year : Int} {month : Nat} {day : Int} (existing : day ≤ month_days year month)
    (common : ¬ (month = 2 ∧ day = 29)) (other : Int) : day ≤ month_days other month := by
  unfold month_days at *
  split at existing
  · simp only [true_and] at common
    split_ifs at * <;> omega
  all_goals simpa using existing

/-- At most one day of a year is a leap day, and two leap years are never neighbours. -/
theorem month_start_next_year (year : Int) (month : Nat) (exists_month : 1 ≤ month ∧ month ≤ 12) :
    month_start (year + 1) month ≤ month_start year month + if Leap year then 0 else 1 := by
  have apart : Leap year → ¬ Leap (year + 1) := by unfold Leap; omega
  obtain ⟨first,last⟩ := exists_month
  interval_cases month <;> simp only [month_start,month_days] <;> split_ifs <;> omega

theorem next_common (date : Date) (common : ¬ (date.month = 2 ∧ date.day = 29)) (n : Int) :
    ∃ next : Date, next.month = date.month ∧ next.day = date.day ∧ n < next.number ∧ next.number ≤ n + 366 := by
  have existing (year : Int) : (date.day : Int) ≤ month_days year date.month :=
    month_days_common date.day_exists.2 (by omega) year
  obtain ⟨year,begun,ends⟩ := exists_year (n + year_start 1970)
  by_cases later : n < Date.number ⟨year,date.month,date.day,date.month_exists,date.day_exists.1,existing year⟩
  · refine ⟨⟨year,date.month,date.day,date.month_exists,date.day_exists.1,existing year⟩,rfl,rfl,later,?_⟩
    have within := Date.within ⟨year,date.month,date.day,date.month_exists,date.day_exists.1,existing year⟩
    have long := year_start_succ year
    dsimp only at within
    split_ifs at long <;> omega
  · refine ⟨⟨year + 1,date.month,date.day,date.month_exists,date.day_exists.1,existing (year + 1)⟩,rfl,rfl,?_,?_⟩
    · have within := Date.within ⟨year + 1,date.month,date.day,date.month_exists,date.day_exists.1,existing (year + 1)⟩
      dsimp only at within
      omega
    · have months := month_start_next_year year date.month date.month_exists
      have long := year_start_succ year
      simp only [Date.number] at *
      split_ifs at long months <;> omega

theorem next_leap_day (n : Int) :
    ∃ next : Date, next.month = 2 ∧ next.day = 29 ∧ n < next.number ∧ next.number ≤ n + 2922 := by
  obtain ⟨year,begun,ends⟩ := exists_year (n + year_start 1970)
  -- The first year whose 29 February, if it has one, is still to come.
  obtain ⟨first,still,close⟩ : ∃ first, n + year_start 1970 < year_start first + 59 ∧
      year_start (first + 7) + 59 ≤ n + year_start 1970 + 2922 := by
    by_cases passed : n + year_start 1970 < year_start year + 59
    · refine ⟨year,passed,?_⟩
      unfold year_start at *
      omega
    · refine ⟨year + 1,by omega,?_⟩
      unfold year_start at *
      omega
  obtain ⟨other,from_first,to_last,leap⟩ := exists_leap first
  refine ⟨⟨other,2,29,by omega,by simp [month_days,leap]⟩,rfl,rfl,?_,?_⟩
  · have := year_start_le from_first
    simp only [Date.number,month_start,month_days]
    omega
  · have := year_start_le to_last
    simp only [Date.number,month_start,month_days]
    omega

/-- Every date comes back within eight years. -/
theorem next_date (date : Date) (n : Int) :
    ∃ next : Date, next.month = date.month ∧ next.day = date.day ∧ n < next.number ∧ next.number ≤ n + 2922 := by
  by_cases leap_day : date.month = 2 ∧ date.day = 29
  · rw [leap_day.1,leap_day.2]
    exact next_leap_day n
  · obtain ⟨next,month,day,after,close⟩ := next_common date leap_day n
    exact ⟨next,month,day,after,by omega⟩

/-- Every day of the week comes back in the month within two years. -/
theorem next_weekday (date : Date) (n : Int) :
    ∃ next : Date, next.month = date.month ∧ next.weekday = date.weekday ∧ n < next.number ∧ next.number ≤ n + 372 := by
  have days := month_days_pos date.year date.month
  obtain ⟨first,month,day,after,close⟩ := next_common ⟨date.year,date.month,1,date.month_exists,by omega⟩ (by simp) n
  dsimp only at month day
  -- The first days of the month have every day of the week among them.
  have shift : ∃ k : Nat, k < 7 ∧ ((first.number + k + 4) % 7).toNat = date.weekday := by
    refine ⟨((date.number - first.number) % 7).toNat,by omega,?_⟩
    unfold Date.weekday
    omega
  obtain ⟨k,small,falls⟩ := shift
  have long := month_days_pos first.year first.month
  refine ⟨⟨first.year,first.month,1 + k,first.month_exists,by omega⟩,month,?_,?_,?_⟩
  · rw [← falls,Date.weekday]
    simp only [Date.number,day]
    omega
  · simp only [Date.number,day] at *
    omega
  · simp only [Date.number,day] at *
    omega

end Calendar
