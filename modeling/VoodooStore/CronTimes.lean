import VoodooStore.CronDates

/-!
# The times of a cron expression

What an expression means is read off its text: each field names numbers, and a
minute of the calendar is a time of the expression when its parts are named. The
search of the code is exact for this meaning. No expression that has a time at
all is given up at the horizon, as every date and every day of the week of a
month comes back before.
-/

namespace VoodooStore
open Effects Calendar
set_option linter.unusedSimpArgs false

/-! ## What an expression means -/

/-- `number` is reached from `value` in steps of `step` without passing `stop`. -/
def Strides (value stop step number : Nat) : Prop :=
  value ≤ number ∧ number ≤ stop ∧ (number - value) % step = 0

instance (value stop step number : Nat) : Decidable (Strides value stop step number) := by unfold Strides; infer_instance

/-- A part of a field, such as `10-30/5`, names what its steps reach. -/
def PartNames (input : Str) (min max : UInt8) (part : Str) (value : Nat) : Prop :=
  ∃ base step start stop, parse_step part input = .ok (base,step) ∧ parse_range base min max input = .ok (start,stop) ∧
    Strides start.toNat stop.toNat step.toNat value

def Names (input : Str) (min max : UInt8) (value : Nat) : Prop :=
  ∃ part ∈ input.splitOn ',', PartNames input min max part value

/-- Two days that are both given are alternatives. -/
def NamesDay (day_of_month day_of_week : Str) (date : Date) : Prop :=
  match decide (day_of_month = ['*']), decide (day_of_week = ['*']) with
  | true, true => True
  | true, false => Names day_of_week 0 6 date.weekday
  | false, true => Names day_of_month 1 31 date.day
  | false, false => Names day_of_month 1 31 date.day ∨ Names day_of_week 0 6 date.weekday

/-- The time, in milliseconds since the epoch, is a minute that the expression names. -/
def Occurs (expression : Str) (time : Int) : Prop :=
  ∃ minute hour day_of_month month day_of_week, split_whitespace expression = [minute,hour,day_of_month,month,day_of_week] ∧
    ∃ (date : Date) (h m : Nat), h < 24 ∧ m < 60 ∧ time = ((date.number * 24 + h) * 60 + m) * 60000 ∧
      Names minute 0 59 m ∧ Names hour 0 23 h ∧ Names month 1 12 date.month ∧ NamesDay day_of_month day_of_week date

/-! ## Fields -/

theorem allow_range_length (min stop step : UInt8) (fuel : Nat) (allowed : List Bool) (value : UInt8) :
    (allow_range min stop step fuel allowed value).length = allowed.length := by
  induction fuel generalizing allowed value with
  | zero => rfl
  | succ fuel ih =>
    simp only [allow_range]
    split
    · split
      · exact List.length_set
      · rw [ih,List.length_set]
    · exact List.length_set

theorem strides_next {value stop step number : Nat} (advances : 0 < step) (below : value ≤ stop) :
    Strides value stop step number ↔ number = value ∨ Strides (value + step) stop step number := by
  unfold Strides
  constructor
  · rintro ⟨above,ends,distance⟩
    by_cases first : number = value
    · exact .inl first
    · have far : step ≤ number - value := Nat.le_of_dvd (by omega) (Nat.dvd_of_mod_eq_zero distance)
      refine .inr ⟨by omega,ends,?_⟩
      rw [← Nat.sub_sub,← Nat.mod_eq_sub_mod far]
      exact distance
  · rintro (rfl | ⟨above,ends,distance⟩)
    · exact ⟨le_rfl,below,by simp⟩
    · refine ⟨by omega,ends,?_⟩
      rw [Nat.mod_eq_sub_mod (by omega),Nat.sub_sub]
      exact distance

/-- The loop allows what it steps on, and leaves the rest alone. -/
theorem allow_range_getD (min stop step : UInt8) (fuel : Nat) (allowed : List Bool) (value : UInt8) (index : Nat)
    (advances : 0 < step.toNat) (above : min ≤ value) (below : value ≤ stop)
    (room : stop.toNat - min.toNat < allowed.length) (enough : stop.toNat - value.toNat < fuel) :
    (allow_range min stop step fuel allowed value).getD index false =
      (allowed.getD index false || decide (Strides value.toNat stop.toNat step.toNat (min.toNat + index))) := by
  induction fuel generalizing allowed value with
  | zero => omega
  | succ fuel ih =>
    have above_nat : min.toNat ≤ value.toNat := above
    have below_nat : value.toNat ≤ stop.toNat := below
    have place : (value - min).toNat = value.toNat - min.toNat := UInt8.toNat_sub_of_le _ _ above
    have marked : (allowed.set (value - min).toNat true).getD index false =
        (allowed.getD index false || decide (min.toNat + index = value.toNat)) := by
      rw [place,List.getD_eq_getElem?_getD,List.getElem?_set]
      by_cases here : value.toNat - min.toNat = index
      · have inside : index < allowed.length := by omega
        have reached : min.toNat + index = value.toNat := by omega
        simp [here,inside,reached]
      · have passed : min.toNat + index ≠ value.toNat := by omega
        simp [here,passed]
    -- Behind the last step nothing more is reached.
    have last (passed : stop.toNat < value.toNat + step.toNat) :
        ¬ Strides (value.toNat + step.toNat) stop.toNat step.toNat (min.toNat + index) := by
      unfold Strides
      omega
    simp only [allow_range]
    rw [decide_eq_decide.mpr (strides_next advances below_nat),Bool.decide_or,← Bool.or_assoc,← marked]
    by_cases fits : value.toNat + step.toNat < 256
    · have sum : (value + step).toNat = value.toNat + step.toNat := by
        rw [UInt8.toNat_add]
        exact Nat.mod_eq_of_lt fits
      rw [if_pos fits]
      by_cases ends : value + step > stop
      · have passed : stop.toNat < (value + step).toNat := ends
        rw [if_pos ends,decide_eq_false (last (by omega)),Bool.or_false]
      · have further : (value + step).toNat ≤ stop.toNat := UInt8.not_lt.mp ends
        rw [if_neg ends,ih _ _ (UInt8.le_iff_toNat_le.mpr (by omega)) (UInt8.not_lt.mp ends)
          (by rw [List.length_set]; exact room) (by omega),sum]
    · have small := stop.toNat_lt
      rw [if_neg fits,decide_eq_false (last (by omega)),Bool.or_false]

theorem parse_value_ok {value original : Str} {min max parsed : UInt8} (ok : parse_value value min max original = .ok parsed) :
    min ≤ parsed ∧ parsed ≤ max := by
  obtain ⟨read,_,checked⟩ := bind_ok_iff.mp ok
  split at checked
  · cases checked
  · rename_i inside
    cases checked
    exact ⟨UInt8.not_lt.mp (fun below => inside (.inl below)),UInt8.not_lt.mp (fun above => inside (.inr above))⟩

theorem parse_range_ok {base input : Str} {min max start stop : UInt8}
    (ok : parse_range base min max input = .ok (start,stop)) : min ≤ start ∧ stop ≤ max := by
  unfold parse_range at ok
  split at ok
  · cases ok
    exact ⟨UInt8.le_refl _,UInt8.le_refl _⟩
  · split at ok
    · obtain ⟨first,parsed_first,ok⟩ := bind_ok_iff.mp ok
      obtain ⟨last,parsed_last,ok⟩ := bind_ok_iff.mp ok
      cases ok
      exact ⟨(parse_value_ok parsed_first).1,(parse_value_ok parsed_last).2⟩
    · obtain ⟨only,parsed,ok⟩ := bind_ok_iff.mp ok
      cases ok
      exact parse_value_ok parsed

theorem parse_step_ok {part input base : Str} {step : UInt8} (ok : parse_step part input = .ok (base,step)) : 0 < step.toNat := by
  unfold parse_step at ok
  split at ok
  · cases ok
    decide
  · obtain ⟨read,_,ok⟩ := bind_ok_iff.mp ok
    split at ok
    · cases ok
    · cases ok
      rename_i nonzero
      have : step.toNat ≠ 0 := fun zero => nonzero (UInt8.toNat_inj.mp zero)
      omega

/-- The loop over the parts allows exactly what a part names. -/
theorem parse_parts_ok {min max : UInt8} {input : Str} :
    ∀ {parts : List Str} {allowed result : List Bool}, allowed.length = max.toNat - min.toNat + 1 →
      parse_parts min max input allowed parts = .ok result → ∀ index,
      (result.getD index false = true ↔ allowed.getD index false = true ∨
        ∃ part ∈ parts, PartNames input min max part (min.toNat + index))
  | [], allowed, result, _, ok, index => by
    cases ok
    simp
  | part :: parts, allowed, result, full, ok, index => by
    obtain ⟨⟨base,step⟩,stepped,ok⟩ := bind_ok_iff.mp ok
    obtain ⟨⟨start,stop⟩,ranged,ok⟩ := bind_ok_iff.mp ok
    dsimp only at ok
    split at ok
    · cases ok
    · rename_i forward
      obtain ⟨above,below⟩ := parse_range_ok ranged
      have below_nat : stop.toNat ≤ max.toNat := below
      have small := stop.toNat_lt
      have marked := allow_range_getD min stop step 256 allowed start index (parse_step_ok stepped) above
        (UInt8.not_lt.mp forward) (by omega) (by omega)
      have this_part : PartNames input min max part (min.toNat + index) ↔
          Strides start.toNat stop.toNat step.toNat (min.toNat + index) := by
        constructor
        · rintro ⟨base',step',start',stop',stepped',ranged',strides⟩
          cases stepped.symm.trans stepped'
          cases ranged.symm.trans ranged'
          exact strides
        · intro strides
          exact ⟨base,step,start,stop,stepped,ranged,strides⟩
      rw [parse_parts_ok ((allow_range_length ..).trans full) ok index,marked]
      simp only [Bool.or_eq_true,decide_eq_true_eq,List.mem_cons,exists_eq_or_imp,this_part]
      exact or_assoc

theorem cron_field_parse_ok {input : Str} {min max : UInt8} {field : CronField} (ordered : min ≤ max)
    (small : max.toNat - min.toNat < 255) (ok : CronField.parse input min max = .ok field) :
    field.wildcard = decide (input = ['*']) ∧ ∀ value : UInt8, field.matches_value value = true ↔ Names input min max value.toNat := by
  obtain ⟨allowed,parsed,ok⟩ := bind_ok_iff.mp ok
  split at ok
  · cases ok
  · cases ok
    refine ⟨rfl,?_⟩
    intro value
    have size : (max - min + 1).toNat = max.toNat - min.toNat + 1 := by
      rw [UInt8.toNat_add,UInt8.toNat_sub_of_le _ _ ordered]
      exact Nat.mod_eq_of_lt (by simp; omega)
    have named := parse_parts_ok (by rw [List.length_replicate,size]) parsed
    have nothing (index : Nat) : (List.replicate (max - min + 1).toNat false).getD index false = false := by
      rw [List.getD_eq_getElem?_getD,List.getElem?_replicate]
      split <;> rfl
    simp only [nothing,Bool.false_eq_true,false_or] at named
    rw [CronField.matches_value]
    split
    · rename_i outside
      -- Nothing outside of the bounds is named.
      simp only [Bool.false_eq_true,false_iff]
      rintro ⟨part,_,base,step,start,stop,_,ranged,above,below,_⟩
      obtain ⟨first,last⟩ := parse_range_ok ranged
      rw [UInt8.le_iff_toNat_le] at first last
      rw [gt_iff_lt,UInt8.lt_iff_toNat_lt,UInt8.lt_iff_toNat_lt] at outside
      dsimp only at outside
      omega
    · rename_i inside
      have above : min ≤ value := UInt8.not_lt.mp (fun below => inside (.inl below))
      have above_nat : min.toNat ≤ value.toNat := above
      dsimp only
      rw [named,UInt8.toNat_sub_of_le _ _ above,Nat.add_sub_cancel' above_nat]
      rfl

/-! ## Whether a minute is a time of the expression -/

theorem as_u8_toNat {x : Int} (positive : 0 ≤ x) (small : x < 256) : x.as_u8.toNat = x.toNat := by
  rw [Int.as_u8,UInt8.toNat_ofNat']
  omega

theorem as_u8_natCast {n : Nat} (small : n < 256) : (n : Int).as_u8.toNat = n := by
  rw [as_u8_toNat (by omega) (by omega)]
  rfl

/-- What the fields of an accepted expression match. -/
structure CronReads (e : CronExpression) (minute hour day_of_month month day_of_week : Str) : Prop where
  minute_named : ∀ value : UInt8, e.minute.matches_value value = true ↔ Names minute 0 59 value.toNat
  hour_named : ∀ value : UInt8, e.hour.matches_value value = true ↔ Names hour 0 23 value.toNat
  day_named : ∀ value : UInt8, e.day_of_month.matches_value value = true ↔ Names day_of_month 1 31 value.toNat
  month_named : ∀ value : UInt8, e.month.matches_value value = true ↔ Names month 1 12 value.toNat
  week_named : ∀ value : UInt8, e.day_of_week.matches_value value = true ↔ Names day_of_week 0 6 value.toNat
  any_day : e.day_of_month.wildcard = decide (day_of_month = ['*'])
  any_week : e.day_of_week.wildcard = decide (day_of_week = ['*'])

theorem cron_parse_ok {expression : Str} {e : CronExpression} (ok : CronExpression.parse expression = .ok e) :
    ∃ minute hour day_of_month month day_of_week,
      split_whitespace expression = [minute,hour,day_of_month,month,day_of_week] ∧ CronReads e minute hour day_of_month month day_of_week := by
  unfold CronExpression.parse at ok
  split at ok
  · rename_i minute hour day_of_month month day_of_week split
    obtain ⟨_,first,ok⟩ := bind_ok_iff.mp ok
    obtain ⟨_,second,ok⟩ := bind_ok_iff.mp ok
    obtain ⟨_,third,ok⟩ := bind_ok_iff.mp ok
    obtain ⟨_,fourth,ok⟩ := bind_ok_iff.mp ok
    obtain ⟨_,fifth,ok⟩ := bind_ok_iff.mp ok
    cases ok
    obtain ⟨any_day,day_named⟩ := cron_field_parse_ok (by decide) (by decide) third
    obtain ⟨any_week,week_named⟩ := cron_field_parse_ok (by decide) (by decide) fifth
    exact ⟨minute,hour,day_of_month,month,day_of_week,split,(cron_field_parse_ok (by decide) (by decide) first).2,
      (cron_field_parse_ok (by decide) (by decide) second).2,day_named,
      (cron_field_parse_ok (by decide) (by decide) fourth).2,week_named,any_day,any_week⟩
  · cases ok

theorem Date.day_small (date : Date) : date.day ≤ 31 := by
  have := month_days_pos date.year date.month
  have := date.day_exists
  omega

theorem since_epoch {date : Date} (since : 0 ≤ date.number) : 1970 ≤ date.year := by
  by_contra before
  have := year_start_le (show date.year + 1 ≤ 1970 by omega)
  have := date.within
  omega

theorem names_day_iff {e : CronExpression} {minute hour day_of_month month day_of_week : Str} {date : Date}
    (reads : CronReads e minute hour day_of_month month day_of_week) :
    (match e.day_of_month.wildcard, e.day_of_week.wildcard with
      | true, true => true
      | true, false => e.day_of_week.matches_value ((date.number + 4) % 7).as_u8
      | false, true => e.day_of_month.matches_value (date.day : Int).as_u8
      | false, false => e.day_of_month.matches_value (date.day : Int).as_u8 ||
          e.day_of_week.matches_value ((date.number + 4) % 7).as_u8) = true ↔ NamesDay day_of_month day_of_week date := by
  have day := reads.day_named (date.day : Int).as_u8
  have week := reads.week_named ((date.number + 4) % 7).as_u8
  rw [as_u8_natCast (by have := Date.day_small date; omega)] at day
  rw [as_u8_toNat (by omega) (by omega)] at week
  rw [reads.any_day,reads.any_week,NamesDay]
  split <;> rename_i first second <;> simp only [first,second,Bool.or_eq_true,day,week,Date.weekday]

/-- The code finds a whole minute matching when it is a time of the expression. -/
theorem matches_iff_occurs {expression : Str} {e : CronExpression} (ok : CronExpression.parse expression = .ok e) {time : Int64}
    (since : 0 ≤ time.toInt) (whole : time.toInt % 60000 = 0) :
    e.matches_utc_ms time = true ↔ Occurs expression time.toInt := by
  obtain ⟨minute,hour,day_of_month,month,day_of_week,split,reads⟩ := cron_parse_ok ok
  have minutes : time.toInt / 1000 / 60 = time.toInt / 60000 := by omega
  obtain ⟨date,number,civil⟩ := civil_from_days_date (show 0 ≤ time.toInt / 60000 / 1440 by omega)
  have recent := since_epoch (show 0 ≤ date.number by omega)
  have code : e.matches_utc_ms time = true ↔ Names minute 0 59 (time.toInt / 60000 % 60).toNat ∧
      Names hour 0 23 (time.toInt / 60000 / 60 % 24).toNat ∧ Names month 1 12 date.month ∧
      NamesDay day_of_month day_of_week date := by
    simp only [CronExpression.matches_utc_ms,minutes,civil]
    rw [if_neg (by omega),← number]
    simp only [Bool.and_eq_true,reads.minute_named,reads.hour_named,reads.month_named,and_assoc]
    rw [as_u8_toNat (by omega) (by omega),as_u8_toNat (by omega) (by omega),
      as_u8_natCast (by have := date.month_exists; omega)]
    exact Iff.rfl.and (Iff.rfl.and (Iff.rfl.and (names_day_iff reads)))
  rw [code]
  constructor
  · rintro ⟨minute_named,hour_named,month_named,day_named⟩
    exact ⟨minute,hour,day_of_month,month,day_of_week,split,date,_,_,by omega,by omega,by omega,
      minute_named,hour_named,month_named,day_named⟩
  · rintro ⟨minute',hour',day_of_month',month',day_of_week',split',date',h,m,small_h,small_m,at_time,named⟩
    cases split.symm.trans split'
    have same : date' = date := Date.number_injective (by omega)
    have same_h : (time.toInt / 60000 / 60 % 24).toNat = h := by omega
    have same_m : (time.toInt / 60000 % 60).toNat = m := by omega
    rw [same_h,same_m,← same]
    exact named

/-! ## The search -/

theorem minute_ms : MINUTE_MS.toInt = 60000 := by decide

/-- What the loop has seen when it ends: the candidates are a minute apart. -/
def Searched (e : CronExpression) (rounds : Nat) (candidate : Int64) : Except CronError Int64 → Prop
  | .ok time => ∃ k < rounds, time.toInt = candidate.toInt + k * 60000 ∧ e.matches_utc_ms time = true ∧
      ∀ j < k, ∀ earlier : Int64, earlier.toInt = candidate.toInt + j * 60000 → e.matches_utc_ms earlier = false
  | .error .TimeOverflow => 2 ^ 63 ≤ candidate.toInt + rounds * 60000
  | .error .InvalidFieldCount => False
  | .error (.InvalidField text) => text = "no matching time within search horizon".toList ∧
      candidate.toInt + rounds * 60000 < 2 ^ 63 ∧
      ∀ j < rounds, ∀ earlier : Int64, earlier.toInt = candidate.toInt + j * 60000 → e.matches_utc_ms earlier = false

theorem searched_next {e : CronExpression} {rounds : Nat} {candidate next : Int64} {result : Except CronError Int64}
    (advanced : next.toInt = candidate.toInt + 60000) (unmatched : e.matches_utc_ms candidate = false)
    (rest : Searched e rounds next result) : Searched e (rounds + 1) candidate result := by
  -- A candidate is the first, or one of those that follow it.
  have earlier_unmatched {k : Nat}
      (seen : ∀ j < k, ∀ earlier : Int64, earlier.toInt = next.toInt + j * 60000 → e.matches_utc_ms earlier = false) :
      ∀ j < k + 1, ∀ earlier : Int64, earlier.toInt = candidate.toInt + j * 60000 → e.matches_utc_ms earlier = false := by
    intro j small earlier at_j
    cases j with
    | zero =>
      have same : earlier = candidate := Int64.toInt_inj.mp (by simpa using at_j)
      rw [same]
      exact unmatched
    | succ j => exact seen j (by omega) earlier (by push_cast at at_j; omega)
  match result with
  | .ok time =>
    obtain ⟨k,small,reached,found,seen⟩ := rest
    exact ⟨k + 1,by omega,by push_cast; omega,found,earlier_unmatched seen⟩
  | .error .TimeOverflow =>
    simp only [Searched] at *
    push_cast
    omega
  | .error .InvalidFieldCount => exact rest
  | .error (.InvalidField _) =>
    obtain ⟨text,room,seen⟩ := rest
    exact ⟨text,by push_cast; omega,earlier_unmatched seen⟩

theorem search_searched (e : CronExpression) (rounds : Nat) (candidate : Int64) :
    Searched e rounds candidate (e.search rounds candidate) := by
  induction rounds generalizing candidate with
  | zero =>
    have := candidate.toInt_lt
    exact ⟨rfl,by omega,fun j small => absurd small (Nat.not_lt_zero j)⟩
  | succ rounds ih =>
    rw [CronExpression.search]
    by_cases found : e.matches_utc_ms candidate = true
    · rw [if_pos found]
      exact ⟨0,Nat.succ_pos rounds,by simp,found,fun j small => absurd small (Nat.not_lt_zero j)⟩
    · rw [if_neg found]
      cases added : candidate.checked_add MINUTE_MS with
      | none =>
        have passed := i64_checked_add_none.mp added
        have least := candidate.le_toInt
        rw [minute_ms] at passed
        show 2 ^ 63 ≤ candidate.toInt + ((rounds + 1 : Nat) : Int) * 60000
        omega
      | some next =>
        have advanced := i64_checked_add_eq.mp added
        rw [minute_ms] at advanced
        exact searched_next advanced (by simpa using found) (ih next)

/-- The search begins with the first whole minute behind the given time. -/
theorem next_after_searched (e : CronExpression) (after : Int64) :
    (e.next_after_utc_ms after = .error .TimeOverflow ∧ 2 ^ 63 ≤ (after.toInt / 60000 + 1) * 60000) ∨
      ∃ base : Int64, base.toInt = (after.toInt / 60000 + 1) * 60000 ∧
        Searched e (8 * 366 * 24 * 60) base (e.next_after_utc_ms after) := by
  have least := after.le_toInt
  have most := after.toInt_lt
  have minutes : (Int64.ofInt (after.toInt / MINUTE_MS.toInt)).toInt = after.toInt / 60000 := by
    rw [minute_ms]
    exact Int64.toInt_ofInt_of_le (by omega) (by omega)
  have first : (Int64.ofInt (after.toInt / 60000 + 1)).toInt = after.toInt / 60000 + 1 :=
    Int64.toInt_ofInt_of_le (by omega) (by omega)
  have raised : Int64.checked_add (.ofInt (after.toInt / MINUTE_MS.toInt)) 1 = some (.ofInt (after.toInt / 60000 + 1)) :=
    i64_checked_add_eq.mpr (by rw [minutes,first]; rfl)
  simp only [CronExpression.next_after_utc_ms,raised,ok_or,ok_bind]
  cases product : (Int64.ofInt (after.toInt / 60000 + 1)).checked_mul MINUTE_MS with
  | none =>
    have passed := i64_checked_mul_none.mp product
    rw [first,minute_ms] at passed
    exact .inl ⟨rfl,by omega⟩
  | some base =>
    have value := i64_checked_mul_eq.mp product
    rw [first,minute_ms] at value
    exact .inr ⟨base,value,search_searched e _ base⟩

/-- A minute that the expression matches, as the code tells. -/
def Hits (e : CronExpression) (time : Int) : Prop := time % 60000 = 0 ∧ ∃ t : Int64, t.toInt = time ∧ e.matches_utc_ms t = true

/-- A search that succeeds finds the first match behind the given time. -/
theorem next_after_first {e : CronExpression} {after time : Int64} (found : e.next_after_utc_ms after = .ok time) :
    IsLeast {t : Int | after.toInt < t ∧ Hits e t} time.toInt := by
  rcases next_after_searched e after with ⟨overflow,_⟩ | ⟨base,first,searched⟩
  · rw [found] at overflow
    cases overflow
  · rw [found] at searched
    obtain ⟨k,_,reached,matched,seen⟩ := searched
    refine ⟨⟨by omega,by omega,time,rfl,matched⟩,?_⟩
    rintro other ⟨behind,whole,t,rfl,hit⟩
    by_contra before
    have unmatched := seen (t.toInt / 60000 - (after.toInt / 60000 + 1)).toNat (by omega) t (by omega)
    rw [unmatched] at hit
    cases hit

/-! ## The horizon -/

/-- A day that the expression names comes back within eight years. -/
theorem next_named {month day_of_month day_of_week : Str} {date : Date} (in_month : Names month 1 12 date.month)
    (on_day : NamesDay day_of_month day_of_week date) (n : Int) :
    ∃ next : Date, n < next.number ∧ next.number ≤ n + 2922 ∧ Names month 1 12 next.month ∧
      NamesDay day_of_month day_of_week next := by
  obtain ⟨same_day,month_day,day,after_day,close_day⟩ := next_date date n
  obtain ⟨same_week,month_week,week,after_week,close_week⟩ := next_weekday date n
  unfold NamesDay at *
  split at on_day <;> rename_i any_day any_week
  · exact ⟨same_day,after_day,close_day,by rw [month_day]; exact in_month,by simp only [any_day,any_week]⟩
  · exact ⟨same_week,after_week,by omega,by rw [month_week]; exact in_month,by simp only [any_day,any_week,week]; exact on_day⟩
  · exact ⟨same_day,after_day,close_day,by rw [month_day]; exact in_month,by simp only [any_day,any_week,day]; exact on_day⟩
  · rcases on_day with on_day | on_day
    · exact ⟨same_day,after_day,close_day,by rw [month_day]; exact in_month,
        by simp only [any_day,any_week,day]; exact .inl on_day⟩
    · exact ⟨same_week,after_week,by omega,by rw [month_week]; exact in_month,
        by simp only [any_day,any_week,week]; exact .inr on_day⟩

/-- An expression that has a time at all has one within the horizon. -/
theorem occurs_within {expression : Str} {time : Int} (occurs : Occurs expression time) (base : Int) :
    ∃ soon, Occurs expression soon ∧ base ≤ soon ∧ soon < base + 8 * 366 * 24 * 60 * 60000 := by
  obtain ⟨minute,hour,day_of_month,month,day_of_week,split,date,h,m,small_h,small_m,_,at_minute,at_hour,in_month,on_day⟩ := occurs
  obtain ⟨next,after,close,in_month,on_day⟩ := next_named in_month on_day (base / 86400000)
  exact ⟨((next.number * 24 + h) * 60 + m) * 60000,
    ⟨minute,hour,day_of_month,month,day_of_week,split,next,h,m,small_h,small_m,rfl,at_minute,at_hour,in_month,on_day⟩,
    by omega,by omega⟩

theorem Occurs.whole {expression : Str} {time : Int} (occurs : Occurs expression time) : time % 60000 = 0 := by
  obtain ⟨_,_,_,_,_,_,date,h,m,_,_,rfl,_⟩ := occurs
  exact Int.mul_emod_left _ _

/-- A time behind `after` is one of the candidates, which begin with the first whole minute behind it. -/
theorem Occurs.candidate {expression : Str} {time after : Int} (occurs : Occurs expression time) (behind : after < time) :
    ∃ k : Nat, time = (after / 60000 + 1) * 60000 + k * 60000 := by
  have whole := occurs.whole
  exact ⟨(time / 60000 - (after / 60000 + 1)).toNat,by omega⟩

/-- No candidate that the search has passed is a time of the expression. -/
theorem passed_not_occurs {expression : Str} {e : CronExpression} (ok : CronExpression.parse expression = .ok e)
    {after base : Int64} (since : 0 ≤ after.toInt) (first : base.toInt = (after.toInt / 60000 + 1) * 60000) {k : Nat}
    (fits : base.toInt + k * 60000 < 2 ^ 63)
    (seen : ∀ j < k, ∀ earlier : Int64, earlier.toInt = base.toInt + j * 60000 → e.matches_utc_ms earlier = false)
    {time : Int} (behind : after.toInt < time) (before : time < base.toInt + k * 60000) : ¬ Occurs expression time := by
  intro occurs
  obtain ⟨j,at_j⟩ := occurs.candidate behind
  have value : (Int64.ofInt time).toInt = time := Int64.toInt_ofInt_of_le (by omega) (by omega)
  have unmatched := seen j (by omega) (.ofInt time) (by omega)
  have matched : e.matches_utc_ms (.ofInt time) = true :=
    (matches_iff_occurs ok (by omega) (by rw [value]; exact occurs.whole)).mpr (by rw [value]; exact occurs)
  rw [unmatched] at matched
  cases matched

/-- The search finds the first time of the expression behind the given one. It ends
    without a time only when there is none, so the horizon cuts nothing off. -/
theorem cron_next_exact {expression : Str} {e : CronExpression} (ok : CronExpression.parse expression = .ok e) {after : Int64}
    (since : 0 ≤ after.toInt) :
    (after.toInt + (8 * 366 * 24 * 60 + 1) * 60000 < 2 ^ 63 → e.next_after_utc_ms after ≠ .error .TimeOverflow) ∧
      (e.next_after_utc_ms after ≠ .error .TimeOverflow →
        (∃ time, e.next_after_utc_ms after = .ok time ∧ IsLeast {t : Int | after.toInt < t ∧ Occurs expression t} time.toInt) ∨
        (e.next_after_utc_ms after = .error (.InvalidField "no matching time within search horizon".toList) ∧
          ∀ t, after.toInt < t → ¬ Occurs expression t)) := by
  rcases next_after_searched e after with ⟨overflow,far⟩ | ⟨base,first,searched⟩
  · rw [overflow]
    exact ⟨fun near => by omega,fun no_overflow => absurd rfl no_overflow⟩
  · generalize e.next_after_utc_ms after = result at searched ⊢
    match result with
    | .error .TimeOverflow =>
      simp only [Searched] at searched
      exact ⟨fun near => by omega,fun no_overflow => absurd rfl no_overflow⟩
    | .error .InvalidFieldCount => exact searched.elim
    | .error (.InvalidField text) =>
      obtain ⟨rfl,fits,seen⟩ := searched
      refine ⟨fun _ => by simp,fun _ => .inr ⟨rfl,?_⟩⟩
      intro time behind occurs
      obtain ⟨soon,occurs_soon,from_base,in_horizon⟩ := occurs_within occurs base.toInt
      exact passed_not_occurs ok since first fits seen (by omega) (by omega) occurs_soon
    | .ok time =>
      obtain ⟨k,small,reached,matched,seen⟩ := searched
      have most := time.toInt_lt
      refine ⟨fun _ => by simp,fun _ => .inl ⟨time,rfl,⟨by omega,?_⟩,?_⟩⟩
      · exact (matches_iff_occurs ok (by omega) (by omega)).mp matched
      · rintro other ⟨behind,occurs⟩
        by_contra before
        exact passed_not_occurs ok since first (by omega) seen behind (by omega) occurs

/-- Every five minutes, from the epoch on. -/
theorem cron_next_every_five_minutes :
    ∃ e, CronExpression.parse "*/5 * * * *".toList = .ok e ∧ e.next_after_utc_ms 0 = .ok 300000 ∧
      IsLeast {t : Int | 0 < t ∧ Occurs "*/5 * * * *".toList t} 300000 := by
  obtain ⟨e,ok,found⟩ : ∃ e, CronExpression.parse "*/5 * * * *".toList = .ok e ∧ e.next_after_utc_ms 0 = .ok 300000 :=
    ⟨⟨⟨0,59,(List.range 60).map (· % 5 = 0),false⟩,⟨0,23,List.replicate 24 true,true⟩,⟨1,31,List.replicate 31 true,true⟩,
      ⟨1,12,List.replicate 12 true,true⟩,⟨0,6,List.replicate 7 true,true⟩⟩,by decide +kernel,by decide +kernel⟩
  refine ⟨e,ok,found,?_⟩
  rcases (@cron_next_exact _ e ok 0 (by decide)).2 (by rw [found]; simp) with ⟨time,next,least⟩ | ⟨none_found,_⟩
  · rw [found] at next
    cases next
    exact least
  · rw [found] at none_found
    cases none_found

end VoodooStore
