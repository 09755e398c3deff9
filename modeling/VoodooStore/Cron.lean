import VoodooStore.Fields

/-!
# Cron expressions

An expression has five fields in UTC: minute, hour, day of the month, month and
day of the week. A `&str` is the list of its characters. The calendar is
computed in `Int`, as no timestamp of 64 bits takes it out of the range of `i64`.
-/

def Int64.checked_mul (a b : Int64) : Option Int64 :=
  if -2 ^ 63 ≤ a.toInt * b.toInt ∧ a.toInt * b.toInt < 2 ^ 63 then some (a * b) else none

/-- `as u8` -/
def Int.as_u8 (x : Int) : UInt8 := .ofNat (x % 256).toNat

namespace VoodooStore
open Effects
set_option linter.unusedSimpArgs false

theorem i64_fits {x y : Int64} {exact_value : Int} (wrapped : x.toInt = exact_value.bmod (2 ^ 64)) :
    (-2 ^ 63 ≤ exact_value ∧ exact_value < 2 ^ 63) ∧ x = y ↔ y.toInt = exact_value := by
  constructor
  · rintro ⟨fits,rfl⟩
    rw [wrapped]
    exact Int.bmod_eq_of_le (by simpa using fits.1) (by simpa using fits.2)
  · intro eq
    have least := y.le_toInt
    have most := y.toInt_lt
    refine ⟨by omega,Int64.toInt_inj.mp ?_⟩
    rw [wrapped,← eq]
    exact Int.bmod_eq_of_le (by simpa using least) (by simpa using most)

theorem i64_checked_add_eq {a b c : Int64} : a.checked_add b = some c ↔ c.toInt = a.toInt + b.toInt := by
  rw [Int64.checked_add,Option.ite_none_right_eq_some,Option.some_inj]
  exact i64_fits (Int64.toInt_add a b)

theorem i64_checked_mul_eq {a b c : Int64} : a.checked_mul b = some c ↔ c.toInt = a.toInt * b.toInt := by
  rw [Int64.checked_mul,Option.ite_none_right_eq_some,Option.some_inj]
  exact i64_fits (Int64.toInt_mul a b)

theorem i64_checked_add_none {a b : Int64} :
    a.checked_add b = none ↔ a.toInt + b.toInt < -2 ^ 63 ∨ 2 ^ 63 ≤ a.toInt + b.toInt := by
  simp only [Int64.checked_add,ite_eq_right_iff,reduceCtorEq,imp_false]
  omega

theorem i64_checked_mul_none {a b : Int64} :
    a.checked_mul b = none ↔ a.toInt * b.toInt < -2 ^ 63 ∨ 2 ^ 63 ≤ a.toInt * b.toInt := by
  simp only [Int64.checked_mul,ite_eq_right_iff,reduceCtorEq,imp_false]
  omega

/-! ## Strings -/

abbrev Str := List Char

def as_bytes (text : Str) : Bytes := text.flatMap String.utf8EncodeChar
def from_utf8 (bytes : Bytes) : Option Str := bytes.toByteArray.utf8Decode?.map Array.toList

theorem from_utf8_as_bytes (text : Str) : from_utf8 (as_bytes text) = some text := by
  have decoded : (as_bytes text).toByteArray.utf8Decode? = some text.toArray := List.utf8Decode?_utf8Encode
  rw [from_utf8,decoded]
  rfl

/-- `char::is_whitespace` -/
def is_whitespace (c : Char) : Bool :=
  let n := c.toNat
  9 ≤ n && n ≤ 13 || n = 0x20 || n = 0x85 || n = 0xa0 || n = 0x1680 || 0x2000 ≤ n && n ≤ 0x200a || n = 0x2028 || n = 0x2029 ||
    n = 0x202f || n = 0x205f || n = 0x3000

def split_whitespace (text : Str) : List Str := (text.splitOnP is_whitespace).filter (· ≠ [])

/-- What stands before and behind the first occurrence. -/
def split_once (c : Char) : Str → Option (Str × Str)
  | [] => none
  | d :: text => if d = c then some ([],text) else (split_once c text).map (fun parts => (d :: parts.1,parts.2))

/-- `parse::<u8>` on what follows the sign. -/
def parse_digits : Str → Option Nat
  | [] => none
  | digits => if digits.all Char.isDigit then some (digits.foldl (fun n c => n * 10 + (c.toNat - 48)) 0) else none

/-- `parse::<u8>`, which accepts a plus sign. -/
def parse_u8 (text : Str) : Option UInt8 :=
  let digits := match text with
    | '+' :: digits => digits
    | digits => digits
  (parse_digits digits).bind (fun n => if n < 256 then some (.ofNat n) else none)

/-! ## Fields -/

inductive CronError
  | InvalidFieldCount
  | InvalidField (input : Str)
  | TimeOverflow
  deriving DecidableEq

/-- The `Field` of the source: which of the values between two bounds are allowed. -/
structure CronField where
  min : UInt8
  max : UInt8
  allowed : List Bool
  wildcard : Bool
  deriving DecidableEq

structure CronExpression where
  minute : CronField
  hour : CronField
  day_of_month : CronField
  month : CronField
  day_of_week : CronField
  deriving DecidableEq

def parse_value (value : Str) (min max : UInt8) (original : Str) : Except CronError UInt8 := do
  let value ← ok_or (.InvalidField original) (parse_u8 value)
  if value < min ∨ value > max then .error (.InvalidField original) else return value

/-- The loop that allows every value of a range at the distance of the step. The
    value rises in each round, so that it ends before the fuel does. -/
def allow_range (min stop step : UInt8) : Nat → List Bool → UInt8 → List Bool
  | 0, allowed, _ => allowed
  | fuel + 1, allowed, value =>
    let allowed := allowed.set (value - min).toNat true
    if value.toNat + step.toNat < 256 then
      if value + step > stop then allowed else allow_range min stop step fuel allowed (value + step)
    else allowed

/-- A part of a field without its step. -/
def parse_range (base : Str) (min max : UInt8) (input : Str) : Except CronError (UInt8 × UInt8) :=
  if base = ['*'] then .ok (min,max)
  else match split_once '-' base with
  | some (start,stop) => do return (← parse_value start min max input,← parse_value stop min max input)
  | none => do
    let value ← parse_value base min max input
    return (value,value)

/-- The step of a part, and what stands before it. -/
def parse_step (part input : Str) : Except CronError (Str × UInt8) :=
  match split_once '/' part with
  | none => .ok (part,1)
  | some (base,step) => do
    let step ← ok_or (.InvalidField input) (parse_u8 step)
    if step = 0 then .error (.InvalidField input) else return (base,step)

def parse_parts (min max : UInt8) (input : Str) (allowed : List Bool) : List Str → Except CronError (List Bool)
  | [] => .ok allowed
  | part :: parts => do
    let (base,step) ← parse_step part input
    let (start,stop) ← parse_range base min max input
    if start > stop then .error (.InvalidField input) else
    parse_parts min max input (allow_range min stop step 256 allowed start) parts

def CronField.parse (input : Str) (min max : UInt8) : Except CronError CronField := do
  let allowed ← parse_parts min max input (List.replicate (max - min + 1).toNat false) (input.splitOn ',')
  if !allowed.any id then .error (.InvalidField input) else
  return ⟨min,max,allowed,input = ['*']⟩

/-- There is an entry for each value between the bounds. -/
def CronField.matches_value (self : CronField) (value : UInt8) : Bool :=
  if value < self.min ∨ value > self.max then false else self.allowed.getD (value - self.min).toNat false

def CronExpression.parse (expression : Str) : Except CronError CronExpression :=
  match split_whitespace expression with
  | [minute,hour,day_of_month,month,day_of_week] => do
    let minute ← CronField.parse minute 0 59
    let hour ← CronField.parse hour 0 23
    let day_of_month ← CronField.parse day_of_month 1 31
    let month ← CronField.parse month 1 12
    let day_of_week ← CronField.parse day_of_week 0 6
    return ⟨minute,hour,day_of_month,month,day_of_week⟩
  | _ => .error .InvalidFieldCount

/-! ## Times -/

/-- The year, the month and the day of a number of days since the epoch. -/
def civil_from_days (days_since_epoch : Int) : Int × Int × Int :=
  let z := days_since_epoch + 719468
  let era := (if z ≥ 0 then z else z - 146096) / 146097
  let doe := z - era * 146097
  let yoe := (doe - doe.tdiv 1460 + doe.tdiv 36524 - doe.tdiv 146096) / 365
  let year := yoe + era * 400
  let doy := doe - (365 * yoe + yoe.tdiv 4 - yoe.tdiv 100)
  let mp := (5 * doy + 2) / 153
  let day := doy - (153 * mp + 2) / 5 + 1
  let month := mp + if mp < 10 then 3 else -9
  (year + if month ≤ 2 then 1 else 0,month,day)

def CronExpression.matches_utc_ms (self : CronExpression) (timestamp_ms : Int64) : Bool :=
  let seconds := timestamp_ms.toInt / 1000
  let minutes := seconds / 60
  let days := minutes / 1440
  let minute := (minutes % 60).as_u8
  let hour := (minutes / 60 % 24).as_u8
  let (year,month,day) := civil_from_days days
  let dow := ((days + 4) % 7).as_u8
  if year < 1970 then false else
  let dom_match := self.day_of_month.matches_value day.as_u8
  let dow_match := self.day_of_week.matches_value dow
  let day_match := match self.day_of_month.wildcard, self.day_of_week.wildcard with
    | true, true => true
    | true, false => dow_match
    | false, true => dom_match
    | false, false => dom_match || dow_match
  self.minute.matches_value minute && self.hour.matches_value hour && self.month.matches_value month.as_u8 && day_match

def MINUTE_MS : Int64 := 60000

/-- The loop of `next_after_utc_ms`, with the rounds that are left. -/
def CronExpression.search (self : CronExpression) : Nat → Int64 → Except CronError Int64
  | 0, _ => .error (.InvalidField "no matching time within search horizon".toList)
  | rounds + 1, candidate =>
    if self.matches_utc_ms candidate then .ok candidate else do
    self.search rounds (← ok_or .TimeOverflow (candidate.checked_add MINUTE_MS))

def CronExpression.next_after_utc_ms (self : CronExpression) (after_ms : Int64) : Except CronError Int64 := do
  let minutes ← ok_or .TimeOverflow (Int64.checked_add (.ofInt (after_ms.toInt / MINUTE_MS.toInt)) 1)
  let base ← ok_or .TimeOverflow (minutes.checked_mul MINUTE_MS)
  self.search (8 * 366 * 24 * 60) base

end VoodooStore
