import VoodooStore.CarefulRecords

/-!
# Cron schedules, with every panic

The cursor of the cron scheduler checks its sums and never slices, so that a panic
could only come from the expression: from the differences and the positions of its
values, and from the five parts. Together with the other decoders none panics.
-/
namespace VoodooStore
open Effects Reading Faults
set_option linter.unusedSimpArgs false

/-- `-` on `u8` -/
def u8_sub {ε : Type} (a b : UInt8) : Careful ε UInt8 := if b ≤ a then .ok (a - b) else .error .Panicked

/-- `+` on `u8` -/
def u8_add {ε : Type} (a b : UInt8) : Careful ε UInt8 := if a.toNat + b.toNat < 256 then .ok (a + b) else .error .Panicked

/-- An element of a vector is replaced, which panics if there is none. -/
def replaced {ε α : Type} (values : List α) (position : Nat) (value : α) : Careful ε (List α) :=
  if position < values.length then .ok (values.set position value) else .error .Panicked

namespace Careful

/-! ### Expressions -/

/-- The loop over a range; to need more rounds than these counts as a panic. -/
def allow_range (min stop step : UInt8) : Nat → List Bool → UInt8 → Careful CronError (List Bool)
  | 0, _, _ => .error .Panicked
  | fuel + 1, allowed, value => do
    let position ← u8_sub value min
    let allowed ← replaced allowed position.toNat true
    if value.toNat + step.toNat < 256 then
      if value + step > stop then .ok allowed else Careful.allow_range min stop step fuel allowed (value + step)
    else .ok allowed

def parse_parts (min max : UInt8) (input : Str) (allowed : List Bool) : List Str → Careful CronError (List Bool)
  | [] => .ok allowed
  | part :: parts => do
    let (base,step) ← pass (parse_step part input)
    let (start,stop) ← pass (parse_range base min max input)
    if start > stop then refuse (.InvalidField input) else do
    let allowed ← Careful.allow_range min stop step 256 allowed start
    Careful.parse_parts min max input allowed parts

def parse_field (input : Str) (min max : UInt8) : Careful CronError CronField := do
  let len ← u8_add (← u8_sub max min) 1
  let allowed ← Careful.parse_parts min max input (List.replicate len.toNat false) (input.splitOn ',')
  if !allowed.any id then refuse (.InvalidField input) else
  return ⟨min,max,allowed,input = ['*']⟩

def parse_expression (expression : Str) : Careful CronError CronExpression :=
  let parts := split_whitespace expression
  if parts.length ≠ 5 then refuse .InvalidFieldCount else do
  let minute ← Careful.parse_field (← element parts 0) 0 59
  let hour ← Careful.parse_field (← element parts 1) 0 23
  let day_of_month ← Careful.parse_field (← element parts 2) 1 31
  let month ← Careful.parse_field (← element parts 3) 1 12
  let day_of_week ← Careful.parse_field (← element parts 4) 0 6
  return ⟨minute,hour,day_of_month,month,day_of_week⟩

/-! ### The cursor -/

section
variable {ε β : Type} [Corrupt ε]

/-- What is made of the next bytes. -/
def cursor_made (n : Nat) (value : Bytes → β) (bytes : Bytes) (pos : Nat) : Careful ε (β × Nat) := do
  let (part,pos) ← Careful.take Corrupt.corrupt n bytes pos
  return (value part,pos)

def cursor_u8 (bytes : Bytes) (pos : Nat) : Careful ε (UInt8 × Nat) := do
  let (part,pos) ← Careful.take Corrupt.corrupt 1 bytes pos
  let byte ← pass (ok_or Corrupt.corrupt part.head?)
  return (byte,pos)

def cursor_u32 : Bytes → Nat → Careful ε (UInt32 × Nat) := cursor_made 4 UInt32.from_le_bytes
def cursor_i32 : Bytes → Nat → Careful ε (Int32 × Nat) := cursor_made 4 Int32.from_le_bytes
def cursor_u64 : Bytes → Nat → Careful ε (UInt64 × Nat) := cursor_made 8 UInt64.from_le_bytes
def cursor_i64 : Bytes → Nat → Careful ε (Int64 × Nat) := cursor_made 8 Int64.from_le_bytes

def cursor_array_16 (bytes : Bytes) (pos : Nat) : Careful ε (ByteArr 16 × Nat) := do
  let (part,pos) ← Careful.take Corrupt.corrupt 16 bytes pos
  if size : part.length = 16 then return (⟨part,size⟩,pos) else refuse Corrupt.corrupt

def cursor_bytes (bytes : Bytes) (pos : Nat) : Careful ε (Bytes × Nat) := do
  let (len,pos) ← Careful.cursor_u32 bytes pos
  Careful.take Corrupt.corrupt len.toNat bytes pos

/-- A tag, and the value behind it if there is one. -/
def cursor_option (value : Bytes → Nat → Careful ε (β × Nat)) (bytes : Bytes) (pos : Nat) : Careful ε (Option β × Nat) := do
  let (tag,pos) ← Careful.cursor_u8 bytes pos
  if tag = 0 then return (none,pos)
  else if tag = 1 then do
    let (value,pos) ← value bytes pos
    return (some value,pos)
  else refuse Corrupt.corrupt

def cursor_bool (bytes : Bytes) (pos : Nat) : Careful ε (Bool × Nat) := do
  let (tag,pos) ← Careful.cursor_u8 bytes pos
  if tag = 0 then return (false,pos) else if tag = 1 then return (true,pos) else refuse Corrupt.corrupt

def decode_job_spec (bytes : Bytes) (pos : Nat) : Careful ε (JobSpec × Nat) := do
  let (handler,pos) ← Careful.cursor_bytes bytes pos
  let (payload,pos) ← Careful.cursor_bytes bytes pos
  let (available_at_ms,pos) ← Careful.cursor_i64 bytes pos
  let (deadline_ms,pos) ← Careful.cursor_option Careful.cursor_i64 bytes pos
  let (priority,pos) ← Careful.cursor_i32 bytes pos
  let (max_attempts,pos) ← Careful.cursor_u32 bytes pos
  let (retry_backoff_ms,pos) ← Careful.cursor_u64 bytes pos
  let (idempotency_key,pos) ← Careful.cursor_option Careful.cursor_bytes bytes pos
  return (⟨handler,payload,available_at_ms,deadline_ms,priority,max_attempts,retry_backoff_ms,idempotency_key⟩,pos)

end

def decode_cron_schedule (bytes : Bytes) : Careful CronSchedulerError DurableCronSchedule := do
  let (version,pos) ← Careful.cursor_u8 bytes 0
  if version ≠ VERSION then refuse .CorruptRecord else do
  let (id,pos) ← Careful.cursor_array_16 bytes pos
  let (expression,pos) ← Careful.cursor_bytes bytes pos
  let (job,pos) ← Careful.decode_job_spec bytes pos
  let (next_run_ms,pos) ← Careful.cursor_i64 bytes pos
  let (enabled,pos) ← Careful.cursor_bool bytes pos
  let (fire_count,pos) ← Careful.cursor_u64 bytes pos
  let (last_fired_at_ms,pos) ← Careful.cursor_option Careful.cursor_i64 bytes pos
  if pos ≠ bytes.length then refuse .CorruptRecord else do
  let expression_str ← pass (ok_or .InvalidUtf8 (from_utf8 expression))
  let _ ← rethrown .Cron (Careful.parse_expression expression_str)
  pass (validate_job job)
  return ⟨id,expression,job,next_run_ms,enabled,fire_count,last_fired_at_ms⟩

end Careful

/-! ## Expressions -/

theorem u8_sub_fits {ε : Type} {a b : UInt8} (fits : b ≤ a) : (u8_sub a b : Careful ε UInt8) = .ok (a - b) := if_pos fits

/-- The value rises in each round, and stays between the bounds. -/
theorem allow_range_returns {min max stop step : UInt8} (inside : stop ≤ max) (rises : 0 < step.toNat) (fuel : Nat) :
    ∀ (allowed : List Bool) (value : UInt8), allowed.length = max.toNat - min.toNat + 1 → min ≤ value → value ≤ stop →
    256 ≤ value.toNat + fuel → Returns (Careful.allow_range min stop step fuel allowed value)
      (.ok (allow_range min stop step fuel allowed value)) := by
  induction fuel with
  | zero =>
    intro allowed value len low high enough
    have := UInt8.toNat_lt value
    omega
  | succ fuel ih =>
    intro allowed value len low high enough
    rw [UInt8.le_iff_toNat_le] at inside high low
    have position : (value - min).toNat = value.toNat - min.toNat := UInt8.toNat_sub_of_le _ _ (UInt8.le_iff_toNat_le.mpr low)
    have fits : (value - min).toNat < allowed.length := by omega
    unfold Careful.allow_range allow_range
    rw [u8_sub_fits (UInt8.le_iff_toNat_le.mpr low),ok_bind,replaced,if_pos fits,ok_bind]
    dsimp only
    by_cases further : value.toNat + step.toNat < 256
    · have sum : (value + step).toNat = value.toNat + step.toNat := by
        rw [UInt8.toNat_add]
        exact Nat.mod_eq_of_lt further
      rw [if_pos further,if_pos further]
      by_cases past : value + step > stop
      · rw [if_pos past,if_pos past]
        exact returns_ok _
      · rw [if_neg past,if_neg past]
        apply ih
        · rw [List.length_set]
          exact len
        · rw [UInt8.le_iff_toNat_le]
          omega
        · exact UInt8.not_lt.mp past
        · omega
    · rw [if_neg further,if_neg further]
      exact returns_ok _

theorem parse_parts_returns {min max : UInt8} {input : Str} (parts : List Str) : ∀ allowed : List Bool,
    allowed.length = max.toNat - min.toNat + 1 →
    Returns (Careful.parse_parts min max input allowed parts) (parse_parts min max input allowed parts) := by
  induction parts with
  | nil => exact fun allowed _ => returns_ok allowed
  | cons part parts ih =>
    intro allowed len
    apply (returns_pass _).bind
    rintro ⟨base,step⟩ stepped
    apply (returns_pass _).bind
    rintro ⟨start,stop⟩ ranged
    apply Returns.ite
    · exact fun _ => returns_refuse _
    intro forward
    obtain ⟨above,below⟩ := parse_range_ok ranged
    have rounds := allow_range_returns below (parse_step_ok stepped) 256 allowed start len above (UInt8.not_lt.mp forward) (by omega)
    rw [rounds]
    exact ih _ ((allow_range_length ..).trans len)

theorem parse_field_returns {min max : UInt8} (ordered : min ≤ max) (small : max.toNat - min.toNat < 255) (input : Str) :
    Returns (Careful.parse_field input min max) (CronField.parse input min max) := by
  have width : (max - min).toNat = max.toNat - min.toNat := UInt8.toNat_sub_of_le _ _ ordered
  have one : (1 : UInt8).toNat = 1 := rfl
  have size : (max - min + 1).toNat = max.toNat - min.toNat + 1 := by
    rw [UInt8.toNat_add,width,one]
    exact Nat.mod_eq_of_lt (by omega)
  unfold Careful.parse_field
  rw [u8_sub_fits ordered,ok_bind,u8_add,width,one,if_pos (by omega),ok_bind]
  apply (parse_parts_returns _ _ (List.length_replicate.trans size)).bind
  intro allowed _
  apply Returns.ite
  · exact fun _ => returns_refuse _
  · exact fun _ => returns_ok _

theorem parse_expression_returns (expression : Str) : Returns (Careful.parse_expression expression) (CronExpression.parse expression) := by
  unfold Careful.parse_expression CronExpression.parse
  split
  · rename_i minute hour day_of_month month day_of_week parts
    simp only [parts,List.length_cons,List.length_nil,ne_eq,not_true_eq_false,if_false]
    simp only [element,List.getElem?_cons_zero,List.getElem?_cons_succ,ok_bind]
    apply (parse_field_returns (by decide) (by decide) minute).bind
    intro minute _
    apply (parse_field_returns (by decide) (by decide) hour).bind
    intro hour _
    apply (parse_field_returns (by decide) (by decide) day_of_month).bind
    intro day_of_month _
    apply (parse_field_returns (by decide) (by decide) month).bind
    intro month _
    apply (parse_field_returns (by decide) (by decide) day_of_week).bind
    exact fun day_of_week _ => returns_ok _
  · rename_i others
    have count : (split_whitespace expression).length ≠ 5 := by
      intro five
      obtain ⟨minute,rest,parts,four⟩ := List.length_eq_succ_iff.mp five
      obtain ⟨hour,day_of_month,month,day_of_week,rfl⟩ := List.length_eq_four.mp four
      exact others _ _ _ _ _ parts.symm
    simp only [if_pos count]
    exact returns_refuse _

/-! ## The cursor -/

section
variable {ε β : Type} [Corrupt ε] {bytes : Bytes} {pos : Nat}

theorem cursor_made_follows (limit : bytes.length < ISIZE) (n : Nat) (value : Bytes → β) :
    Follows bytes (Careful.cursor_made n value bytes pos) (do return value (← Fields.take n) : Fields ε β) pos :=
  (take_follows limit n).bind (fun _ _ within => follows_pure _ within)

theorem cursor_u8_follows (limit : bytes.length < ISIZE) :
    Follows bytes (Careful.cursor_u8 bytes pos) (Fields.u8 : Fields ε UInt8) pos := by
  apply (take_follows limit 1).bind
  intro part stop within
  cases part with
  | nil => exact follows_throw _
  | cons byte rest => exact follows_pure _ within

theorem cursor_array_16_follows (limit : bytes.length < ISIZE) :
    Follows bytes (Careful.cursor_array_16 bytes pos) (Fields.array_16 : Fields ε (ByteArr 16)) pos := by
  apply (take_follows limit 16).bind
  intro part stop within
  by_cases size : part.length = 16
  · simp only [dif_pos size]
    exact follows_pure _ within
  · simp only [dif_neg size]
    exact follows_throw _

theorem cursor_bytes_follows (limit : bytes.length < ISIZE) :
    Follows bytes (Careful.cursor_bytes bytes pos) (Fields.bytes : Fields ε Bytes) pos :=
  (cursor_made_follows limit 4 UInt32.from_le_bytes).bind (fun len _ _ => take_follows limit len.toNat)

theorem cursor_option_follows {x : Bytes → Nat → Careful ε (β × Nat)} {y : Fields ε β} (limit : bytes.length < ISIZE)
    (value : ∀ pos, Follows bytes (x bytes pos) y pos) : Follows bytes (Careful.cursor_option x bytes pos) (Fields.option y) pos := by
  apply (cursor_u8_follows limit).bind
  intro tag stop within
  apply Follows.ite
  · exact fun _ => follows_pure _ within
  intro _
  apply Follows.ite
  · exact fun _ => (value stop).bind (fun _ _ within => follows_pure _ within)
  · exact fun _ => follows_throw _

theorem cursor_bool_follows (limit : bytes.length < ISIZE) :
    Follows bytes (Careful.cursor_bool bytes pos) (Fields.bool : Fields ε Bool) pos := by
  apply (cursor_u8_follows limit).bind
  intro tag stop within
  apply Follows.ite
  · exact fun _ => follows_pure _ within
  intro _
  apply Follows.ite
  · exact fun _ => follows_pure _ within
  · exact fun _ => follows_throw _

theorem decode_job_spec_follows (limit : bytes.length < ISIZE) :
    Follows bytes (Careful.decode_job_spec bytes pos) (decode_job_spec : Fields ε JobSpec) pos := by
  apply (cursor_bytes_follows limit).bind
  intro handler pos _
  apply (cursor_bytes_follows limit).bind
  intro payload pos _
  apply (cursor_made_follows limit 8 Int64.from_le_bytes).bind
  intro available_at_ms pos _
  apply (cursor_option_follows limit (fun _ => cursor_made_follows limit 8 Int64.from_le_bytes)).bind
  intro deadline_ms pos _
  apply (cursor_made_follows limit 4 Int32.from_le_bytes).bind
  intro priority pos _
  apply (cursor_made_follows limit 4 UInt32.from_le_bytes).bind
  intro max_attempts pos _
  apply (cursor_made_follows limit 8 UInt64.from_le_bytes).bind
  intro retry_backoff_ms pos _
  apply (cursor_option_follows limit (fun _ => cursor_bytes_follows limit)).bind
  exact fun idempotency_key pos within => follows_pure _ within

end

theorem decode_cron_schedule_returns {bytes : Bytes} (limit : bytes.length < ISIZE) :
    Returns (Careful.decode_cron_schedule bytes) (decode_cron_schedule bytes) := by
  have fields : Ends .CorruptRecord bytes (do
      let (version,pos) ← Careful.cursor_u8 bytes 0
      if version ≠ VERSION then refuse .CorruptRecord else do
      let (id,pos) ← Careful.cursor_array_16 bytes pos
      let (expression,pos) ← Careful.cursor_bytes bytes pos
      let (job,pos) ← Careful.decode_job_spec bytes pos
      let (next_run_ms,pos) ← Careful.cursor_i64 bytes pos
      let (enabled,pos) ← Careful.cursor_bool bytes pos
      let (fire_count,pos) ← Careful.cursor_u64 bytes pos
      let (last_fired_at_ms,pos) ← Careful.cursor_option Careful.cursor_i64 bytes pos
      if pos ≠ bytes.length then refuse .CorruptRecord else
      .ok (DurableCronSchedule.mk id expression job next_run_ms enabled fire_count last_fired_at_ms)) read_cron_schedule 0 := by
    apply (cursor_u8_follows limit).ends
    intro version pos _
    apply Ends.ite
    · exact fun _ => ends_throw _
    intro _
    apply (cursor_array_16_follows limit).ends
    intro id pos _
    apply (cursor_bytes_follows limit).ends
    intro expression pos _
    apply (decode_job_spec_follows limit).ends
    intro job pos _
    apply (cursor_made_follows limit 8 Int64.from_le_bytes).ends
    intro next_run_ms pos _
    apply (cursor_bool_follows limit).ends
    intro enabled pos _
    apply (cursor_made_follows limit 8 UInt64.from_le_bytes).ends
    intro fire_count pos _
    apply (cursor_option_follows limit (fun _ => cursor_made_follows limit 8 Int64.from_le_bytes)).ends
    exact fun last_fired_at_ms pos _ => ends_pure _
  have checked := fields.readAll.bind (fun schedule _ => show Returns (do
      let expression_str ← pass (ok_or .InvalidUtf8 (from_utf8 schedule.expression))
      let _ ← rethrown .Cron (Careful.parse_expression expression_str)
      pass (validate_job schedule.job)
      return schedule) (do
      let _ ← schedule.cron
      validate_job schedule.job
      return schedule) by
    unfold DurableCronSchedule.cron
    rw [bind_assoc]
    apply (returns_pass _).bind
    intro expression_str _
    apply ((parse_expression_returns expression_str).rethrown CronSchedulerError.Cron).bind
    intro _ _
    apply (returns_pass _).bind
    exact fun _ _ => returns_ok _)
  refine Eq.trans ?_ checked
  unfold Careful.decode_cron_schedule
  simp only [refused_bind,bind_assoc,ok_bind]

/-! ## Every decoder -/

/-- A slice of the source has at most `isize::MAX` bytes. -/
def Slice : Type := {bytes : Bytes // bytes.length < ISIZE}

/-- Whatever the bytes are, each turn of the loop of `recover` that goes on consumes
    at least 29 of them, the loop ends, and each decoder ends with the value or the
    error that the decoder of the model returns, and not in a panic. Two decoders do so
    only where the allocator grants the vector that the bytes announce. -/
theorem decoders_return_iff [Hashes] (granted : Nat) (bytes front : Slice) :
    (∀ offset acc next after, offset ≤ bytes.val.length → Careful.recover_turn bytes.val offset acc = .ok (some (next,after)) →
      offset + 29 ≤ next ∧ next ≤ bytes.val.length) ∧
    Returns (Careful.recover bytes.val) (some <$> recover bytes.val) ∧
    Returns (Careful.encoded_record_len_from_prefix bytes.val) (VoodooStore.encoded_record_len_from_prefix bytes.val) ∧
    Returns (Careful.decode bytes.val) (LogRecord.decode bytes.val) ∧
    Returns (Careful.decode_put bytes.val) (decode_put bytes.val) ∧
    Returns (Careful.decode_delete bytes.val) (decode_delete bytes.val) ∧
    Returns (Careful.decode_job bytes.val) (decode_job bytes.val) ∧
    Returns (Careful.decode_schedule bytes.val) (decode_schedule bytes.val) ∧
    Returns (Careful.decode_cron_schedule bytes.val) (decode_cron_schedule bytes.val) ∧
    Returns (Careful.decode_history bytes.val) (decode_history bytes.val) ∧
    Returns (Careful.decode_workflow_history bytes.val) (Workflow.decode_history bytes.val) ∧
    Returns (Careful.decode_instance bytes.val) (Workflow.decode_instance bytes.val) ∧
    Returns (Careful.decode_state bytes.val) (ConsumerGroup.decode_state bytes.val) ∧
    Returns (Careful.decode_index_entry front.val bytes.val) (Query.decode_index_entry front.val bytes.val) ∧
    (Returns (Careful.decode_record_value granted bytes.val) (Collections.decode_record_value bytes.val) ↔
      RecordGranted granted bytes.val) ∧
    (Returns (Careful.decode_metadata granted bytes.val) (Objects.decode_metadata bytes.val) ↔
      MetadataGranted granted bytes.val) := by
  have limit := bytes.property
  refine ⟨?_,recover_returns limit,record_len_returns _,decode_returns _,decode_put_returns _,decode_delete_returns _,
    decode_job_returns limit,decode_schedule_returns limit,decode_cron_schedule_returns limit,decode_history_returns limit,
    decode_workflow_history_returns limit,decode_instance_returns limit,decode_state_returns limit,
    decode_index_entry_returns limit,decode_record_value_returns_iff limit,decode_metadata_returns_iff limit⟩
  intro offset acc next after inside turned
  exact recover_turn_consumes inside limit turned

/-- One entry, in memory that grants the vector of it. -/
theorem announced_entry_decoded :
    Careful.decode_metadata 90 [1,1,0,0,0,1,0,0,0,1,0,0,0,107,118] = .ok [([107],[118])] := by
  have exact := (@decoders_return_iff crates 90 ⟨[1,1,0,0,0,1,0,0,0,1,0,0,0,107,118],by decide⟩ ⟨[],by decide⟩)
  have returns := exact.2.2.2.2.2.2.2.2.2.2.2.2.2.2.2.mpr (metadata_granted (by decide) (by decide))
  exact returns.trans (by decide +kernel)

/-- Five bytes announce entries of 206 gigabytes. With 64 gigabytes the program ends
    there, where the bytes are corrupt metadata. -/
theorem announced_entries_abort : Careful.decode_metadata (2 ^ 36) [1,255,255,255,255] = .error .Panicked ∧
    Objects.decode_metadata [1,255,255,255,255] = .error .CorruptMetadata := by
  constructor
  · decide +kernel
  · decide +kernel

end VoodooStore
