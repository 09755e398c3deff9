import VoodooStore.Jobs
import VoodooStore.Cron

/-!
# Cron schedules

A cron schedule submits a job for each time that matches its expression. The key
of the job is made of the id of the schedule and of the time, so that a tick that
is repeated finds the job that it has submitted before, as long as that is active.
-/
namespace VoodooStore
open Effects Reading
set_option linter.unusedSimpArgs false

def CRON_PREFIX : Bytes := INTERNAL_KEY_PREFIX ++ ascii "cron:data:"

abbrev CronScheduleId := ByteArr 16

structure DurableCronSchedule where
  id : CronScheduleId
  expression : Bytes
  job : JobSpec
  next_run_ms : Int64
  enabled : Bool
  fire_count : UInt64
  last_fired_at_ms : Option Int64
  deriving DecidableEq

structure CronTickReport where
  scanned : Nat
  fired : Nat
  deriving DecidableEq

inductive CronSchedulerError
  | Store (error : EngineError)
  | Job (error : JobError)
  | Cron (error : CronError)
  | InvalidUtf8
  | CorruptRecord
  | FireCountOverflow
  | EntropyUnavailable
  deriving DecidableEq

instance : Corrupt CronSchedulerError := ⟨.CorruptRecord⟩

def cron_key (id : CronScheduleId) : Bytes := CRON_PREFIX ++ id.val

def OCCURRENCE_PREFIX : Bytes := ascii "vds:cron:"

def occurrence_key (id : CronScheduleId) (scheduled_at_ms : Int64) : Bytes :=
  OCCURRENCE_PREFIX ++ (id.val ++ scheduled_at_ms.to_be_bytes)

def encode_cron_schedule (schedule : DurableCronSchedule) : Except CronSchedulerError Bytes := do
  let expression ← write_bytes .CorruptRecord schedule.expression
  let job ← encode_job_spec schedule.job
  return [VERSION] ++ (schedule.id.val ++ (expression ++ (job ++ (schedule.next_run_ms.to_le_bytes ++ (write_bool schedule.enabled ++
    (schedule.fire_count.to_le_bytes ++ write_option (schedule.last_fired_at_ms.map Int64.to_le_bytes)))))))

def read_cron_schedule : Fields CronSchedulerError DurableCronSchedule := do
  let version ← Fields.u8
  if version ≠ VERSION then throw .CorruptRecord else do
  let id ← Fields.array_16
  let expression ← Fields.bytes
  let job ← decode_job_spec
  let next_run_ms ← Fields.i64
  let enabled ← Fields.bool
  let fire_count ← Fields.u64
  let last_fired_at_ms ← Fields.option Fields.i64
  return ⟨id,expression,job,next_run_ms,enabled,fire_count,last_fired_at_ms⟩

/-- The expression of a schedule, read again from its bytes. -/
def DurableCronSchedule.cron (self : DurableCronSchedule) : Except CronSchedulerError CronExpression := do
  let expression ← ok_or .InvalidUtf8 (from_utf8 self.expression)
  (CronExpression.parse expression).mapError .Cron

def decode_cron_schedule (bytes : Bytes) : Except CronSchedulerError DurableCronSchedule := do
  let schedule ← readAll .CorruptRecord read_cron_schedule bytes
  let _ ← schedule.cron
  validate_job schedule.job
  return schedule

def Store.get_cron_schedule (self : Store) (id : CronScheduleId) : Except CronSchedulerError (Option DurableCronSchedule) :=
  (self.get (cron_key id)).mapM decode_cron_schedule

/-- The order of an unstable sort: schedules that are due at the same time come as the world decides. -/
def DurableCronSchedule.before (ties : DurableCronSchedule → Nat) (a b : DurableCronSchedule) : Bool :=
  a.next_run_ms < b.next_run_ms ∨ a.next_run_ms = b.next_run_ms ∧ ties a ≤ ties b

def Store.list_cron_schedules (self : Store) (ties : DurableCronSchedule → Nat) :
    Except CronSchedulerError (List DurableCronSchedule) := do
  let schedules ← (Store.scan_prefix self CRON_PREFIX).mapM (fun entry => decode_cron_schedule entry.2)
  return schedules.mergeSort (DurableCronSchedule.before ties)

/-- The job of the run that is due. -/
def DurableCronSchedule.occurrence (self : DurableCronSchedule) : JobSpec :=
  { self.job with available_at_ms := self.next_run_ms, idempotency_key := some (occurrence_key self.id self.next_run_ms) }

/-- The schedule behind the run that is due. -/
def DurableCronSchedule.advanced (self : DurableCronSchedule) (cron : CronExpression) : Except CronSchedulerError DurableCronSchedule := do
  let fire_count ← ok_or .FireCountOverflow (self.fire_count.checked_add 1)
  let next_run_ms ← (cron.next_after_utc_ms self.next_run_ms).mapError .Cron
  return { self with fire_count, last_fired_at_ms := some self.next_run_ms, next_run_ms }

section
variable [Hashes]

def create_cron_schedule (io : Io) (entropy : Option (ByteArr 16)) (expression : Str) (job : JobSpec) (after_ms : Int64) :
    EStateM CronSchedulerError Store CronScheduleId := do
  lift (validate_job job)
  let cron ← lift ((CronExpression.parse expression).mapError .Cron)
  let id ← lift (ok_or .EntropyUnavailable entropy)
  let next_run_ms ← lift ((cron.next_after_utc_ms after_ms).mapError .Cron)
  let encoded ← lift (encode_cron_schedule ⟨id,as_bytes expression,job,next_run_ms,true,0,none⟩)
  rethrow .Store (put_alone io (cron_key id) encoded)
  return id

def set_cron_schedule_enabled (io : Io) (id : CronScheduleId) (enabled : Bool) : EStateM CronSchedulerError Store Bool := do
  match ← lift ((← get).get_cron_schedule id) with
  | none => return false
  | some schedule =>
    let encoded ← lift (encode_cron_schedule { schedule with enabled })
    rethrow .Store (put_alone io (cron_key id) encoded)
    return true

/-- One round of `tick_cron_schedules`: first the job is submitted, and then the
    schedule is written, each in a transaction of its own. -/
def fire_cron_schedule (io : Io) (entropy : Option (ByteArr 16)) (now_ms : Int64) (schedule : DurableCronSchedule) :
    EStateM CronSchedulerError Store Unit := do
  let cron ← lift schedule.cron
  let _ ← rethrow .Job (submit_job io entropy schedule.occurrence now_ms)
  let schedule ← lift (schedule.advanced cron)
  let encoded ← lift (encode_cron_schedule schedule)
  rethrow .Store (put_alone io (cron_key schedule.id) encoded)

/-- The loop of `tick_cron_schedules`. Each run that is fired may take an id of its own. -/
def tick_cron_each (io : Io) (entropy : Nat → Option (ByteArr 16)) (now_ms : Int64) (limit fired : Nat) :
    List DurableCronSchedule → EStateM CronSchedulerError Store Nat
  | [] => pure fired
  | schedule :: schedules => do
    if fired = limit then return fired else
    if !schedule.enabled ∨ schedule.next_run_ms > now_ms then tick_cron_each io entropy now_ms limit fired schedules else
    fire_cron_schedule io (entropy fired) now_ms schedule
    tick_cron_each io entropy now_ms limit (fired + 1) schedules

def tick_cron_schedules (io : Io) (entropy : Nat → Option (ByteArr 16)) (ties : DurableCronSchedule → Nat) (now_ms : Int64)
    (limit : Nat) : EStateM CronSchedulerError Store CronTickReport := do
  let schedules ← lift ((← get).list_cron_schedules ties)
  let fired ← tick_cron_each io entropy now_ms limit 0 schedules
  return ⟨schedules.length,fired⟩

end

end VoodooStore
