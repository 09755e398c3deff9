import VoodooStore.Fields

/-!
# Jobs and schedules

The store keeps what is ready to be executed, who holds it until when, and what
happened to it; it never executes anything. A job has a record and a history,
which every operation but a heartbeat writes together. What the world decides
comes with the call: the entropy of the ids and the failures of the calls to the
operating system.
-/
namespace VoodooStore
open Effects
set_option linter.unusedSimpArgs false

def JOB_PREFIX : Bytes := INTERNAL_KEY_PREFIX ++ ascii "job:data:"
def HISTORY_PREFIX : Bytes := INTERNAL_KEY_PREFIX ++ ascii "job:history:"
def SCHEDULE_PREFIX : Bytes := INTERNAL_KEY_PREFIX ++ ascii "schedule:data:"

abbrev JobId := ByteArr 16
abbrev ScheduleId := ByteArr 16

inductive DurableJobState
  | Ready
  | Leased
  | Completed
  | Dead
  | Cancelled
  deriving DecidableEq

structure JobSpec where
  handler : Bytes
  payload : Bytes
  available_at_ms : Int64
  deadline_ms : Option Int64
  priority : Int32
  max_attempts : UInt32
  retry_backoff_ms : UInt64
  idempotency_key : Option Bytes
  deriving DecidableEq

def JobSpec.new (handler payload : Bytes) : JobSpec where
  handler
  payload
  available_at_ms := 0
  deadline_ms := none
  priority := 0
  max_attempts := 3
  retry_backoff_ms := 1000
  idempotency_key := none

structure DurableJob where
  id : JobId
  state : DurableJobState
  handler : Bytes
  payload : Bytes
  available_at_ms : Int64
  deadline_ms : Option Int64
  priority : Int32
  attempts : UInt32
  max_attempts : UInt32
  retry_backoff_ms : UInt64
  lease_until_ms : Int64
  lease_generation : UInt32
  idempotency_key : Option Bytes
  deriving DecidableEq

inductive JobHistoryKind
  | Submitted
  | Claimed
  | Completed
  | RetryScheduled
  | Dead
  | Cancelled
  deriving DecidableEq

structure JobHistoryEntry where
  sequence : UInt64
  at_ms : Int64
  kind : JobHistoryKind
  detail : Bytes
  deriving DecidableEq

inductive ScheduleMode
  | Once
  | Interval (every_ms : UInt64)
  deriving DecidableEq

structure DurableSchedule where
  id : ScheduleId
  job : JobSpec
  mode : ScheduleMode
  next_run_ms : Int64
  enabled : Bool
  deriving DecidableEq

structure SchedulerTickReport where
  scanned : Nat
  fired : Nat
  deriving DecidableEq

inductive JobError
  | Store (error : EngineError)
  | EmptyHandler
  | InvalidMaxAttempts
  | InvalidSchedule
  | FieldTooLarge
  | CorruptRecord
  | NotFound
  | NotLeased
  | LeaseMismatch (expected provided : UInt32)
  | AttemptExhausted
  | HistoryExhausted
  | CountOverflow
  | TimeOverflow
  | EntropyUnavailable
  | Panic
  deriving DecidableEq

instance : Panics JobError := ⟨.Panic⟩

/-! ## Records -/

def DurableJobState.as_u8 : DurableJobState → UInt8
  | .Ready => 0
  | .Leased => 1
  | .Completed => 2
  | .Dead => 3
  | .Cancelled => 4

def DurableJobState.try_from (value : UInt8) : Except JobError DurableJobState :=
  if value = 0 then .ok .Ready else if value = 1 then .ok .Leased else if value = 2 then .ok .Completed
  else if value = 3 then .ok .Dead else if value = 4 then .ok .Cancelled else .error .CorruptRecord

def JobHistoryKind.as_u8 : JobHistoryKind → UInt8
  | .Submitted => 0
  | .Claimed => 1
  | .Completed => 2
  | .RetryScheduled => 3
  | .Dead => 4
  | .Cancelled => 5

/-- How `decode_history` reads the kind. -/
def JobHistoryKind.try_from (value : UInt8) : Except JobError JobHistoryKind :=
  if value = 0 then .ok .Submitted else if value = 1 then .ok .Claimed else if value = 2 then .ok .Completed
  else if value = 3 then .ok .RetryScheduled else if value = 4 then .ok .Dead else if value = 5 then .ok .Cancelled
  else .error .CorruptRecord

def job_key (id : JobId) : Bytes := JOB_PREFIX ++ id.val
def history_prefix (id : JobId) : Bytes := HISTORY_PREFIX ++ id.val
def history_key (id : JobId) (sequence : UInt64) : Bytes := history_prefix id ++ sequence.to_be_bytes
def schedule_key (id : ScheduleId) : Bytes := SCHEDULE_PREFIX ++ id.val

def decode_history_sequence (id : JobId) (key : Bytes) : Except JobError UInt64 :=
  let front := history_prefix id
  if !starts_with key front ∨ key.length ≠ front.length + 8 then .error .CorruptRecord else do
  return .ofNat (Endian.ofBe (← slice key front.length key.length))

def append_len (bytes : Bytes) : Except JobError Bytes := write_bytes .FieldTooLarge bytes

/-- The bytes behind a length at the cursor, and the cursor behind them. -/
def read_len (bytes : Bytes) (cursor : Nat) : Except JobError (Bytes × Nat) :=
  if cursor + 4 > bytes.length then .error .CorruptRecord else do
  let len := (UInt32.from_le_bytes (← slice bytes cursor (cursor + 4))).toNat
  match usize_checked_add (cursor + 4) len with
  | none => .error .CorruptRecord
  | some stop =>
    if stop > bytes.length then .error .CorruptRecord else do
    return (← slice bytes (cursor + 4) stop,stop)

/-- The last field of a job: whether there is a key, and the key. -/
def encode_idempotency_key : Option Bytes → Except JobError Bytes
  | some key => do return [1] ++ (← append_len key)
  | none => .ok [0]

def encode_job (job : DurableJob) : Except JobError Bytes := do
  let handler ← append_len job.handler
  let payload ← append_len job.payload
  let idempotency_key ← encode_idempotency_key job.idempotency_key
  return [VERSION] ++ ([job.state.as_u8] ++ (job.id.val ++ (job.available_at_ms.to_le_bytes ++
    ((job.deadline_ms.getD Int64.minValue).to_le_bytes ++ (job.priority.to_le_bytes ++ (job.attempts.to_le_bytes ++
      (job.max_attempts.to_le_bytes ++ (job.retry_backoff_ms.to_le_bytes ++ (job.lease_until_ms.to_le_bytes ++
        (job.lease_generation.to_le_bytes ++ (handler ++ (payload ++ idempotency_key))))))))))))

def JOB_FIXED : Nat := 1 + 1 + 16 + 8 + 8 + 4 + 4 + 4 + 8 + 8 + 4

/-- The key at the cursor, and the cursor behind it. -/
def decode_idempotency_key (bytes : Bytes) (cursor : Nat) : Except JobError (Option Bytes × Nat) := do
  let tag ← index bytes cursor
  if tag = 0 then return (none,cursor + 1)
  else if tag = 1 then
    let (key,cursor) ← read_len bytes (cursor + 1)
    return (some key,cursor)
  else .error .CorruptRecord

def decode_job (bytes : Bytes) : Except JobError DurableJob :=
  if bytes.length < JOB_FIXED then .error .CorruptRecord else do
  if (← index bytes 0) ≠ VERSION then .error .CorruptRecord else do
  let state ← DurableJobState.try_from (← index bytes 1)
  let id ← slice_array 16 bytes 2
  let available_at_ms := Int64.from_le_bytes (← slice bytes 18 26)
  let deadline_raw := Int64.from_le_bytes (← slice bytes 26 34)
  let priority := Int32.from_le_bytes (← slice bytes 34 38)
  let attempts := UInt32.from_le_bytes (← slice bytes 38 42)
  let max_attempts := UInt32.from_le_bytes (← slice bytes 42 46)
  let retry_backoff_ms := UInt64.from_le_bytes (← slice bytes 46 54)
  let lease_until_ms := Int64.from_le_bytes (← slice bytes 54 62)
  let lease_generation := UInt32.from_le_bytes (← slice bytes 62 66)
  let (handler,cursor) ← read_len bytes JOB_FIXED
  let (payload,cursor) ← read_len bytes cursor
  if cursor ≥ bytes.length then .error .CorruptRecord else do
  let (idempotency_key,cursor) ← decode_idempotency_key bytes cursor
  if cursor ≠ bytes.length then .error .CorruptRecord else do
  let deadline_ms := if deadline_raw ≠ Int64.minValue then some deadline_raw else none
  return ⟨id,state,handler,payload,available_at_ms,deadline_ms,priority,attempts,max_attempts,retry_backoff_ms,lease_until_ms,
    lease_generation,idempotency_key⟩

def encode_history (entry : JobHistoryEntry) : Except JobError Bytes := do
  let detail ← append_len entry.detail
  return [VERSION] ++ (entry.sequence.to_le_bytes ++ (entry.at_ms.to_le_bytes ++ ([entry.kind.as_u8] ++ detail)))

def decode_history (bytes : Bytes) : Except JobError JobHistoryEntry :=
  if bytes.length < 18 then .error .CorruptRecord else do
  if (← index bytes 0) ≠ VERSION then .error .CorruptRecord else do
  let sequence := UInt64.from_le_bytes (← slice bytes 1 9)
  let at_ms := Int64.from_le_bytes (← slice bytes 9 17)
  let kind ← JobHistoryKind.try_from (← index bytes 17)
  let (detail,cursor) ← read_len bytes 18
  if cursor ≠ bytes.length then .error .CorruptRecord else do
  return ⟨sequence,at_ms,kind,detail⟩

/-- The job that spells the template of a schedule. -/
def JobSpec.template (spec : JobSpec) : DurableJob where
  id := .filled 0
  state := .Ready
  handler := spec.handler
  payload := spec.payload
  available_at_ms := spec.available_at_ms
  deadline_ms := spec.deadline_ms
  priority := spec.priority
  attempts := 0
  max_attempts := spec.max_attempts
  retry_backoff_ms := spec.retry_backoff_ms
  lease_until_ms := 0
  lease_generation := 0
  idempotency_key := spec.idempotency_key

def encode_mode : ScheduleMode → Bytes
  | .Once => [0]
  | .Interval every_ms => [1] ++ every_ms.to_le_bytes

def encode_schedule (schedule : DurableSchedule) : Except JobError Bytes := do
  let template ← append_len (← encode_job schedule.job.template)
  return [VERSION] ++ (schedule.id.val ++ ([if schedule.enabled then 1 else 0] ++ (schedule.next_run_ms.to_le_bytes ++
    (encode_mode schedule.mode ++ template))))

/-- The mode behind its tag, and the cursor behind it. -/
def decode_mode (bytes : Bytes) (tag : UInt8) (cursor : Nat) : Except JobError (ScheduleMode × Nat) :=
  if tag = 0 then .ok (.Once,cursor)
  else if tag = 1 then
    if cursor + 8 > bytes.length then .error .CorruptRecord else do
    let every_ms := UInt64.from_le_bytes (← slice bytes cursor (cursor + 8))
    if every_ms = 0 then .error .CorruptRecord else return (.Interval every_ms,cursor + 8)
  else .error .CorruptRecord

def decode_schedule (bytes : Bytes) : Except JobError DurableSchedule :=
  if bytes.length < 27 then .error .CorruptRecord else do
  if (← index bytes 0) ≠ VERSION then .error .CorruptRecord else do
  let id ← slice_array 16 bytes 1
  let flag ← index bytes 17
  let enabled ← if flag = 0 then .ok false else if flag = 1 then .ok true else .error .CorruptRecord
  let next_run_ms := Int64.from_le_bytes (← slice bytes 18 26)
  let mode_tag ← index bytes 26
  let (mode,cursor) ← decode_mode bytes mode_tag 27
  let (encoded_job,cursor) ← read_len bytes cursor
  if cursor ≠ bytes.length then .error .CorruptRecord else do
  let template ← decode_job encoded_job
  let job := JobSpec.mk template.handler template.payload template.available_at_ms template.deadline_ms template.priority
    template.max_attempts template.retry_backoff_ms template.idempotency_key
  return ⟨id,job,mode,next_run_ms,enabled⟩

/-! ## Specifications in the records of others -/

section
variable {ε : Type} [Corrupt ε]

/-- How triggers and cron schedules spell the job that they submit. -/
def encode_job_spec (spec : JobSpec) : Except ε Bytes := do
  let handler ← write_bytes Corrupt.corrupt spec.handler
  let payload ← write_bytes Corrupt.corrupt spec.payload
  let idempotency_key ← spec.idempotency_key.mapM (write_bytes Corrupt.corrupt)
  return handler ++ (payload ++ (spec.available_at_ms.to_le_bytes ++ (write_option (spec.deadline_ms.map Int64.to_le_bytes) ++
    (spec.priority.to_le_bytes ++ (spec.max_attempts.to_le_bytes ++ (spec.retry_backoff_ms.to_le_bytes ++
      write_option idempotency_key))))))

def decode_job_spec : Fields ε JobSpec := do
  let handler ← Fields.bytes
  let payload ← Fields.bytes
  let available_at_ms ← Fields.i64
  let deadline_ms ← Fields.option Fields.i64
  let priority ← Fields.i32
  let max_attempts ← Fields.u32
  let retry_backoff_ms ← Fields.u64
  let idempotency_key ← Fields.option Fields.bytes
  return ⟨handler,payload,available_at_ms,deadline_ms,priority,max_attempts,retry_backoff_ms,idempotency_key⟩

/-- `validate_job` of triggers and cron schedules -/
def validate_job (spec : JobSpec) : Except ε Unit :=
  if spec.handler = [] ∨ spec.max_attempts = 0 then .error Corrupt.corrupt else .ok ()

end

/-! ## Jobs -/

/-- `wrapping_add` is the addition of `UInt8`. -/
def retry_delay_ms (job : DurableJob) : Except JobError Int64 := do
  let multiplier := (max job.attempts 1).toUInt64
  let base ← ok_or .TimeOverflow (job.retry_backoff_ms.checked_mul multiplier)
  let seed := job.id.val.foldl (· + ·) 0 + job.attempts.toUInt8
  let percent := 91 + (seed % 20).toUInt64
  let jittered := (← ok_or .TimeOverflow (base.checked_mul percent)) / 100
  ok_or .TimeOverflow (Int64.try_from jittered)

def validate_job_spec (spec : JobSpec) : Except JobError Unit :=
  if spec.handler = [] then .error .EmptyHandler
  else if spec.max_attempts = 0 then .error .InvalidMaxAttempts
  else .ok ()

def validate_job_lease (job : DurableJob) (generation : UInt32) : Except JobError Unit :=
  if job.state ≠ .Leased then .error .NotLeased
  else if job.lease_generation ≠ generation then .error (.LeaseMismatch job.lease_generation generation)
  else .ok ()

def build_job (spec : JobSpec) (entropy : Option (ByteArr 16)) : Except JobError DurableJob := do
  validate_job_spec spec
  let id ← ok_or .EntropyUnavailable entropy
  return { spec.template with id }

def DurableJobState.active (state : DurableJobState) : Bool := state = .Ready ∨ state = .Leased

/-- The loop that looks for an active job with the key. -/
def find_active_job (key : Bytes) : List (Bytes × Bytes) → Except JobError (Option JobId)
  | [] => .ok none
  | (_,encoded) :: entries => do
    let job ← decode_job encoded
    if job.state.active ∧ job.idempotency_key = some key then return some job.id else find_active_job key entries

def Store.find_active_job_by_idempotency (self : Store) (key : Bytes) : Except JobError (Option JobId) :=
  find_active_job key (Store.scan_prefix self JOB_PREFIX)

def Store.get_job (self : Store) (id : JobId) : Except JobError (Option DurableJob) := (self.get (job_key id)).mapM decode_job

def Store.next_history_sequence (self : Store) (id : JobId) : Except JobError UInt64 :=
  match (Store.scan_prefix self (VoodooStore.history_prefix id)).getLast? with
  | none => .ok 0
  | some (key,_) => do
    let last ← decode_history_sequence id key
    ok_or .HistoryExhausted (last.checked_add 1)

def Store.job_history (self : Store) (id : JobId) : Except JobError (List JobHistoryEntry) := do
  let entries ← (Store.scan_prefix self (VoodooStore.history_prefix id)).mapM (fun entry => decode_history entry.2)
  return entries.mergeSort (fun a b => a.sequence ≤ b.sequence)

/-- What the loop of a claim has found: the best job so far, and the jobs whose deadline has passed. -/
structure Survey where
  candidate : Option DurableJob
  expired : List DurableJob

/-- The highest priority, and among these the earliest. -/
def Survey.note (survey : Survey) (now_ms : Int64) (job : DurableJob) : Survey :=
  if !(job.state = .Ready ∨ job.state = .Leased ∧ job.lease_until_ms ≤ now_ms) then survey
  else if job.deadline_ms.any (fun deadline => deadline ≤ now_ms) then { survey with expired := survey.expired ++ [job] }
  else if job.state = .Ready ∧ job.available_at_ms > now_ms then survey
  else if survey.candidate.all (fun current => job.priority > current.priority ∨
      job.priority = current.priority ∧ job.available_at_ms < current.available_at_ms) then { survey with candidate := some job }
  else survey

/-- The loop of `claim_job_for_handlers`. Without handlers every job is looked at. -/
def survey_jobs (now_ms : Int64) (handlers : List Bytes) (survey : Survey) : List (Bytes × Bytes) → Except JobError Survey
  | [] => .ok survey
  | (_,encoded) :: entries => do
    let job ← decode_job encoded
    if handlers ≠ [] ∧ job.handler ∉ handlers then survey_jobs now_ms handlers survey entries
    else survey_jobs now_ms handlers (survey.note now_ms job) entries

/-- The loop of `release_expired_jobs`. -/
def expired_jobs (now_ms : Int64) (expired : List DurableJob) : List (Bytes × Bytes) → Except JobError (List DurableJob)
  | [] => .ok expired
  | (_,encoded) :: entries => do
    let job ← decode_job encoded
    if job.state = .Leased ∧ job.lease_until_ms ≤ now_ms then expired_jobs now_ms (expired ++ [job]) entries
    else expired_jobs now_ms expired entries

section
variable [Hashes]

def append_history_tx (io : Io) (id : JobId) (sequence : UInt64) (entry : JobHistoryEntry) : EStateM JobError Transaction Unit := do
  let encoded ← lift (encode_history entry)
  rethrow .Store (put_internal io (history_key id sequence) encoded)

/-- What every change of a job but a heartbeat stages: first the job, and then the entry of its history. -/
def write_job_tx (io : Io) (job : DurableJob) (entry : JobHistoryEntry) : EStateM JobError Transaction Unit := do
  let encoded ← lift (encode_job job)
  rethrow .Store (put_internal io (job_key job.id) encoded)
  append_history_tx io job.id entry.sequence entry

def persist_job (io : Io) (job : DurableJob) : EStateM JobError Store Unit := do
  let encoded ← lift (encode_job job)
  rethrow .Store (put_alone io (job_key job.id) encoded)

def persist_job_with_history (io : Io) (job : DurableJob) (at_ms : Int64) (kind : JobHistoryKind) (detail : Bytes) :
    EStateM JobError Store Unit := do
  let sequence ← lift ((← get).next_history_sequence job.id)
  within .Store io (write_job_tx io job ⟨sequence,at_ms,kind,detail⟩)

def submit_job (io : Io) (entropy : Option (ByteArr 16)) (spec : JobSpec) (now_ms : Int64) : EStateM JobError Store JobId := do
  lift (validate_job_spec spec)
  let existing ← match spec.idempotency_key with
    | some key => lift ((← get).find_active_job_by_idempotency key)
    | none => pure none
  match existing with
  | some id => return id
  | none =>
    let job ← lift (build_job spec entropy)
    within .Store io (write_job_tx io job ⟨0,now_ms,.Submitted,[]⟩)
    return job.id

def enqueue_job_tx (io : Io) (entropy : Option (ByteArr 16)) (spec : JobSpec) (now_ms : Int64) (detail : Bytes) :
    EStateM JobError Transaction JobId := do
  lift (validate_job_spec spec)
  let existing ← match spec.idempotency_key with
    | some key => lift (find_active_job key ((← get).scan_prefix_internal JOB_PREFIX))
    | none => pure none
  match existing with
  | some id => return id
  | none =>
    let job ← lift (build_job spec entropy)
    write_job_tx io job ⟨0,now_ms,.Submitted,detail⟩
    return job.id

def bury_overdue (io : Io) (now_ms : Int64) : List DurableJob → EStateM JobError Store Unit
  | [] => pure ()
  | job :: expired => do
    persist_job_with_history io { job with state := .Dead, lease_until_ms := 0 } now_ms .Dead (ascii "deadline exceeded")
    bury_overdue io now_ms expired

def claim_job_for_handlers (io : Io) (now_ms : Int64) (lease_duration_ms : UInt64) (handlers : List Bytes) :
    EStateM JobError Store (Option DurableJob) := do
  let lease_duration ← lift (ok_or .TimeOverflow (Int64.try_from lease_duration_ms))
  let lease_until_ms ← lift (ok_or .TimeOverflow (now_ms.checked_add lease_duration))
  let survey ← lift (survey_jobs now_ms handlers ⟨none,[]⟩ (Store.scan_prefix (← get) JOB_PREFIX))
  bury_overdue io now_ms survey.expired
  match survey.candidate with
  | none => return none
  | some job =>
    let attempts ← lift (ok_or .AttemptExhausted (job.attempts.checked_add 1))
    if attempts > job.max_attempts then
      persist_job_with_history io { job with attempts, state := .Dead, lease_until_ms := 0 } now_ms .Dead (ascii "max attempts exceeded")
      return none
    else
      let job := { job with attempts, state := .Leased, lease_until_ms, lease_generation := attempts }
      persist_job_with_history io job now_ms .Claimed []
      return some job

def claim_job (io : Io) (now_ms : Int64) (lease_duration_ms : UInt64) : EStateM JobError Store (Option DurableJob) :=
  claim_job_for_handlers io now_ms lease_duration_ms []

def heartbeat_job (io : Io) (id : JobId) (lease_generation : UInt32) (now_ms : Int64) (lease_duration_ms : UInt64) :
    EStateM JobError Store Bool := do
  match ← lift ((← get).get_job id) with
  | none => return false
  | some job =>
    if job.state ≠ .Leased ∨ job.lease_generation ≠ lease_generation then return false else
    let duration ← lift (ok_or .TimeOverflow (Int64.try_from lease_duration_ms))
    let lease_until_ms ← lift (ok_or .TimeOverflow (now_ms.checked_add duration))
    persist_job io { job with lease_until_ms }
    return true

/-- The job that a worker with this lease may settle. -/
def leased_job (id : JobId) (lease_generation : UInt32) : EStateM JobError Store DurableJob := do
  let found ← lift ((← get).get_job id)
  let job ← lift (ok_or .NotFound found)
  lift (validate_job_lease job lease_generation)
  return job

def complete_job (io : Io) (id : JobId) (lease_generation : UInt32) (now_ms : Int64) : EStateM JobError Store Unit := do
  let job ← leased_job id lease_generation
  persist_job_with_history io { job with state := .Completed, lease_until_ms := 0 } now_ms .Completed []

def fail_job (io : Io) (id : JobId) (lease_generation : UInt32) (now_ms : Int64) (detail : Bytes) :
    EStateM JobError Store DurableJobState := do
  let job ← leased_job id lease_generation
  if job.attempts ≥ job.max_attempts then
    persist_job_with_history io { job with state := .Dead, lease_until_ms := 0 } now_ms .Dead detail
    return .Dead
  else
    let delay ← lift (retry_delay_ms job)
    let available_at_ms ← lift (ok_or .TimeOverflow (now_ms.checked_add delay))
    persist_job_with_history io { job with state := .Ready, available_at_ms, lease_until_ms := 0 } now_ms .RetryScheduled detail
    return .Ready

def release_job (io : Io) (id : JobId) (lease_generation : UInt32) (now_ms : Int64) : EStateM JobError Store Bool := do
  match ← lift ((← get).get_job id) with
  | none => return false
  | some job =>
    if job.state ≠ .Leased ∨ job.lease_generation ≠ lease_generation then return false else
    persist_job_with_history io { job with state := .Ready, available_at_ms := now_ms, lease_until_ms := 0 } now_ms .RetryScheduled
      (ascii "released")
    return true

def release_each (io : Io) (now_ms : Int64) : List DurableJob → EStateM JobError Store Unit
  | [] => pure ()
  | job :: expired => do
    if job.attempts ≥ job.max_attempts then
      persist_job_with_history io { job with state := .Dead, lease_until_ms := 0 } now_ms .Dead
        (ascii "lease expired: max attempts exhausted")
    else
      persist_job_with_history io { job with state := .Ready, available_at_ms := now_ms, lease_until_ms := 0 } now_ms .RetryScheduled
        (ascii "lease expired")
    release_each io now_ms expired

def release_expired_jobs (io : Io) (now_ms : Int64) : EStateM JobError Store Nat := do
  let expired ← lift (expired_jobs now_ms [] (Store.scan_prefix (← get) JOB_PREFIX))
  release_each io now_ms expired
  return expired.length

def retry_job (io : Io) (id : JobId) (now_ms : Int64) : EStateM JobError Store (Option DurableJob) := do
  match ← lift ((← get).get_job id) with
  | none => return none
  | some job =>
    if job.state ≠ .Dead then return none else
    let job := { job with state := .Ready, available_at_ms := now_ms, attempts := 0, lease_until_ms := 0, lease_generation := 0 }
    persist_job_with_history io job now_ms .RetryScheduled (ascii "manual retry")
    return some job

def cancel_job (io : Io) (id : JobId) (now_ms : Int64) : EStateM JobError Store Bool := do
  match ← lift ((← get).get_job id) with
  | none => return false
  | some job =>
    if job.state = .Completed ∨ job.state = .Dead ∨ job.state = .Cancelled then return false else
    persist_job_with_history io { job with state := .Cancelled, lease_until_ms := 0 } now_ms .Cancelled []
    return true

end

/-! ## Schedules -/

def Store.get_schedule (self : Store) (id : ScheduleId) : Except JobError (Option DurableSchedule) :=
  (self.get (schedule_key id)).mapM decode_schedule

/-- The job of the run that is due: its key ends with the time of the run. -/
def DurableSchedule.occurrence (self : DurableSchedule) : JobSpec :=
  { self.job with
    available_at_ms := self.next_run_ms
    idempotency_key := self.job.idempotency_key.map (fun key => key ++ self.next_run_ms.to_be_bytes) }

/-- The loop that looks for the first run behind the time. It takes at most one
    round for each millisecond (`first_run_ends`), so that the fuel suffices. -/
def first_run_after (now_ms every : Int64) : Nat → Int64 → Option (Except JobError Int64)
  | 0, _ => none
  | fuel + 1, next =>
    if next ≤ now_ms then
      match next.checked_add every with
      | none => some (.error .TimeOverflow)
      | some later => first_run_after now_ms every fuel later
    else some (.ok next)

/-- The schedule behind the run that is due. -/
def DurableSchedule.advanced (self : DurableSchedule) (now_ms : Int64) : Except JobError DurableSchedule :=
  match self.mode with
  | .Once => .ok { self with enabled := false }
  | .Interval every_ms => do
    let every ← ok_or .TimeOverflow (Int64.try_from every_ms)
    let next ← (first_run_after now_ms every USIZE self.next_run_ms).getD (.error Panics.panic)
    return { self with next_run_ms := next }

section
variable [Hashes]

def create_schedule (io : Io) (entropy : Option (ByteArr 16)) (job : JobSpec) (mode : ScheduleMode) (first_run_ms : Int64) :
    EStateM JobError Store ScheduleId := do
  lift (validate_job_spec job)
  if mode = .Interval 0 then throw .InvalidSchedule else
  let id ← lift (ok_or .EntropyUnavailable entropy)
  let encoded ← lift (encode_schedule ⟨id,job,mode,first_run_ms,true⟩)
  rethrow .Store (put_alone io (schedule_key id) encoded)
  return id

def set_schedule_enabled (io : Io) (id : ScheduleId) (enabled : Bool) : EStateM JobError Store Bool := do
  match ← lift ((← get).get_schedule id) with
  | none => return false
  | some schedule =>
    let encoded ← lift (encode_schedule { schedule with enabled })
    rethrow .Store (put_alone io (schedule_key id) encoded)
    return true

/-- The transaction of a run: the job, its history and the schedule. -/
def fire_schedule_tx (io : Io) (job : DurableJob) (now_ms : Int64) (schedule : DurableSchedule) : EStateM JobError Transaction Unit := do
  write_job_tx io job ⟨0,now_ms,.Submitted,ascii "scheduled"⟩
  let encoded ← lift (encode_schedule schedule)
  rethrow .Store (put_internal io (schedule_key schedule.id) encoded)

/-- The loop of `tick_schedules`. Each run that is fired takes an id of its own. -/
def tick_each (io : Io) (entropy : Nat → Option (ByteArr 16)) (now_ms : Int64) (limit fired : Nat) :
    List (Bytes × Bytes) → EStateM JobError Store Nat
  | [] => pure fired
  | (_,encoded) :: schedules => do
    if fired = limit then return fired else
    let schedule ← lift (decode_schedule encoded)
    if !schedule.enabled ∨ schedule.next_run_ms > now_ms then tick_each io entropy now_ms limit fired schedules else
    let job ← lift (build_job schedule.occurrence (entropy fired))
    let schedule ← lift (schedule.advanced now_ms)
    within .Store io (fire_schedule_tx io job now_ms schedule)
    tick_each io entropy now_ms limit (fired + 1) schedules

def tick_schedules (io : Io) (entropy : Nat → Option (ByteArr 16)) (now_ms : Int64) (limit : Nat) :
    EStateM JobError Store SchedulerTickReport := do
  let schedules := Store.scan_prefix (← get) SCHEDULE_PREFIX
  let fired ← tick_each io entropy now_ms limit 0 schedules
  return ⟨schedules.length,fired⟩

end

end VoodooStore
