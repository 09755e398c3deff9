import VoodooStore.Jobs

/-!
# Jobs and triggers in a transaction

A trigger holds the job that each of its fires submits. In a transaction the
job, its history and the trigger become visible together.
-/
namespace VoodooStore
open Effects Reading
set_option linter.unusedSimpArgs false

/-! ## Jobs -/

inductive TransactionalError
  | Store (error : EngineError)
  | EmptyHandler
  | InvalidMaxAttempts
  | FieldTooLarge
  | CorruptJobRecord
  | EntropyUnavailable
  | Job (error : JobError)
  deriving DecidableEq

/-- The last case carries the text of the error in the source. -/
def map_job_error : JobError → TransactionalError
  | .Store error => .Store error
  | .EmptyHandler => .EmptyHandler
  | .InvalidMaxAttempts => .InvalidMaxAttempts
  | .FieldTooLarge => .FieldTooLarge
  | .CorruptRecord => .CorruptJobRecord
  | .EntropyUnavailable => .EntropyUnavailable
  | other => .Job other

section
variable [Hashes]

def enqueue_job (io : Io) (entropy : Option (ByteArr 16)) (spec : JobSpec) (now_ms : Int64) :
    EStateM TransactionalError Transaction JobId :=
  rethrow map_job_error (enqueue_job_tx io entropy spec now_ms (ascii "transactional"))

end

/-! ## Triggers -/

def TRIGGER_PREFIX : Bytes := INTERNAL_KEY_PREFIX ++ ascii "trigger:data:"

abbrev TriggerId := ByteArr 16

inductive TriggerSource
  | Manual
  | Collection (collection operation : Bytes)
  | Stream (stream : Bytes)
  | Topic (topic : Bytes)
  deriving DecidableEq

structure DurableTrigger where
  id : TriggerId
  name : Bytes
  source : TriggerSource
  job : JobSpec
  enabled : Bool
  fire_count : UInt64
  last_fired_at_ms : Option Int64
  deriving DecidableEq

inductive TriggerError
  | Store (error : EngineError)
  | Job (error : JobError)
  | Transactional (error : TransactionalError)
  | NotFound
  | EmptyName
  | CorruptRecord
  | FireCountOverflow
  | EntropyUnavailable
  deriving DecidableEq

instance : Corrupt TriggerError := ⟨.CorruptRecord⟩

def validate_source : TriggerSource → Except TriggerError Unit
  | .Manual => .ok ()
  | .Collection collection operation => if collection ≠ [] ∧ operation ≠ [] then .ok () else .error .CorruptRecord
  | .Stream stream => if stream ≠ [] then .ok () else .error .CorruptRecord
  | .Topic topic => if topic ≠ [] then .ok () else .error .CorruptRecord

def trigger_key (id : TriggerId) : Bytes := TRIGGER_PREFIX ++ id.val

def encode_source : TriggerSource → Except TriggerError Bytes
  | .Manual => .ok [0]
  | .Collection collection operation => do
    let collection ← write_bytes .CorruptRecord collection
    let operation ← write_bytes .CorruptRecord operation
    return [1] ++ (collection ++ operation)
  | .Stream stream => do return [2] ++ (← write_bytes .CorruptRecord stream)
  | .Topic topic => do return [3] ++ (← write_bytes .CorruptRecord topic)

def decode_source : Fields TriggerError TriggerSource := do
  let tag ← Fields.u8
  if tag = 0 then return .Manual
  else if tag = 1 then return .Collection (← Fields.bytes) (← Fields.bytes)
  else if tag = 2 then return .Stream (← Fields.bytes)
  else if tag = 3 then return .Topic (← Fields.bytes)
  else throw .CorruptRecord

def encode_trigger (trigger : DurableTrigger) : Except TriggerError Bytes := do
  let name ← write_bytes .CorruptRecord trigger.name
  let source ← encode_source trigger.source
  let job ← encode_job_spec trigger.job
  return [VERSION] ++ (trigger.id.val ++ (name ++ (source ++ (job ++ (write_bool trigger.enabled ++
    (trigger.fire_count.to_le_bytes ++ write_option (trigger.last_fired_at_ms.map Int64.to_le_bytes)))))))

def read_trigger : Fields TriggerError DurableTrigger := do
  let version ← Fields.u8
  if version ≠ VERSION then throw .CorruptRecord else do
  let id ← Fields.array_16
  let name ← Fields.bytes
  let source ← decode_source
  let job ← decode_job_spec
  let enabled ← Fields.bool
  let fire_count ← Fields.u64
  let last_fired_at_ms ← Fields.option Fields.i64
  return ⟨id,name,source,job,enabled,fire_count,last_fired_at_ms⟩

def decode_trigger (bytes : Bytes) : Except TriggerError DurableTrigger := do
  let trigger ← readAll .CorruptRecord read_trigger bytes
  if trigger.name = [] then .error .CorruptRecord else do
  validate_source trigger.source
  validate_job trigger.job
  return trigger

def Store.get_trigger (self : Store) (id : TriggerId) : Except TriggerError (Option DurableTrigger) :=
  (self.get (trigger_key id)).mapM decode_trigger

section
variable [Hashes]

def create_trigger (io : Io) (entropy : Option (ByteArr 16)) (name : Bytes) (source : TriggerSource) (job : JobSpec) :
    EStateM TriggerError Store TriggerId := do
  if name = [] then throw .EmptyName else
  lift (validate_source source)
  lift (validate_job job)
  let id ← lift (ok_or .EntropyUnavailable entropy)
  let encoded ← lift (encode_trigger ⟨id,name,source,job,true,0,none⟩)
  rethrow .Store (put_alone io (trigger_key id) encoded)
  return id

def set_trigger_enabled (io : Io) (id : TriggerId) (enabled : Bool) : EStateM TriggerError Store Bool := do
  match ← lift ((← get).get_trigger id) with
  | none => return false
  | some trigger =>
    let encoded ← lift (encode_trigger { trigger with enabled })
    rethrow .Store (put_alone io (trigger_key id) encoded)
    return true

/-- The job of a fire: an event has its own payload, if that is not empty. -/
def DurableTrigger.occurrence (self : DurableTrigger) (event_payload : Bytes) : JobSpec :=
  if event_payload = [] then self.job else { self.job with payload := event_payload }

/-- `Transaction::fire_trigger` -/
def fire_trigger_tx (io : Io) (entropy : Option (ByteArr 16)) (id : TriggerId) (event_payload : Bytes) (now_ms : Int64) :
    EStateM TriggerError Transaction (Option JobId) := do
  match (← get).get_internal (trigger_key id) with
  | none => throw .NotFound
  | some encoded =>
    let trigger ← lift (decode_trigger encoded)
    if !trigger.enabled then return none else
    let spec := trigger.occurrence event_payload
    lift (validate_job spec)
    let job_id ← rethrow .Transactional (enqueue_job io entropy spec now_ms)
    let fire_count ← lift (ok_or .FireCountOverflow (trigger.fire_count.checked_add 1))
    let encoded ← lift (encode_trigger { trigger with fire_count, last_fired_at_ms := some now_ms })
    rethrow .Store (put_internal io (trigger_key id) encoded)
    return some job_id

/-- `Store::fire_trigger` -/
def fire_trigger (io : Io) (entropy : Option (ByteArr 16)) (id : TriggerId) (event_payload : Bytes) (now_ms : Int64) :
    EStateM TriggerError Store (Option JobId) :=
  within .Store io (fire_trigger_tx io entropy id event_payload now_ms)

end

end VoodooStore
