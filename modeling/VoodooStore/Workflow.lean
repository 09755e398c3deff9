import VoodooStore.Messaging

/-!
# Workflows

The store keeps the state of workflows, what they wait for and their history; it
never executes anything. Every operation writes the instance together with the
next entry of its history. Eight of them are offered on a store and on a
transaction.
-/
namespace VoodooStore
open Effects Reading
set_option linter.unusedSimpArgs false

abbrev WorkflowId := ByteArr 16

inductive WorkflowStatus
  | Running
  | Waiting
  | Completed
  | Failed
  | Cancelled
  deriving DecidableEq

inductive WorkflowWait
  | Signal (name : Bytes)
  | Timer (resume_at_ms : Int64)
  deriving DecidableEq

structure WorkflowInstance where
  id : WorkflowId
  workflow_type : Bytes
  status : WorkflowStatus
  current_step : Bytes
  state : Bytes
  parent_id : Option WorkflowId
  wait : Option WorkflowWait
  created_at_ms : Int64
  updated_at_ms : Int64
  deriving DecidableEq

inductive WorkflowHistoryKind
  | Created
  | StepChanged
  | WaitingSignal
  | SignalReceived
  | WaitingTimer
  | TimerFired
  | Completed
  | Failed
  | Cancelled
  deriving DecidableEq

structure WorkflowHistoryEntry where
  sequence : UInt64
  at_ms : Int64
  kind : WorkflowHistoryKind
  detail : Bytes
  deriving DecidableEq

structure WorkflowResumeReport where
  scanned : Nat
  resumed : Nat
  deriving DecidableEq

inductive WorkflowError
  | Store (error : EngineError)
  | EmptyWorkflowType
  | EmptyStep
  | EmptySignal
  | NotFound
  | AlreadyTerminal
  | FieldTooLarge
  | CorruptRecord
  | HistoryExhausted
  | EntropyUnavailable
  deriving DecidableEq

instance : Corrupt WorkflowError := ⟨.CorruptRecord⟩

namespace Workflow

def INSTANCE_PREFIX : Bytes := INTERNAL_KEY_PREFIX ++ ascii "wf:instance:"
def HISTORY_PREFIX : Bytes := INTERNAL_KEY_PREFIX ++ ascii "wf:history:"

def is_terminal (status : WorkflowStatus) : Bool := status = .Completed ∨ status = .Failed ∨ status = .Cancelled

def ensure_active (self : WorkflowInstance) : Except WorkflowError Unit :=
  if is_terminal self.status then .error .AlreadyTerminal else .ok ()

/-! ## Records -/

def instance_key (id : WorkflowId) : Bytes := INSTANCE_PREFIX ++ id.val
def history_prefix (id : WorkflowId) : Bytes := HISTORY_PREFIX ++ id.val
def history_key (id : WorkflowId) (sequence : UInt64) : Bytes := history_prefix id ++ sequence.to_be_bytes

def decode_history_sequence (id : WorkflowId) (key : Bytes) : Except WorkflowError UInt64 :=
  let front := history_prefix id
  if !starts_with key front ∨ key.length ≠ front.length + 8 then .error .CorruptRecord
  else .ok (UInt64.from_be_bytes (key.drop front.length))

def push_bytes (value : Bytes) : Except WorkflowError Bytes := write_bytes .FieldTooLarge value

def status_as_u8 : WorkflowStatus → UInt8
  | .Running => 0
  | .Waiting => 1
  | .Completed => 2
  | .Failed => 3
  | .Cancelled => 4

def status_try_from (value : UInt8) : Except WorkflowError WorkflowStatus :=
  if value = 0 then .ok .Running else if value = 1 then .ok .Waiting else if value = 2 then .ok .Completed
  else if value = 3 then .ok .Failed else if value = 4 then .ok .Cancelled else .error .CorruptRecord

def kind_as_u8 : WorkflowHistoryKind → UInt8
  | .Created => 0
  | .StepChanged => 1
  | .WaitingSignal => 2
  | .SignalReceived => 3
  | .WaitingTimer => 4
  | .TimerFired => 5
  | .Completed => 6
  | .Failed => 7
  | .Cancelled => 8

/-- How `decode_history` reads the kind. -/
def kind_try_from (value : UInt8) : Except WorkflowError WorkflowHistoryKind :=
  if value = 0 then .ok .Created else if value = 1 then .ok .StepChanged else if value = 2 then .ok .WaitingSignal
  else if value = 3 then .ok .SignalReceived else if value = 4 then .ok .WaitingTimer else if value = 5 then .ok .TimerFired
  else if value = 6 then .ok .Completed else if value = 7 then .ok .Failed else if value = 8 then .ok .Cancelled
  else .error .CorruptRecord

def encode_wait : Option WorkflowWait → Except WorkflowError Bytes
  | none => .ok [0]
  | some (.Signal name) => do return [1] ++ (← push_bytes name)
  | some (.Timer resume_at_ms) => .ok ([2] ++ resume_at_ms.to_le_bytes)

def encode_instance (self : WorkflowInstance) : Except WorkflowError Bytes := do
  let workflow_type ← push_bytes self.workflow_type
  let current_step ← push_bytes self.current_step
  let state ← push_bytes self.state
  let wait ← encode_wait self.wait
  return [VERSION] ++ (self.id.val ++ ([status_as_u8 self.status] ++ (self.created_at_ms.to_le_bytes ++
    (self.updated_at_ms.to_le_bytes ++ (write_option (self.parent_id.map Subtype.val) ++
      (workflow_type ++ (current_step ++ (state ++ wait))))))))

def read_wait : Fields WorkflowError (Option WorkflowWait) := do
  let tag ← Fields.u8
  if tag = 0 then return none
  else if tag = 1 then return some (.Signal (← Fields.bytes))
  else if tag = 2 then return some (.Timer (← Fields.i64))
  else throw .CorruptRecord

/-- The fields one after another, as their offsets have them. Whatever is wrong
    is reported in the same way, so that the checks of the length may come last. -/
def read_instance : Fields WorkflowError WorkflowInstance := do
  let version ← Fields.u8
  if version ≠ VERSION then throw .CorruptRecord else do
  let id ← Fields.array_16
  let status ← lift (status_try_from (← Fields.u8))
  let created_at_ms ← Fields.i64
  let updated_at_ms ← Fields.i64
  let parent_id ← Fields.option Fields.array_16
  let workflow_type ← Fields.bytes
  let current_step ← Fields.bytes
  let state ← Fields.bytes
  let wait ← read_wait
  return { id, workflow_type, status, current_step, state, parent_id, wait, created_at_ms, updated_at_ms }

def decode_instance (input : Bytes) : Except WorkflowError WorkflowInstance := readAll .CorruptRecord read_instance input

def encode_history (entry : WorkflowHistoryEntry) : Except WorkflowError Bytes := do
  let detail ← push_bytes entry.detail
  return [VERSION] ++ (entry.sequence.to_le_bytes ++ (entry.at_ms.to_le_bytes ++ ([kind_as_u8 entry.kind] ++ detail)))

def read_history : Fields WorkflowError WorkflowHistoryEntry := do
  let version ← Fields.u8
  if version ≠ VERSION then throw .CorruptRecord else do
  let sequence ← Fields.u64
  let at_ms ← Fields.i64
  let kind ← lift (kind_try_from (← Fields.u8))
  let detail ← Fields.bytes
  return { sequence, at_ms, kind, detail }

def decode_history (input : Bytes) : Except WorkflowError WorkflowHistoryEntry := readAll .CorruptRecord read_history input

/-- The number behind the last entry of the history. -/
def sequence_after (id : WorkflowId) (records : List (Bytes × Bytes)) : Except WorkflowError UInt64 :=
  match records.getLast? with
  | none => .ok 0
  | some (key,_) => do
    let last ← decode_history_sequence id key
    ok_or .HistoryExhausted (last.checked_add 1)

/-- The loop of `resume_due_workflows` over the instances. -/
def due_workflows (now_ms : Int64) (limit : Nat) (due : List WorkflowInstance) : List (Bytes × Bytes) → Except WorkflowError (List WorkflowInstance)
  | [] => .ok due
  | (_,encoded) :: records =>
    if due.length = limit then .ok due else do
    let self ← decode_instance encoded
    match self.status, self.wait with
    | .Waiting, some (.Timer resume_at_ms) =>
      if resume_at_ms ≤ now_ms then due_workflows now_ms limit (due ++ [self]) records
      else due_workflows now_ms limit due records
    | _, _ => due_workflows now_ms limit due records

end Workflow

open Workflow

/-! ## On a store -/

def Store.get_workflow (self : Store) (id : WorkflowId) : Except WorkflowError (Option WorkflowInstance) :=
  (self.get (instance_key id)).mapM decode_instance

/-- Numbers of entries differ, so that it does not matter that the sort is not stable. -/
def Store.workflow_history (self : Store) (id : WorkflowId) : Except WorkflowError (List WorkflowHistoryEntry) := do
  let entries ← (Store.scan_prefix self (Workflow.history_prefix id)).mapM (fun record => Workflow.decode_history record.2)
  return entries.mergeSort (fun a b => a.sequence ≤ b.sequence)

def Store.next_workflow_history_sequence (self : Store) (id : WorkflowId) : Except WorkflowError UInt64 :=
  sequence_after id (Store.scan_prefix self (Workflow.history_prefix id))

section
variable [Hashes]

/-- What every operation stages: first the instance, and then the entry of its history. -/
def write_workflow (io : Io) (self : WorkflowInstance) (history : WorkflowHistoryEntry) : EStateM WorkflowError Transaction Unit := do
  let encoded ← lift (encode_instance self)
  rethrow .Store (put_internal io (instance_key self.id) encoded)
  let encoded ← lift (Workflow.encode_history history)
  rethrow .Store (put_internal io (Workflow.history_key self.id history.sequence) encoded)

def Store.create_workflow (io : Io) (entropy : Option WorkflowId) (workflow_type initial_step initial_state : Bytes)
    (parent_id : Option WorkflowId) (now_ms : Int64) : EStateM WorkflowError Store WorkflowId := do
  if workflow_type = [] then throw .EmptyWorkflowType else
  if initial_step = [] then throw .EmptyStep else
  let id ← lift (ok_or .EntropyUnavailable entropy)
  let new := { id, workflow_type, status := .Running, current_step := initial_step, state := initial_state, parent_id, wait := none,
               created_at_ms := now_ms, updated_at_ms := now_ms }
  within .Store io (write_workflow io new ⟨0,now_ms,.Created,[]⟩)
  return id

def Store.persist_instance_with_history (io : Io) (self : WorkflowInstance) (at_ms : Int64) (kind : WorkflowHistoryKind) (detail : Bytes) :
    EStateM WorkflowError Store Unit := do
  let sequence ← lift ((← MonadState.get).next_workflow_history_sequence self.id)
  within .Store io (write_workflow io self ⟨sequence,at_ms,kind,detail⟩)

def Store.set_workflow_step (io : Io) (id : WorkflowId) (step state : Bytes) (now_ms : Int64) : EStateM WorkflowError Store Unit := do
  if step = [] then throw .EmptyStep else
  let found ← lift ((← MonadState.get).get_workflow id)
  let self ← lift (ok_or .NotFound found)
  lift (ensure_active self)
  let self := { self with status := .Running, current_step := step, state, wait := none, updated_at_ms := now_ms }
  Store.persist_instance_with_history io self now_ms .StepChanged step

def Store.wait_for_signal (io : Io) (id : WorkflowId) (signal : Bytes) (now_ms : Int64) : EStateM WorkflowError Store Unit := do
  if signal = [] then throw .EmptySignal else
  let found ← lift ((← MonadState.get).get_workflow id)
  let self ← lift (ok_or .NotFound found)
  lift (ensure_active self)
  let self := { self with status := .Waiting, wait := some (.Signal signal), updated_at_ms := now_ms }
  Store.persist_instance_with_history io self now_ms .WaitingSignal signal

def Store.signal_workflow (io : Io) (id : WorkflowId) (signal payload : Bytes) (now_ms : Int64) : EStateM WorkflowError Store Bool := do
  let found ← lift ((← MonadState.get).get_workflow id)
  let self ← lift (ok_or .NotFound found)
  match self.wait with
  | some (.Signal name) =>
    if name ≠ signal then return false else
    let self := { self with status := .Running, wait := none, state := payload, updated_at_ms := now_ms }
    Store.persist_instance_with_history io self now_ms .SignalReceived signal
    return true
  | _ => return false

def Store.wait_until (io : Io) (id : WorkflowId) (resume_at_ms now_ms : Int64) : EStateM WorkflowError Store Unit := do
  let found ← lift ((← MonadState.get).get_workflow id)
  let self ← lift (ok_or .NotFound found)
  lift (ensure_active self)
  let self := { self with status := .Waiting, wait := some (.Timer resume_at_ms), updated_at_ms := now_ms }
  Store.persist_instance_with_history io self now_ms .WaitingTimer resume_at_ms.to_le_bytes

/-- Each instance that is due is a transaction of its own. -/
def resume_each (ios : Nat → Io) (now_ms : Int64) (round : Nat) : List WorkflowInstance → EStateM WorkflowError Store Unit
  | [] => return ()
  | self :: due => do
    let self := { self with status := .Running, wait := none, updated_at_ms := now_ms }
    Store.persist_instance_with_history (ios round) self now_ms .TimerFired []
    resume_each ios now_ms (round + 1) due

def resume_due_workflows (ios : Nat → Io) (now_ms : Int64) (limit : Nat) : EStateM WorkflowError Store WorkflowResumeReport := do
  let records := Store.scan_prefix (← get) INSTANCE_PREFIX
  let due ← lift (due_workflows now_ms limit [] records)
  resume_each ios now_ms 0 due
  return ⟨records.length,due.length⟩

def Store.finish_workflow (io : Io) (id : WorkflowId) (status : WorkflowStatus) (kind : WorkflowHistoryKind) (detail : Bytes)
    (now_ms : Int64) : EStateM WorkflowError Store Unit := do
  let found ← lift ((← MonadState.get).get_workflow id)
  let self ← lift (ok_or .NotFound found)
  if is_terminal self.status then throw .AlreadyTerminal else
  let self := { self with status, state := detail, wait := none, updated_at_ms := now_ms }
  Store.persist_instance_with_history io self now_ms kind detail

def Store.complete_workflow (io : Io) (id : WorkflowId) (final_state : Bytes) (now_ms : Int64) : EStateM WorkflowError Store Unit :=
  Store.finish_workflow io id .Completed .Completed final_state now_ms

def Store.fail_workflow (io : Io) (id : WorkflowId) (error : Bytes) (now_ms : Int64) : EStateM WorkflowError Store Unit :=
  Store.finish_workflow io id .Failed .Failed error now_ms

def Store.cancel_workflow (io : Io) (id : WorkflowId) (reason : Bytes) (now_ms : Int64) : EStateM WorkflowError Store Bool := do
  match ← lift ((← MonadState.get).get_workflow id) with
  | none => return false
  | some self =>
    if is_terminal self.status then return false else
    let self := { self with status := .Cancelled, wait := none, updated_at_ms := now_ms }
    Store.persist_instance_with_history io self now_ms .Cancelled reason
    return true

/-! ## In a transaction -/

def create_workflow (io : Io) (entropy : Option WorkflowId) (workflow_type initial_step initial_state : Bytes)
    (parent_id : Option WorkflowId) (now_ms : Int64) : EStateM WorkflowError Transaction WorkflowId := do
  if workflow_type = [] then throw .EmptyWorkflowType else
  if initial_step = [] then throw .EmptyStep else
  let id ← lift (ok_or .EntropyUnavailable entropy)
  let new := { id, workflow_type, status := .Running, current_step := initial_step, state := initial_state, parent_id, wait := none,
               created_at_ms := now_ms, updated_at_ms := now_ms }
  write_workflow io new ⟨0,now_ms,.Created,[]⟩
  return id

end

def Transaction.workflow_instance (self : Transaction) (id : WorkflowId) : Except WorkflowError WorkflowInstance := do
  ok_or .NotFound (← (self.get_internal (instance_key id)).mapM decode_instance)

def Transaction.next_workflow_history_sequence_tx (self : Transaction) (id : WorkflowId) : Except WorkflowError UInt64 :=
  sequence_after id (self.scan_prefix_internal (Workflow.history_prefix id))

section
variable [Hashes]

def persist_workflow_with_history (io : Io) (self : WorkflowInstance) (at_ms : Int64) (kind : WorkflowHistoryKind) (detail : Bytes) :
    EStateM WorkflowError Transaction Unit := do
  let sequence ← lift ((← get).next_workflow_history_sequence_tx self.id)
  write_workflow io self ⟨sequence,at_ms,kind,detail⟩

def set_workflow_step (io : Io) (id : WorkflowId) (step state : Bytes) (now_ms : Int64) : EStateM WorkflowError Transaction Unit := do
  if step = [] then throw .EmptyStep else
  let self ← lift ((← get).workflow_instance id)
  lift (ensure_active self)
  let self := { self with status := .Running, current_step := step, state, wait := none, updated_at_ms := now_ms }
  persist_workflow_with_history io self now_ms .StepChanged step

def wait_for_signal (io : Io) (id : WorkflowId) (signal : Bytes) (now_ms : Int64) : EStateM WorkflowError Transaction Unit := do
  if signal = [] then throw .EmptySignal else
  let self ← lift ((← get).workflow_instance id)
  lift (ensure_active self)
  let self := { self with status := .Waiting, wait := some (.Signal signal), updated_at_ms := now_ms }
  persist_workflow_with_history io self now_ms .WaitingSignal signal

def signal_workflow (io : Io) (id : WorkflowId) (signal payload : Bytes) (now_ms : Int64) : EStateM WorkflowError Transaction Bool := do
  let self ← lift ((← get).workflow_instance id)
  match self.wait with
  | some (.Signal name) =>
    if name ≠ signal then return false else
    let self := { self with status := .Running, wait := none, state := payload, updated_at_ms := now_ms }
    persist_workflow_with_history io self now_ms .SignalReceived signal
    return true
  | _ => return false

def wait_until (io : Io) (id : WorkflowId) (resume_at_ms now_ms : Int64) : EStateM WorkflowError Transaction Unit := do
  let self ← lift ((← get).workflow_instance id)
  lift (ensure_active self)
  let self := { self with status := .Waiting, wait := some (.Timer resume_at_ms), updated_at_ms := now_ms }
  persist_workflow_with_history io self now_ms .WaitingTimer resume_at_ms.to_le_bytes

def finish_workflow_tx (io : Io) (id : WorkflowId) (status : WorkflowStatus) (kind : WorkflowHistoryKind) (detail : Bytes)
    (now_ms : Int64) : EStateM WorkflowError Transaction Unit := do
  let self ← lift ((← get).workflow_instance id)
  if is_terminal self.status then throw .AlreadyTerminal else
  let self := { self with status, state := detail, wait := none, updated_at_ms := now_ms }
  persist_workflow_with_history io self now_ms kind detail

def complete_workflow (io : Io) (id : WorkflowId) (final_state : Bytes) (now_ms : Int64) : EStateM WorkflowError Transaction Unit :=
  finish_workflow_tx io id .Completed .Completed final_state now_ms

def fail_workflow (io : Io) (id : WorkflowId) (error : Bytes) (now_ms : Int64) : EStateM WorkflowError Transaction Unit :=
  finish_workflow_tx io id .Failed .Failed error now_ms

/-- Unlike its counterpart on a store, it reports a workflow that is not there. -/
def cancel_workflow (io : Io) (id : WorkflowId) (reason : Bytes) (now_ms : Int64) : EStateM WorkflowError Transaction Bool := do
  let self ← lift ((← get).workflow_instance id)
  if is_terminal self.status then return false else
  let self := { self with status := .Cancelled, wait := none, updated_at_ms := now_ms }
  persist_workflow_with_history io self now_ms .Cancelled reason
  return true

end

end VoodooStore
