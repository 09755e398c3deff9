import VoodooStore.Footprint
import VoodooStore.Workflow

/-!
# Workflow operations on both sides

What an operation does follows from the instance that it finds and from the
number of the next entry of the history (`WorkflowCall.plan`), on a store and on
a transaction alike. The one exception is the cancellation of a workflow that is
not there: a store answers, and a transaction reports an error. So the two
sides agree on everything else (`workflow_sides_agree`).
-/
namespace VoodooStore
open Effects Reading Workflow
set_option linter.unusedSimpArgs false

/-- The operations that are offered on both sides. -/
inductive WorkflowCall
  | CreateWorkflow (io : Io) (entropy : Option WorkflowId) (workflow_type initial_step initial_state : Bytes)
      (parent_id : Option WorkflowId) (now_ms : Int64)
  | SetWorkflowStep (io : Io) (id : WorkflowId) (step state : Bytes) (now_ms : Int64)
  | WaitForSignal (io : Io) (id : WorkflowId) (signal : Bytes) (now_ms : Int64)
  | SignalWorkflow (io : Io) (id : WorkflowId) (signal payload : Bytes) (now_ms : Int64)
  | WaitUntil (io : Io) (id : WorkflowId) (resume_at_ms now_ms : Int64)
  | CompleteWorkflow (io : Io) (id : WorkflowId) (final_state : Bytes) (now_ms : Int64)
  | FailWorkflow (io : Io) (id : WorkflowId) (error : Bytes) (now_ms : Int64)
  | CancelWorkflow (io : Io) (id : WorkflowId) (reason : Bytes) (now_ms : Int64)

inductive WorkflowReply
  | Created (id : WorkflowId)
  | Done
  | Answered (changed : Bool)
  | Resumed (report : WorkflowResumeReport)
  deriving DecidableEq

def WorkflowCall.io : WorkflowCall → Io
  | .CreateWorkflow io _ _ _ _ _ _ => io
  | .SetWorkflowStep io _ _ _ _ => io
  | .WaitForSignal io _ _ _ => io
  | .SignalWorkflow io _ _ _ _ => io
  | .WaitUntil io _ _ _ => io
  | .CompleteWorkflow io _ _ _ => io
  | .FailWorkflow io _ _ _ => io
  | .CancelWorkflow io _ _ _ => io

section
variable [Hashes]

def WorkflowCall.on_store : WorkflowCall → EStateM WorkflowError Store WorkflowReply
  | .CreateWorkflow io entropy workflow_type initial_step initial_state parent_id now_ms => do
    return .Created (← Store.create_workflow io entropy workflow_type initial_step initial_state parent_id now_ms)
  | .SetWorkflowStep io id step state now_ms => do
    Store.set_workflow_step io id step state now_ms
    return .Done
  | .WaitForSignal io id signal now_ms => do
    Store.wait_for_signal io id signal now_ms
    return .Done
  | .SignalWorkflow io id signal payload now_ms => do
    return .Answered (← Store.signal_workflow io id signal payload now_ms)
  | .WaitUntil io id resume_at_ms now_ms => do
    Store.wait_until io id resume_at_ms now_ms
    return .Done
  | .CompleteWorkflow io id final_state now_ms => do
    Store.complete_workflow io id final_state now_ms
    return .Done
  | .FailWorkflow io id error now_ms => do
    Store.fail_workflow io id error now_ms
    return .Done
  | .CancelWorkflow io id reason now_ms => do
    return .Answered (← Store.cancel_workflow io id reason now_ms)

def WorkflowCall.on_tx : WorkflowCall → EStateM WorkflowError Transaction WorkflowReply
  | .CreateWorkflow io entropy workflow_type initial_step initial_state parent_id now_ms => do
    return .Created (← create_workflow io entropy workflow_type initial_step initial_state parent_id now_ms)
  | .SetWorkflowStep io id step state now_ms => do
    set_workflow_step io id step state now_ms
    return .Done
  | .WaitForSignal io id signal now_ms => do
    wait_for_signal io id signal now_ms
    return .Done
  | .SignalWorkflow io id signal payload now_ms => do
    return .Answered (← signal_workflow io id signal payload now_ms)
  | .WaitUntil io id resume_at_ms now_ms => do
    wait_until io id resume_at_ms now_ms
    return .Done
  | .CompleteWorkflow io id final_state now_ms => do
    complete_workflow io id final_state now_ms
    return .Done
  | .FailWorkflow io id error now_ms => do
    fail_workflow io id error now_ms
    return .Done
  | .CancelWorkflow io id reason now_ms => do
    return .Answered (← cancel_workflow io id reason now_ms)

end

/-! ## Plans -/

/-- What an operation finds. -/
structure Lookup where
  instance_of : WorkflowId → Except WorkflowError (Option WorkflowInstance)
  sequence : WorkflowId → Except WorkflowError UInt64

def Store.lookup (self : Store) : Lookup := ⟨self.get_workflow,self.next_workflow_history_sequence⟩

def Transaction.lookup (self : Transaction) : Lookup :=
  ⟨fun id => (self.get_internal (instance_key id)).mapM decode_instance,self.next_workflow_history_sequence_tx⟩

/-- What an operation answers, and what it writes if it writes anything. -/
structure Plan where
  reply : WorkflowReply
  writes : Option (WorkflowInstance × WorkflowHistoryEntry)

def Lookup.found (self : Lookup) (id : WorkflowId) : Except WorkflowError WorkflowInstance := do
  ok_or .NotFound (← self.instance_of id)

/-- The instance is written with the next entry of its history. -/
def Lookup.record (self : Lookup) (reply : WorkflowReply) (new : WorkflowInstance) (at_ms : Int64) (kind : WorkflowHistoryKind)
    (detail : Bytes) : Except WorkflowError Plan := do
  let sequence ← self.sequence new.id
  return ⟨reply,some (new,⟨sequence,at_ms,kind,detail⟩)⟩

def WorkflowCall.plan (lookup : Lookup) : WorkflowCall → Except WorkflowError Plan
  | .CreateWorkflow _ entropy workflow_type initial_step initial_state parent_id now_ms =>
    if workflow_type = [] then .error .EmptyWorkflowType else
    if initial_step = [] then .error .EmptyStep else do
    let id ← ok_or .EntropyUnavailable entropy
    return ⟨.Created id,some (⟨id,workflow_type,.Running,initial_step,initial_state,parent_id,none,now_ms,now_ms⟩,⟨0,now_ms,.Created,[]⟩)⟩
  | .SetWorkflowStep _ id step state now_ms =>
    if step = [] then .error .EmptyStep else do
    let self ← lookup.found id
    ensure_active self
    lookup.record .Done { self with status := .Running, current_step := step, state, wait := none, updated_at_ms := now_ms }
      now_ms .StepChanged step
  | .WaitForSignal _ id signal now_ms =>
    if signal = [] then .error .EmptySignal else do
    let self ← lookup.found id
    ensure_active self
    lookup.record .Done { self with status := .Waiting, wait := some (.Signal signal), updated_at_ms := now_ms } now_ms .WaitingSignal signal
  | .SignalWorkflow _ id signal payload now_ms => do
    let self ← lookup.found id
    if self.wait = some (.Signal signal) then
      lookup.record (.Answered true) { self with status := .Running, wait := none, state := payload, updated_at_ms := now_ms }
        now_ms .SignalReceived signal
    else return ⟨.Answered false,none⟩
  | .WaitUntil _ id resume_at_ms now_ms => do
    let self ← lookup.found id
    ensure_active self
    lookup.record .Done { self with status := .Waiting, wait := some (.Timer resume_at_ms), updated_at_ms := now_ms }
      now_ms .WaitingTimer resume_at_ms.to_le_bytes
  | .CompleteWorkflow _ id final_state now_ms => do
    let self ← lookup.found id
    ensure_active self
    lookup.record .Done { self with status := .Completed, state := final_state, wait := none, updated_at_ms := now_ms }
      now_ms .Completed final_state
  | .FailWorkflow _ id error now_ms => do
    let self ← lookup.found id
    ensure_active self
    lookup.record .Done { self with status := .Failed, state := error, wait := none, updated_at_ms := now_ms } now_ms .Failed error
  | .CancelWorkflow _ id reason now_ms => do
    let self ← lookup.found id
    if is_terminal self.status then return ⟨.Answered false,none⟩ else
    lookup.record (.Answered true) { self with status := .Cancelled, wait := none, updated_at_ms := now_ms } now_ms .Cancelled reason

theorem found_eq (tx : Transaction) (id : WorkflowId) : tx.lookup.found id = tx.workflow_instance id := rfl

/-- The two checks of a store are the one of a lookup. -/
theorem store_found_eq {α : Type} (store : Store) (id : WorkflowId) (f : WorkflowInstance → EStateM WorkflowError Store α) :
    (do
      let found ← lift ((← get).get_workflow id)
      let self ← lift (ok_or .NotFound found)
      f self : EStateM WorkflowError Store α) store = (lift (store.lookup.found id) >>= f) store := by
  rw [get_bind,lift_bind_run,lift_bind_run]
  unfold Lookup.found
  rw [show store.lookup.instance_of id = store.get_workflow id from rfl]
  cases store.get_workflow id with
  | error e => rfl
  | ok found =>
    cases found with
    | none => rfl
    | some self => rfl

/-- A change of an instance that is active. -/
def active_plan (lookup : Lookup) (id : WorkflowId) (change : WorkflowInstance → WorkflowInstance) (at_ms : Int64)
    (kind : WorkflowHistoryKind) (detail : Bytes) : Except WorkflowError Plan := do
  let self ← lookup.found id
  ensure_active self
  lookup.record .Done (change self) at_ms kind detail

/-- The check at the end of a workflow is the check that it is active. -/
theorem ensure_active_eq {σ : Type} (self : WorkflowInstance) (x : EStateM WorkflowError σ Unit) :
    (if is_terminal self.status then throw .AlreadyTerminal else x) = (do lift (ensure_active self); x) := by
  unfold ensure_active
  cases is_terminal self.status <;> rfl

section
variable [Hashes]

/-- A plan is carried out in a transaction. -/
def Plan.stage (io : Io) (plan : Plan) : EStateM WorkflowError Transaction WorkflowReply :=
  match plan.writes with
  | none => return plan.reply
  | some (self,entry) => do
    write_workflow io self entry
    return plan.reply

/-- A plan is carried out on a store: in a transaction of its own, if there is anything to write. -/
def Plan.commit (io : Io) (plan : Plan) : EStateM WorkflowError Store WorkflowReply :=
  match plan.writes with
  | none => return plan.reply
  | some (self,entry) => do
    within .Store io (write_workflow io self entry)
    return plan.reply

theorem persist_tx_eq (io : Io) (reply : WorkflowReply) (self : WorkflowInstance) (at_ms : Int64) (kind : WorkflowHistoryKind)
    (detail : Bytes) (tx : Transaction) :
    (do persist_workflow_with_history io self at_ms kind detail; return reply : EStateM WorkflowError Transaction WorkflowReply) tx =
      (lift (tx.lookup.record reply self at_ms kind detail) >>= Plan.stage io) tx := by
  unfold persist_workflow_with_history Lookup.record
  rw [show tx.lookup.sequence self.id = tx.next_workflow_history_sequence_tx self.id from rfl,lift_bind_run,bind_assoc,get_bind]
  rw [bind_assoc,lift_bind_run]
  cases tx.next_workflow_history_sequence_tx self.id with
  | error e => rfl
  | ok sequence => rfl

theorem active_tx_eq (io : Io) (id : WorkflowId) (change : WorkflowInstance → WorkflowInstance) (at_ms : Int64)
    (kind : WorkflowHistoryKind) (detail : Bytes) (tx : Transaction) :
    ((do
      let self ← lift ((← get).workflow_instance id)
      lift (ensure_active self)
      persist_workflow_with_history io (change self) at_ms kind detail : EStateM WorkflowError Transaction Unit) >>=
        fun _ => pure WorkflowReply.Done) tx =
      (lift (active_plan tx.lookup id change at_ms kind detail) >>= Plan.stage io) tx := by
  unfold active_plan
  rw [bind_assoc,get_bind,bind_assoc,lift_bind_run,found_eq]
  cases tx.workflow_instance id with
  | error e => rfl
  | ok self =>
    dsimp only
    rw [bind_assoc,lift_bind_run,ok_bind]
    cases ensure_active self with
    | error e => rfl
    | ok active => exact persist_tx_eq io .Done (change self) at_ms kind detail tx

theorem on_tx_eq (call : WorkflowCall) (tx : Transaction) :
    call.on_tx tx = (lift (call.plan tx.lookup) >>= Plan.stage call.io) tx := by
  cases call with
  | CreateWorkflow io entropy workflow_type initial_step initial_state parent_id now_ms =>
    dsimp only [WorkflowCall.on_tx,create_workflow,WorkflowCall.plan]
    by_cases no_type : workflow_type = []
    · rw [if_pos no_type,if_pos no_type]
      rfl
    by_cases no_step : initial_step = []
    · rw [if_neg no_type,if_neg no_type,if_pos no_step,if_pos no_step]
      rfl
    rw [if_neg no_type,if_neg no_type,if_neg no_step,if_neg no_step]
    cases entropy with
    | none => rfl
    | some id =>
      rw [bind_assoc,lift_bind_run]
      dsimp only [ok_or]
      rw [bind_assoc]
      rfl
  | SetWorkflowStep io id step state now_ms =>
    dsimp only [WorkflowCall.on_tx,set_workflow_step,WorkflowCall.plan]
    by_cases no_step : step = []
    · rw [if_pos no_step,if_pos no_step]
      rfl
    rw [if_neg no_step,if_neg no_step]
    exact active_tx_eq io id (fun self => { self with status := .Running, current_step := step, state, wait := none, updated_at_ms := now_ms })
      now_ms .StepChanged step tx
  | WaitForSignal io id signal now_ms =>
    dsimp only [WorkflowCall.on_tx,wait_for_signal,WorkflowCall.plan]
    by_cases no_signal : signal = []
    · rw [if_pos no_signal,if_pos no_signal]
      rfl
    rw [if_neg no_signal,if_neg no_signal]
    exact active_tx_eq io id (fun self => { self with status := .Waiting, wait := some (.Signal signal), updated_at_ms := now_ms })
      now_ms .WaitingSignal signal tx
  | SignalWorkflow io id signal payload now_ms =>
    dsimp only [WorkflowCall.on_tx,signal_workflow,WorkflowCall.plan]
    rw [bind_assoc,get_bind,bind_assoc,lift_bind_run,found_eq]
    cases tx.workflow_instance id with
    | error e => rfl
    | ok self =>
      dsimp only
      rw [ok_bind]
      cases waits : self.wait with
      | none => rfl
      | some wait =>
        cases wait with
        | Timer resume_at_ms => rfl
        | Signal name =>
          dsimp only
          by_cases same : name = signal
          · rw [if_neg (not_not.mpr same),if_pos (by rw [same]),bind_assoc]
            exact persist_tx_eq io (.Answered true) _ now_ms .SignalReceived signal tx
          · rw [if_pos same,if_neg (by simpa using same)]
            rfl
  | WaitUntil io id resume_at_ms now_ms =>
    exact active_tx_eq io id (fun self => { self with status := .Waiting, wait := some (.Timer resume_at_ms), updated_at_ms := now_ms })
      now_ms .WaitingTimer resume_at_ms.to_le_bytes tx
  | CompleteWorkflow io id final_state now_ms =>
    dsimp only [WorkflowCall.on_tx,complete_workflow,finish_workflow_tx,WorkflowCall.plan]
    simp only [ensure_active_eq]
    exact active_tx_eq io id (fun self => { self with status := .Completed, state := final_state, wait := none, updated_at_ms := now_ms })
      now_ms .Completed final_state tx
  | FailWorkflow io id error now_ms =>
    dsimp only [WorkflowCall.on_tx,fail_workflow,finish_workflow_tx,WorkflowCall.plan]
    simp only [ensure_active_eq]
    exact active_tx_eq io id (fun self => { self with status := .Failed, state := error, wait := none, updated_at_ms := now_ms })
      now_ms .Failed error tx
  | CancelWorkflow io id reason now_ms =>
    dsimp only [WorkflowCall.on_tx,cancel_workflow,WorkflowCall.plan]
    rw [bind_assoc,get_bind,bind_assoc,lift_bind_run,found_eq]
    cases tx.workflow_instance id with
    | error e => rfl
    | ok self =>
      dsimp only
      rw [ok_bind]
      cases over_already : is_terminal self.status with
      | true => rfl
      | false =>
        rw [if_neg (by simp),if_neg (by simp),bind_assoc]
        exact persist_tx_eq io (.Answered true) _ now_ms .Cancelled reason tx

theorem persist_store_eq (io : Io) (reply : WorkflowReply) (self : WorkflowInstance) (at_ms : Int64) (kind : WorkflowHistoryKind)
    (detail : Bytes) (store : Store) :
    (do Store.persist_instance_with_history io self at_ms kind detail; return reply : EStateM WorkflowError Store WorkflowReply) store =
      (lift (store.lookup.record reply self at_ms kind detail) >>= Plan.commit io) store := by
  unfold Store.persist_instance_with_history Lookup.record
  rw [show store.lookup.sequence self.id = store.next_workflow_history_sequence self.id from rfl,lift_bind_run,bind_assoc,get_bind]
  rw [bind_assoc,lift_bind_run]
  cases store.next_workflow_history_sequence self.id with
  | error e => rfl
  | ok sequence => rfl

theorem active_store_eq (io : Io) (id : WorkflowId) (change : WorkflowInstance → WorkflowInstance) (at_ms : Int64)
    (kind : WorkflowHistoryKind) (detail : Bytes) (store : Store) :
    ((do
      let found ← lift ((← get).get_workflow id)
      let self ← lift (ok_or .NotFound found)
      lift (ensure_active self)
      Store.persist_instance_with_history io (change self) at_ms kind detail : EStateM WorkflowError Store Unit) >>=
        fun _ => pure WorkflowReply.Done) store =
      (lift (active_plan store.lookup id change at_ms kind detail) >>= Plan.commit io) store := by
  unfold active_plan
  simp only [bind_assoc]
  rw [store_found_eq,lift_bind_run]
  cases store.lookup.found id with
  | error e => rfl
  | ok self =>
    dsimp only
    rw [lift_bind_run,ok_bind]
    cases ensure_active self with
    | error e => rfl
    | ok active => exact persist_store_eq io .Done (change self) at_ms kind detail store

/-- A workflow that is not there is cancelled. -/
def WorkflowCall.CancelsAbsent (store : Store) : WorkflowCall → Prop
  | .CancelWorkflow _ id _ _ => store.get (instance_key id) = none
  | _ => False

theorem on_store_eq {call : WorkflowCall} {store : Store} (present : ¬ call.CancelsAbsent store) :
    call.on_store store = (lift (call.plan store.lookup) >>= Plan.commit call.io) store := by
  cases call with
  | CreateWorkflow io entropy workflow_type initial_step initial_state parent_id now_ms =>
    dsimp only [WorkflowCall.on_store,Store.create_workflow,WorkflowCall.plan]
    by_cases no_type : workflow_type = []
    · rw [if_pos no_type,if_pos no_type]
      rfl
    by_cases no_step : initial_step = []
    · rw [if_neg no_type,if_neg no_type,if_pos no_step,if_pos no_step]
      rfl
    rw [if_neg no_type,if_neg no_type,if_neg no_step,if_neg no_step]
    cases entropy with
    | none => rfl
    | some id =>
      rw [bind_assoc,lift_bind_run]
      dsimp only [ok_or]
      rw [bind_assoc]
      rfl
  | SetWorkflowStep io id step state now_ms =>
    dsimp only [WorkflowCall.on_store,Store.set_workflow_step,WorkflowCall.plan]
    by_cases no_step : step = []
    · rw [if_pos no_step,if_pos no_step]
      rfl
    rw [if_neg no_step,if_neg no_step]
    exact active_store_eq io id (fun self => { self with status := .Running, current_step := step, state, wait := none, updated_at_ms := now_ms })
      now_ms .StepChanged step store
  | WaitForSignal io id signal now_ms =>
    dsimp only [WorkflowCall.on_store,Store.wait_for_signal,WorkflowCall.plan]
    by_cases no_signal : signal = []
    · rw [if_pos no_signal,if_pos no_signal]
      rfl
    rw [if_neg no_signal,if_neg no_signal]
    exact active_store_eq io id (fun self => { self with status := .Waiting, wait := some (.Signal signal), updated_at_ms := now_ms })
      now_ms .WaitingSignal signal store
  | SignalWorkflow io id signal payload now_ms =>
    dsimp only [WorkflowCall.on_store,Store.signal_workflow,WorkflowCall.plan]
    simp only [bind_assoc]
    rw [store_found_eq,lift_bind_run]
    cases store.lookup.found id with
    | error e => rfl
    | ok self =>
      dsimp only
      rw [ok_bind]
      cases waits : self.wait with
      | none => rfl
      | some wait =>
        cases wait with
        | Timer resume_at_ms => rfl
        | Signal name =>
          dsimp only
          by_cases same : name = signal
          · rw [if_neg (not_not.mpr same),if_pos (by rw [same]),bind_assoc]
            exact persist_store_eq io (.Answered true) _ now_ms .SignalReceived signal store
          · rw [if_pos same,if_neg (by simpa using same)]
            rfl
  | WaitUntil io id resume_at_ms now_ms =>
    exact active_store_eq io id (fun self => { self with status := .Waiting, wait := some (.Timer resume_at_ms), updated_at_ms := now_ms })
      now_ms .WaitingTimer resume_at_ms.to_le_bytes store
  | CompleteWorkflow io id final_state now_ms =>
    dsimp only [WorkflowCall.on_store,Store.complete_workflow,Store.finish_workflow,WorkflowCall.plan]
    simp only [ensure_active_eq]
    exact active_store_eq io id (fun self => { self with status := .Completed, state := final_state, wait := none, updated_at_ms := now_ms })
      now_ms .Completed final_state store
  | FailWorkflow io id error now_ms =>
    dsimp only [WorkflowCall.on_store,Store.fail_workflow,Store.finish_workflow,WorkflowCall.plan]
    simp only [ensure_active_eq]
    exact active_store_eq io id (fun self => { self with status := .Failed, state := error, wait := none, updated_at_ms := now_ms })
      now_ms .Failed error store
  | CancelWorkflow io id reason now_ms =>
    dsimp only [WorkflowCall.on_store,Store.cancel_workflow,WorkflowCall.plan]
    rw [bind_assoc,get_bind,bind_assoc,lift_bind_run]
    unfold Lookup.found
    rw [show store.lookup.instance_of id = store.get_workflow id from rfl]
    cases read : store.get_workflow id with
    | error e => rfl
    | ok found =>
      cases found with
      | none =>
        refine absurd ?_ present
        show store.get (instance_key id) = none
        cases there : store.get (instance_key id) with
        | none => rfl
        | some value =>
          rw [Store.get_workflow,there] at read
          obtain ⟨self,-,is⟩ := mapM_some read
          cases is
      | some self =>
        dsimp only [ok_or]
        rw [ok_bind,ok_bind]
        cases over_already : is_terminal self.status with
        | true => rfl
        | false =>
          rw [if_neg (by simp),if_neg (by simp),bind_assoc]
          exact persist_store_eq io (.Answered true) _ now_ms .Cancelled reason store

/-! ## Agreement -/

end

/-- The operation finds nothing to do and says so: no one waits for the signal, or the workflow has ended. -/
def WorkflowCall.Idle (store : Store) : WorkflowCall → Prop
  | .SignalWorkflow _ id signal _ _ => ∃ self, store.get_workflow id = .ok (some self) ∧ self.wait ≠ some (.Signal signal)
  | .CancelWorkflow _ id _ _ => ∃ self, store.get_workflow id = .ok (some self) ∧ is_terminal self.status = true
  | _ => False

theorem store_found_ok {store : Store} {id : WorkflowId} {self : WorkflowInstance} :
    store.lookup.found id = .ok self ↔ store.get_workflow id = .ok (some self) := by
  unfold Lookup.found
  rw [show store.lookup.instance_of id = store.get_workflow id from rfl]
  cases store.get_workflow id with
  | error e => simp [bind,Except.bind]
  | ok found =>
    rw [ok_bind,ok_or_ok]
    simp

theorem record_writes {lookup : Lookup} {reply : WorkflowReply} {new : WorkflowInstance} {at_ms : Int64} {kind : WorkflowHistoryKind}
    {detail : Bytes} {plan : Plan} (recorded : lookup.record reply new at_ms kind detail = .ok plan) :
    ∃ sequence, lookup.sequence new.id = .ok sequence ∧ plan = ⟨reply,some (new,⟨sequence,at_ms,kind,detail⟩)⟩ := by
  obtain ⟨sequence,counted,made⟩ := bind_ok_iff.mp recorded
  cases made
  exact ⟨sequence,counted,rfl⟩

/-- A plan without anything to write is that of an operation that finds nothing to do. -/
theorem idle_iff {call : WorkflowCall} {store : Store} :
    call.Idle store ↔ ∃ reply, call.plan store.lookup = .ok ⟨reply,none⟩ := by
  have never : ∀ {lookup : Lookup} {reply : WorkflowReply} {new : WorkflowInstance} {at_ms : Int64} {kind : WorkflowHistoryKind}
      {detail : Bytes} {answer : WorkflowReply}, lookup.record reply new at_ms kind detail ≠ .ok ⟨answer,none⟩ := by
    intro lookup reply new at_ms kind detail answer recorded
    obtain ⟨sequence,-,made⟩ := record_writes recorded
    cases made
  have active : ∀ {id : WorkflowId} {change : WorkflowInstance → WorkflowInstance} {at_ms : Int64} {kind : WorkflowHistoryKind}
      {detail : Bytes} {answer : WorkflowReply}, active_plan store.lookup id change at_ms kind detail ≠ .ok ⟨answer,none⟩ := by
    intro id change at_ms kind detail answer made
    obtain ⟨self,-,made⟩ := bind_ok_iff.mp made
    obtain ⟨_,-,made⟩ := bind_ok_iff.mp made
    exact never made
  cases call with
  | CreateWorkflow io entropy workflow_type initial_step initial_state parent_id now_ms =>
    refine ⟨False.elim,?_⟩
    rintro ⟨reply,made⟩
    obtain ⟨-,made⟩ := refuse_ok_iff.mp made
    obtain ⟨-,made⟩ := refuse_ok_iff.mp made
    obtain ⟨id,-,made⟩ := bind_ok_iff.mp made
    cases made
  | SetWorkflowStep io id step state now_ms =>
    refine ⟨False.elim,?_⟩
    rintro ⟨reply,made⟩
    obtain ⟨-,made⟩ := refuse_ok_iff.mp made
    exact active made
  | WaitForSignal io id signal now_ms =>
    refine ⟨False.elim,?_⟩
    rintro ⟨reply,made⟩
    obtain ⟨-,made⟩ := refuse_ok_iff.mp made
    exact active made
  | SignalWorkflow io id signal payload now_ms =>
    constructor
    · rintro ⟨self,found,other⟩
      refine ⟨.Answered false,?_⟩
      dsimp only [WorkflowCall.plan]
      rw [store_found_ok.mpr found,ok_bind,if_neg other]
      rfl
    · rintro ⟨reply,made⟩
      obtain ⟨self,found,made⟩ := bind_ok_iff.mp made
      split at made
      · exact absurd made never
      · rename_i other
        exact ⟨self,store_found_ok.mp found,other⟩
  | WaitUntil io id resume_at_ms now_ms => exact ⟨False.elim,fun ⟨reply,made⟩ => active made⟩
  | CompleteWorkflow io id final_state now_ms => exact ⟨False.elim,fun ⟨reply,made⟩ => active made⟩
  | FailWorkflow io id error now_ms => exact ⟨False.elim,fun ⟨reply,made⟩ => active made⟩
  | CancelWorkflow io id reason now_ms =>
    constructor
    · rintro ⟨self,found,ended⟩
      refine ⟨.Answered false,?_⟩
      dsimp only [WorkflowCall.plan]
      rw [store_found_ok.mpr found,ok_bind,if_pos ended]
      rfl
    · rintro ⟨reply,made⟩
      obtain ⟨self,found,made⟩ := bind_ok_iff.mp made
      split at made
      · rename_i ended
        exact ⟨self,store_found_ok.mp found,ended⟩
      · exact absurd made never

theorem cancel_absent_refused {call : WorkflowCall} {store : Store} (absent : call.CancelsAbsent store) :
    call.plan store.lookup = .error .NotFound := by
  cases call with
  | CancelWorkflow io id reason now_ms =>
    dsimp only [WorkflowCall.plan,Lookup.found]
    rw [show store.lookup.instance_of id = store.get_workflow id from rfl,Store.get_workflow,
      show store.get (instance_key id) = none from absent]
    rfl
  | CreateWorkflow _ _ _ _ _ _ _ => exact absent.elim
  | SetWorkflowStep _ _ _ _ _ => exact absent.elim
  | WaitForSignal _ _ _ _ => exact absent.elim
  | SignalWorkflow _ _ _ _ _ => exact absent.elim
  | WaitUntil _ _ _ _ => exact absent.elim
  | CompleteWorkflow _ _ _ _ => exact absent.elim
  | FailWorkflow _ _ _ _ => exact absent.elim

/-- A transaction finds at its start what the store finds. -/
theorem begin_lookup {store : Store} {tx : Transaction} (begun : begin_tx store = .ok tx) : tx.lookup = store.lookup := by
  have view := (begin_view begun).1
  unfold Transaction.lookup Store.lookup Transaction.next_workflow_history_sequence_tx
  congr 1
  · funext id
    rw [get_internal_eq,view]
    rfl
  · funext id
    rw [scan_prefix_internal_eq,view]
    rfl

section
variable [Hashes]

/-- The transaction of an operation is that of its plan. -/
theorem within_call {call : WorkflowCall} {store : Store} {tx : Transaction} (begun : begin_tx store = .ok tx) :
    within .Store call.io call.on_tx store = within .Store call.io (lift (call.plan store.lookup) >>= Plan.stage call.io) store := by
  rw [within_begun begun,within_begun begun,bind_run,bind_run,on_tx_eq call tx,begin_lookup begun]

/-- An empty transaction can be begun and committed. -/
def CommitsEmpty (io : Io) (store : Store) : Prop := ∃ t, within id io (pure ()) store = .ok () t

theorem empty_commits {io : Io} {store : Store} {tx : Transaction} (begun : begin_tx store = .ok tx) :
    CommitsEmpty io store ↔ ∃ u, commit io tx = .ok () u := by
  unfold CommitsEmpty
  rw [within_pure begun]
  cases committed : commit io tx with
  | ok x u => simp
  | error e u => simp

theorem plan_agrees {call : WorkflowCall} {store : Store} (present : ¬ call.CancelsAbsent store) :
    Alike (call.on_store store) (within .Store call.io call.on_tx store) ↔ (call.Idle store → CommitsEmpty call.io store) := by
  rw [on_store_eq present,idle_iff,lift_bind_run]
  cases planned : call.plan store.lookup with
  | error e =>
    refine iff_of_true ?_ (by rintro ⟨reply,made⟩; cases made)
    cases begun : begin_tx store with
    | error refused =>
      rw [within_unbegun begun]
      exact SameData.refl _
    | ok tx =>
      rw [within_call begun,planned,within_begun begun]
      show SameData store.state tx.store.state
      rw [(begin_view begun).2.1]
      exact .refl _
  | ok plan =>
    obtain ⟨reply,writes⟩ := plan
    cases writes with
    | none =>
      dsimp only [Plan.commit]
      rw [pure_run]
      constructor
      · intro alike _
        cases begun : begin_tx store with
        | error refused =>
          rw [within_unbegun begun] at alike
          exact alike.elim
        | ok tx =>
          rw [within_call begun,planned,show (lift (.ok ⟨reply,none⟩) >>= Plan.stage call.io) = (pure reply : EStateM _ _ _) from rfl,
            within_pure begun] at alike
          rw [empty_commits begun]
          cases committed : commit call.io tx with
          | ok x u => exact ⟨u,rfl⟩
          | error e u =>
            rw [committed] at alike
            exact alike.elim
      · intro commits
        have commits := commits ⟨reply,rfl⟩
        cases begun : begin_tx store with
        | error refused =>
          obtain ⟨t,done⟩ := commits
          rw [within_unbegun begun] at done
          cases done
        | ok tx =>
          obtain ⟨u,committed⟩ := (empty_commits begun).mp commits
          rw [within_call begun,planned,show (lift (.ok ⟨reply,none⟩) >>= Plan.stage call.io) = (pure reply : EStateM _ _ _) from rfl,
            within_pure begun,committed]
          refine ⟨rfl,?_⟩
          have same := commit_view committed
          rw [(begin_view begun).1] at same
          exact same
    | some written =>
      obtain ⟨self,entry⟩ := written
      refine iff_of_true ?_ (by rintro ⟨other,made⟩; cases made)
      cases begun : begin_tx store with
      | error refused =>
        dsimp only [Plan.commit]
        rw [within_unbegun begun,bind_of_error (within_unbegun begun)]
        exact SameData.refl _
      | ok tx =>
        rw [within_call begun,planned]
        have same := within_returning WorkflowError.Store call.io (write_workflow call.io self entry) reply store
        dsimp only [Plan.commit]
        rw [← same]
        exact .refl _

theorem cancel_absent_answers {call : WorkflowCall} {store : Store} (absent : call.CancelsAbsent store) :
    call.on_store store = .ok (.Answered false) store := by
  cases call with
  | CancelWorkflow io id reason now_ms =>
    dsimp only [WorkflowCall.on_store,Store.cancel_workflow]
    rw [bind_assoc,get_bind,bind_assoc,lift_bind_run,Store.get_workflow,show store.get (instance_key id) = none from absent]
    rfl
  | CreateWorkflow _ _ _ _ _ _ _ => exact absent.elim
  | SetWorkflowStep _ _ _ _ _ => exact absent.elim
  | WaitForSignal _ _ _ _ => exact absent.elim
  | SignalWorkflow _ _ _ _ _ => exact absent.elim
  | WaitUntil _ _ _ _ => exact absent.elim
  | CompleteWorkflow _ _ _ _ => exact absent.elim
  | FailWorkflow _ _ _ _ => exact absent.elim

theorem cancel_absent_differs {call : WorkflowCall} {store : Store} (absent : call.CancelsAbsent store) :
    ¬ Alike (call.on_store store) (within .Store call.io call.on_tx store) := by
  rw [cancel_absent_answers absent]
  intro alike
  cases begun : begin_tx store with
  | error e =>
    rw [within_unbegun begun] at alike
    exact alike
  | ok tx =>
    rw [within_call begun,cancel_absent_refused absent,within_begun begun] at alike
    exact alike

/-- The two sides agree unless a workflow is cancelled that is not there, or an
    operation finds nothing to do and the transaction cannot be committed empty. -/
theorem workflow_sides_agree (call : WorkflowCall) (store : Store) :
    Alike (call.on_store store) (within .Store call.io call.on_tx store) ↔
      ¬ call.CancelsAbsent store ∧ (call.Idle store → CommitsEmpty call.io store) := by
  by_cases absent : call.CancelsAbsent store
  · exact iff_of_false (cancel_absent_differs absent) (fun both => both.1 absent)
  · rw [plan_agrees absent]
    exact ⟨fun commits => ⟨absent,commits⟩,fun both => both.2⟩

end

/-- The cancellation of a workflow of which a new store knows nothing. -/
def strangerCancelled : WorkflowCall := .CancelWorkflow calm (.filled 7) [1] 5

theorem stranger_cancelled_differs : ∃ store left, @open_with_options crates calm ["a.vstore"] .default [] = .ok store left ∧
    ¬ Alike (@WorkflowCall.on_store crates strangerCancelled store)
      (@within crates _ _ .Store strangerCancelled.io (@WorkflowCall.on_tx crates strangerCancelled) store) := by
  obtain ⟨store,left,opened⟩ := @sound_opens crates calm [] ["a.vstore"] .default calm_faultless (.inl rfl)
  obtain ⟨-,-,-,empty,-,-⟩ := @new_store crates _ _ _ _ _ opened
  refine ⟨store,left,opened,@cancel_absent_differs crates strangerCancelled store ?_⟩
  show store.state[instance_key _]? = none
  rw [empty]
  simp

end VoodooStore
