import VoodooStore.Store

/-!
# Transactions

An open transaction has the store to itself. Staging an operation writes its
record to the log at once; the key/value map waits for the commit. `Staged`
says what any sequence of staging calls does to a transaction.
-/
namespace VoodooStore
open Effects
set_option linter.unusedSimpArgs false

def INTERNAL_KEY_PREFIX : Bytes := [0xff,118,100,115,58]

def ensure_user_key (key : Bytes) : Except EngineError Unit :=
  if starts_with key INTERNAL_KEY_PREFIX then .error .ReservedKey else .ok ()

structure Transaction where
  store : Store
  tx_id : UInt64
  operations : List Operation
  emit_cdc : Bool
  finished : Bool

def begin_with_cdc (self : Store) (emit_cdc : Bool) : Except EngineError Transaction :=
  match self.next_tx_id.checked_add 1 with
  | none => .error .CounterExhausted
  | some next_tx_id => .ok {
      store := { self with next_tx_id := next_tx_id }
      tx_id := self.next_tx_id
      operations := []
      emit_cdc := emit_cdc
      finished := false }

/-- `Store::begin` -/
def begin_tx (self : Store) : Except EngineError Transaction := begin_with_cdc self true
def begin_without_cdc (self : Store) : Except EngineError Transaction := begin_with_cdc self false

def ensure_open (self : Transaction) : Except EngineError Unit :=
  if self.finished then .error .TransactionFinished else .ok ()

/-- A call on the store that a transaction has borrowed. -/
def on_store {α : Type} (x : EStateM EngineError Store α) : EStateM EngineError Transaction α :=
  zoom Transaction.store (fun tx store => { tx with store := store }) x

/-- A payload that spells an operation in records of the given kind. -/
def Spells (kind : RecordKind) (encoded : Except EngineError Bytes) (operation : Operation) : Prop :=
  ∀ payload tx_id sequence, encoded = .ok payload →
    (LogRecord.mk kind tx_id sequence payload).operation = some operation

theorem put_spells (key value : Bytes) : Spells .Put (encode_put key value) (.Put key value) := by
  intro payload tx_id sequence encoded
  simp [LogRecord.operation,decode_put_encode encoded,Except.toOption]

theorem delete_spells (key : Bytes) : Spells .Delete (encode_delete key) (.Delete key) := by
  intro payload tx_id sequence encoded
  simp [LogRecord.operation,decode_delete_encode encoded,Except.toOption]

section
variable [Hashes]

/-- What `put_internal` and `delete_internal` have in common. -/
def stage (io : Io) (kind : RecordKind) (encoded : Except EngineError Bytes) (operation : Operation) :
    EStateM EngineError Transaction Unit := do
  lift (ensure_open (← get))
  let payload ← lift encoded
  on_store (append io kind (← get).tx_id payload)
  modify (fun self => { self with operations := self.operations ++ [operation] })

def put_internal (io : Io) (key value : Bytes) : EStateM EngineError Transaction Unit :=
  stage io .Put (encode_put key value) (.Put key value)

def delete_internal (io : Io) (key : Bytes) : EStateM EngineError Transaction Unit :=
  stage io .Delete (encode_delete key) (.Delete key)

/-- `Transaction::put` -/
def put (io : Io) (key value : Bytes) : EStateM EngineError Transaction Unit := do
  lift (ensure_user_key key)
  put_internal io key value

/-- `Transaction::delete` -/
def delete (io : Io) (key : Bytes) : EStateM EngineError Transaction Unit := do
  lift (ensure_user_key key)
  delete_internal io key

/-- `Transaction::rollback`; dropping a transaction does the same to the store: nothing -/
def rollback : EStateM EngineError Transaction Unit := do
  lift (ensure_open (← get))
  modify ({ · with finished := true })

/-! ## What staging does -/

/-- What staging can do to a transaction: its store grows by records of this
    transaction, each with the operation that it stages. -/
structure Staged (tx u : Transaction) (rs : List LogRecord) (piece : Bytes) : Prop where
  grown : Grown tx.store u.store rs piece
  operations : u.operations = tx.operations ++ rs.filterMap LogRecord.operation
  mine : ∀ r ∈ rs, r.tx_id = tx.tx_id
  stages : ∀ r ∈ rs, r.operation ≠ none
  tx_id : u.tx_id = tx.tx_id
  emit_cdc : u.emit_cdc = tx.emit_cdc
  finished : u.finished = tx.finished

theorem Staged.refl (tx : Transaction) : Staged tx tx [] [] :=
  ⟨.refl _,by simp,by simp,by simp,rfl,rfl,rfl⟩

theorem Staged.trans {tx u w : Transaction} {first second : List LogRecord} {piece : Bytes}
    (low : Staged tx u first []) (high : Staged u w second piece) : Staged tx w (first ++ second) piece := by
  refine ⟨low.grown.trans high.grown,?_,?_,?_,?_,?_,?_⟩
  · rw [high.operations,low.operations,List.append_assoc,List.filterMap_append]
  · intro r member
    rcases List.mem_append.mp member with early | late
    · exact low.mine r early
    · exact (high.mine r late).trans low.tx_id
  · intro r member
    rcases List.mem_append.mp member with early | late
    · exact low.stages r early
    · exact high.stages r late
  · exact high.tx_id.trans low.tx_id
  · exact high.emit_cdc.trans low.emit_cdc
  · exact high.finished.trans low.finished

theorem stage_ok {io : Io} {kind : RecordKind} {encoded : Except EngineError Bytes} {operation : Operation}
    {tx u : Transaction} {x : Unit} (spells : Spells kind encoded operation)
    (done : stage io kind encoded operation tx = .ok x u) :
    ∃ r, Staged tx u [r] [] ∧ r.operation = some operation := by
  rw [stage,get_bind] at done
  obtain ⟨_,-,done⟩ := lift_bind_ok.mp done
  obtain ⟨payload,encodes,done⟩ := lift_bind_ok.mp done
  rw [get_bind] at done
  obtain ⟨_,middle,appended,done⟩ := bind_ok.mp done
  obtain ⟨store,appends,rfl⟩ := zoom_ok.mp appended
  cases done
  have spelled := spells payload tx.tx_id tx.store.next_sequence encodes
  refine ⟨⟨kind,tx.tx_id,tx.store.next_sequence,payload⟩,⟨append_ok appends,?_,?_,?_,rfl,rfl,rfl⟩,spelled⟩
  · simp [spelled]
  · simp
  · simp [spelled]

theorem stage_error {io : Io} {kind : RecordKind} {encoded : Except EngineError Bytes} {operation : Operation}
    {tx u : Transaction} {e : EngineError} (failed : stage io kind encoded operation tx = .error e u) :
    ∃ piece, Staged tx u [] piece ∧ Piece io piece := by
  rw [stage,get_bind] at failed
  rcases lift_bind_error.mp failed with ⟨-,rfl⟩ | ⟨_,-,failed⟩
  · exact ⟨[],.refl u,.none io⟩
  rcases lift_bind_error.mp failed with ⟨-,rfl⟩ | ⟨payload,-,failed⟩
  · exact ⟨[],.refl u,.none io⟩
  rw [get_bind] at failed
  rcases bind_error.mp failed with early | ⟨_,middle,-,late⟩
  · obtain ⟨store,appends,rfl⟩ := zoom_error.mp early
    obtain ⟨piece,grown,torn⟩ := append_error appends
    exact ⟨piece,⟨grown,by simp,by simp,by simp,rfl,rfl,rfl⟩,torn⟩
  · cases late

end

/-- A transaction starts with a number of its own and nothing staged. -/
theorem begin_ok {self : Store} {emit_cdc : Bool} {tx : Transaction} (begun : begin_with_cdc self emit_cdc = .ok tx) :
    tx.tx_id = self.next_tx_id ∧ tx.store.next_tx_id.toNat = self.next_tx_id.toNat + 1 ∧ tx.operations = [] ∧
      tx.emit_cdc = emit_cdc ∧ tx.finished = false ∧ tx.store = { self with next_tx_id := tx.store.next_tx_id } := by
  unfold begin_with_cdc at begun
  cases added : self.next_tx_id.checked_add 1 with
  | none => rw [added] at begun; cases begun
  | some next =>
    rw [added] at begun
    cases begun
    exact ⟨rfl,u64_checked_add_some added,rfl,rfl,rfl,rfl⟩

end VoodooStore
