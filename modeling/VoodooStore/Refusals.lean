import VoodooStore.Room
import VoodooStore.Totals
import VoodooStore.Interleaving

/-!
# Writes that a quota refuses

The quota on the file is looked at before each record, that on the namespaces
before the commit record alone. A write that is refused has left what it wrote
until then, so that the file is as it was exactly if the first record of the
write did not fit (`refused_at_once_iff`).
-/
namespace VoodooStore
open Effects
set_option linter.unusedSimpArgs false

/-- The errors of the two quotas. -/
def EngineError.Quota : EngineError → Prop
  | .StorageQuotaExceeded _ => True
  | .NamespaceQuotaExceeded _ _ => True
  | _ => False

instance (e : EngineError) : Decidable e.Quota := by
  cases e <;> first | exact isTrue trivial | exact isFalse id

/-- The payload of the record that stages an operation. -/
def Operation.encoded : Operation → Except EngineError Bytes
  | .Put key value => encode_put key value
  | .Delete key => encode_delete key

def Operation.kind : Operation → RecordKind
  | .Put _ _ => .Put
  | .Delete _ => .Delete

theorem operation_spells (operation : Operation) : Spells operation.kind operation.encoded operation := by
  cases operation with
  | Put key value => exact put_spells key value
  | Delete key => exact delete_spells key

/-- The quota on the file has no room for a record with this payload. -/
def Store.full_for (self : Store) (payload : Bytes) : Bool :=
  match self.options.max_bytes with
  | none => false
  | some max_bytes =>
    match (UInt64.ofNat self.file.length).checked_add (.ofNat (29 + payload.length)) with
    | none => true
    | some projected => projected > max_bytes

/-- The payload depends on nothing but its length. -/
theorem full_for_length {s t : Store} {a b : Bytes} (options : t.options = s.options) (file : t.file.length = s.file.length)
    (same : b.length = a.length) : t.full_for b = s.full_for a := by
  unfold Store.full_for
  rw [options,file,same]

theorem encoded_error {operation : Operation} {e : EngineError} (failed : operation.encoded = .error e) : ¬ e.Quota := by
  cases operation with
  | Put key value =>
    simp only [Operation.encoded,encode_put] at failed
    split at failed
    · cases failed
      exact id
    · cases failed
  | Delete key =>
    simp only [Operation.encoded,encode_delete] at failed
    split at failed
    · cases failed
      exact id
    · cases failed

theorem encode_change_error {change : ChangeRecord} {d : ChangeFeedError} (failed : encode_change change = .error d) :
    ¬ (map_cdc_error d).Quota := by
  unfold encode_change at failed
  split at failed
  · cases failed
    exact id
  · split at failed
    · cases failed
    · cases failed
    · cases failed
      exact id

theorem io_not_quota (error : IoError) : ¬ (map_io_error error).Quota := by
  unfold map_io_error
  split <;> exact id

theorem sync_not_quota {σ : Type} {io : Io} {call : Call} {durability : Durability} {s t : σ} {e : EngineError}
    (failed : sync_file io call durability s = .error e t) : ¬ e.Quota := by
  cases durability with
  | Strict =>
    obtain ⟨⟨error,-,rfl⟩,-⟩ := attempt_error.mp failed
    exact io_not_quota error
  | Data =>
    obtain ⟨⟨error,-,rfl⟩,-⟩ := attempt_error.mp failed
    exact io_not_quota error
  | Relaxed => cases failed

/-- The same transaction of the same store, but for the number of the next record. -/
def Transaction.Waits (tx u : Transaction) : Prop := u = { tx with store := { tx.store with next_sequence := u.store.next_sequence } }

/-- The same store, but for its counters and metrics. -/
def Store.Rests (s t : Store) : Prop :=
  t = { s with next_tx_id := t.next_tx_id, next_sequence := t.next_sequence, metrics := t.metrics }

theorem Store.Rests.file {s t : Store} (rests : s.Rests t) : t.file = s.file := by rw [rests]

theorem Store.Rests.trans {s t u : Store} (first : s.Rests t) (second : t.Rests u) : s.Rests u := by
  unfold Store.Rests at *
  rw [second,first]

theorem Transaction.Waits.rests {tx u : Transaction} (waits : tx.Waits u) : tx.store.Rests u.store := by
  unfold Store.Rests
  rw [show u = _ from waits]

theorem namespace_error {store : Store} {io : Io} {operations : List Operation} {e : EngineError}
    (refused : store.check_namespace_quota io operations = .error e) (quota : e.Quota) : operations ≠ [] := by
  rintro rfl
  unfold Store.check_namespace_quota at refused
  split at refused
  · cases refused
  · cases counted : store.state.toList.foldlM count_entry ∅ with
    | error d =>
      rw [counted] at refused
      cases refused
      rw [count_entries_error counted] at quota
      cases quota
    | ok totals =>
      have nothing : io.walk (final_values []).toList = [] := by
        have same : (final_values []).toList = [] := rfl
        rw [same]
        exact (io.walk_perm []).eq_nil
      rw [counted,nothing] at refused
      cases refused

theorem begin_full {self : Store} {emit_cdc : Bool} {tx : Transaction} (begun : begin_with_cdc self emit_cdc = .ok tx) (payload : Bytes) :
    tx.store.full_for payload = self.full_for payload := by
  have same := (begin_ok begun).2.2.2.2.2
  refine full_for_length ?_ ?_ rfl
  · rw [same]
  · rw [same]

section
variable [Hashes]

theorem write_eq (io : Io) (operation : Operation) : operation.write io = stage io operation.kind operation.encoded operation := by
  cases operation <;> rfl

/-! ## One record -/

/-- An append that succeeds had room, and the file is longer. -/
theorem append_grows {io : Io} {kind : RecordKind} {tx_id : UInt64} {payload : Bytes} {s t : Store} {x : Unit}
    (done : append io kind tx_id payload s = .ok x t) : s.full_for payload = false ∧ s.file.length < t.file.length := by
  constructor
  · have fits := (append_ok done).fits _ (List.mem_singleton.mpr rfl)
    rw [append,get_bind] at done
    cases added : s.next_sequence.checked_add 1 with
    | none =>
      rw [added] at done
      cases done
    | some next =>
      rw [added] at done
      dsimp only at done
      rw [modify_bind,lift_bind_ok] at done
      obtain ⟨bytes,encoded,done⟩ := done
      rw [encode_fits fits] at encoded
      cases encoded
      rw [get_bind,lift_bind_ok] at done
      obtain ⟨_,quota,-⟩ := done
      unfold Store.check_storage_quota at quota
      unfold Store.full_for
      dsimp only at quota
      cases limit : s.options.max_bytes with
      | none => rfl
      | some max_bytes =>
        rw [limit] at quota
        dsimp only at quota ⊢
        split at quota
        · cases quota
        · rw [frame_length] at quota
          cases sum : (UInt64.ofNat s.file.length).checked_add (.ofNat (29 + payload.length)) with
          | none =>
            rw [sum] at quota
            cases quota
          | some projected =>
            rw [sum] at quota
            dsimp only at quota ⊢
            split at quota
            · cases quota
            · rename_i within
              exact decide_eq_false within
  · rw [(append_ok done).file]
    simp [frames,logFraming]

/-- An append that a quota refuses writes nothing: there was no room. -/
theorem append_over_quota {io : Io} {kind : RecordKind} {tx_id : UInt64} {payload : Bytes} {s t : Store} {e : EngineError}
    (failed : append io kind tx_id payload s = .error e t) (quota : e.Quota) :
    s.full_for payload = true ∧ t = { s with next_sequence := t.next_sequence } := by
  rw [append,get_bind] at failed
  cases added : s.next_sequence.checked_add 1 with
  | none =>
    rw [added] at failed
    cases failed
    cases quota
  | some next =>
    rw [added] at failed
    dsimp only at failed
    rw [modify_bind,lift_bind_error] at failed
    by_cases fits : (LogRecord.mk kind tx_id s.next_sequence payload).Fits
    · rw [encode_fits fits] at failed
      rcases failed with ⟨impossible,-⟩ | ⟨bytes,encoded,failed⟩
      · cases impossible
      cases encoded
      rw [get_bind,lift_bind_error] at failed
      rcases failed with ⟨refused,rfl⟩ | ⟨_,-,failed⟩
      · refine ⟨?_,rfl⟩
        unfold Store.check_storage_quota at refused
        unfold Store.full_for
        dsimp only at refused
        cases limit : s.options.max_bytes with
        | none =>
          rw [limit] at refused
          cases refused
        | some max_bytes =>
          rw [limit] at refused
          dsimp only at refused ⊢
          split at refused
          · cases refused
            cases quota
          · rw [frame_length] at refused
            cases sum : (UInt64.ofNat s.file.length).checked_add (.ofNat (29 + payload.length)) with
            | none => rfl
            | some projected =>
              rw [sum] at refused
              dsimp only at refused ⊢
              split at refused
              · exact decide_eq_true (by assumption)
              · cases refused
      · rw [attempt_bind_error] at failed
        rcases failed with ⟨⟨error,-,rfl⟩,-⟩ | ⟨-,failed⟩
        · cases quota
        · cases wrote : io.fails (.append_write s.next_sequence) with
          | none =>
            rw [wrote] at failed
            cases failed
          | some error =>
            rw [wrote] at failed
            cases failed
            exact absurd quota (io_not_quota error)
    · rw [encode_too_large fits] at failed
      rcases failed with ⟨refused,-⟩ | ⟨bytes,impossible,-⟩
      · cases refused
        cases quota
      · cases impossible

/-! ## Calls on a transaction -/

theorem stage_grows {io : Io} {kind : RecordKind} {encoded : Except EngineError Bytes} {operation : Operation} {tx u : Transaction} {x : Unit}
    (done : stage io kind encoded operation tx = .ok x u) :
    (∀ payload, encoded = .ok payload → tx.store.full_for payload = false) ∧ tx.store.file.length < u.store.file.length := by
  rw [stage,get_bind] at done
  obtain ⟨_,-,done⟩ := lift_bind_ok.mp done
  obtain ⟨payload,encodes,done⟩ := lift_bind_ok.mp done
  rw [get_bind] at done
  obtain ⟨_,middle,appended,done⟩ := bind_ok.mp done
  obtain ⟨store,appends,rfl⟩ := zoom_ok.mp appended
  cases done
  obtain ⟨room,longer⟩ := append_grows appends
  refine ⟨?_,longer⟩
  intro other again
  rw [encodes] at again
  cases again
  exact room

theorem stage_over_quota {io : Io} {kind : RecordKind} {encoded : Except EngineError Bytes} {operation : Operation} {tx u : Transaction}
    {e : EngineError} (own : ∀ d, encoded = .error d → ¬ d.Quota) (failed : stage io kind encoded operation tx = .error e u)
    (quota : e.Quota) : (∃ payload, encoded = .ok payload ∧ tx.store.full_for payload = true) ∧ tx.Waits u := by
  rw [stage,get_bind] at failed
  rcases lift_bind_error.mp failed with ⟨closed,-⟩ | ⟨_,-,failed⟩
  · unfold ensure_open at closed
    split at closed
    · cases closed
      cases quota
    · cases closed
  rcases lift_bind_error.mp failed with ⟨large,-⟩ | ⟨payload,encodes,failed⟩
  · exact absurd quota (own e large)
  rw [get_bind] at failed
  rcases bind_error.mp failed with early | ⟨_,middle,-,late⟩
  · obtain ⟨store,appends,rfl⟩ := zoom_error.mp early
    obtain ⟨full,same⟩ := append_over_quota appends quota
    refine ⟨⟨payload,encodes,full⟩,?_⟩
    unfold Transaction.Waits
    rw [← same]
  · cases late

/-- Staging never shortens the file. -/
theorem Staged.longer {tx u : Transaction} {rs : List LogRecord} {piece : Bytes} (staged : Staged tx u rs piece) :
    tx.store.file.length ≤ u.store.file.length := by
  rw [staged.grown.file,List.length_append]
  omega

theorem write_longer (io : Io) (operation : Operation) (tx : Transaction) :
    tx.store.file.length ≤ (after (operation.write io) tx).store.file.length := by
  rw [write_eq]
  unfold after
  cases result : stage io operation.kind operation.encoded operation tx with
  | ok x u =>
    obtain ⟨r,staged,-⟩ := stage_ok (operation_spells operation) result
    exact staged.longer
  | error e u =>
    obtain ⟨piece,staged,-⟩ := stage_error result
    exact staged.longer

/-! ## Commits -/

/-- A refused commit has written nothing: it has no changes to tell, or the first one did not fit. -/
def Transaction.RefusedAtOnce (tx : Transaction) : Prop :=
  match ownChanges tx with
  | [] => True
  | first :: _ => ∃ payload, first.encoded = .ok payload ∧ tx.store.full_for payload = true

theorem stage_no_changes {io : Io} {sequence : UInt32} {operations : List Operation} {tx : Transaction}
    (none : changesFrom tx.tx_id sequence.toNat operations = []) : stage_changes_from io sequence operations tx = .ok () tx := by
  induction operations with
  | nil => rfl
  | cons operation operations ih =>
    rw [changesFrom,UInt32.ofNat_toNat] at none
    rw [stage_changes_from,get_bind]
    cases found : change_for tx.tx_id sequence operation with
    | none =>
      rw [found] at none
      exact ih none
    | some change =>
      rw [found] at none
      cases none

/-- The first change that is staged: it is refused, or the file is longer from then on. -/
theorem stage_first_change {io : Io} {sequence : UInt32} {operations : List Operation} {tx : Transaction} {change : ChangeRecord}
    {changes : List ChangeRecord} (told : changesFrom tx.tx_id sequence.toNat operations = change :: changes) :
    (∀ u, stage_changes_from io sequence operations tx = .ok () u →
      (∀ payload, change.store.encoded = .ok payload → tx.store.full_for payload = false) ∧ tx.store.file.length < u.store.file.length) ∧
    ∀ e u, stage_changes_from io sequence operations tx = .error e u → e.Quota →
      (∃ payload, change.store.encoded = .ok payload ∧ tx.store.full_for payload = true) ∧ tx.Waits u ∨
      (∀ payload, change.store.encoded = .ok payload → tx.store.full_for payload = false) ∧ tx.store.file.length < u.store.file.length := by
  induction operations with
  | nil => cases told
  | cons operation operations ih =>
    rw [changesFrom,UInt32.ofNat_toNat] at told
    rw [stage_changes_from,get_bind]
    cases found : change_for tx.tx_id sequence operation with
    | none =>
      rw [found] at told
      exact ih told
    | some first =>
      rw [found] at told
      obtain ⟨same_tx,same_sequence,-,-⟩ := change_for_some found
      obtain ⟨rfl,-⟩ := List.cons.inj told
      dsimp only
      cases spelled : encode_change first with
      | error d =>
        constructor
        · intro u done
          obtain ⟨_,impossible,-⟩ := lift_bind_ok.mp done
          cases impossible
        · intro e u failed quota
          rcases lift_bind_error.mp failed with ⟨refused,-⟩ | ⟨_,impossible,-⟩
          · cases refused
            exact absurd quota (encode_change_error spelled)
          · cases impossible
      | ok encoded =>
        have stored : first.store = .Put (change_key tx.tx_id sequence) encoded := by
          rw [ChangeRecord.store,same_tx,same_sequence,spelling_eq spelled]
        rw [mapError_ok,lift_ok_bind,stored]
        constructor
        · intro u done
          obtain ⟨_,middle,staged,done⟩ := bind_ok.mp done
          obtain ⟨room,longer⟩ := stage_grows staged
          cases added : sequence.checked_add 1 with
          | none =>
            rw [added] at done
            cases done
          | some next =>
            rw [added] at done
            obtain ⟨rs,later,-⟩ := stage_changes_ok done
            exact ⟨room,Nat.lt_of_lt_of_le longer later.longer⟩
        · intro e u failed quota
          rcases bind_error.mp failed with early | ⟨_,middle,staged,late⟩
          · exact .inl (stage_over_quota (fun d large => encoded_error (show (Operation.Put _ _).encoded = _ from large)) early quota)
          · obtain ⟨room,longer⟩ := stage_grows staged
            cases added : sequence.checked_add 1 with
            | none =>
              rw [added] at late
              cases late
              exact .inr ⟨room,longer⟩
            | some next =>
              rw [added] at late
              obtain ⟨rs,piece,later,-⟩ := stage_changes_error late
              exact .inr ⟨room,Nat.lt_of_lt_of_le longer later.longer⟩

/-- A commit that succeeds had room for its first record, and the file is longer. -/
theorem commit_grows {io : Io} {tx u : Transaction} {x : Unit} (done : commit io tx = .ok x u) :
    (tx.operations = [] → tx.store.full_for [] = false) ∧ tx.store.file.length < u.store.file.length := by
  constructor
  · intro nothing
    unfold commit at done
    cases inner : commit_inner io tx with
    | error e left =>
      rw [inner] at done
      cases done
    | ok y v =>
      rw [commit_inner,get_bind] at inner
      obtain ⟨_,-,inner⟩ := lift_bind_ok.mp inner
      have silent : stage_own_changes io tx = .ok () tx := by
        rw [stage_own_changes,get_bind,nothing]
        split <;> rfl
      rw [bind_of_ok silent,get_bind] at inner
      obtain ⟨_,-,inner⟩ := lift_bind_ok.mp inner
      obtain ⟨_,last,appending,-⟩ := bind_ok.mp inner
      obtain ⟨store,appended,-⟩ := zoom_ok.mp appending
      exact (append_grows appended).1
  · obtain ⟨rs,r,written,-⟩ := commit_ok done
    rw [written.file,List.length_append]
    simp [frames,logFraming]

theorem commit_longer (io : Io) (tx : Transaction) : tx.store.file.length ≤ (after (commit io) tx).store.file.length := by
  unfold after
  cases result : commit io tx with
  | ok x u => exact Nat.le_of_lt (commit_grows result).2
  | error e u =>
    rcases commit_error result with ⟨rs,piece,staged,-⟩ | ⟨rs,r,written,-⟩
    · exact staged.longer
    · dsimp only
      rw [written.file,List.length_append]
      omega

/-- A commit that a quota refuses: at once, or the file is longer. -/
theorem commit_over_quota {io : Io} {tx u : Transaction} {e : EngineError} (failed : commit io tx = .error e u) (quota : e.Quota) :
    (tx.RefusedAtOnce ∧ tx.store.Rests u.store ∨ ¬ tx.RefusedAtOnce ∧ tx.store.file.length < u.store.file.length) ∧
      (tx.operations = [] → tx.store.full_for [] = true) := by
  unfold commit at failed
  cases inner : commit_inner io tx with
  | ok y v =>
    rw [inner] at failed
    cases failed
  | error d left =>
    rw [inner] at failed
    cases failed
    rw [commit_inner,get_bind] at inner
    rcases lift_bind_error.mp inner with ⟨closed,-⟩ | ⟨_,-,inner⟩
    · unfold ensure_open at closed
      split at closed
      · cases closed
        cases quota
      · cases closed
    -- What comes behind the changes writes nothing before it is refused.
    have behind : ∀ {middle : Transaction}, (do
        let self ← get
        lift (self.store.check_namespace_quota io self.operations)
        on_store (append io .Commit self.tx_id [])
        sync_file io (.commit_sync self.tx_id) self.store.options.durability
        modify (fun self => { self with
          store := { self.store with state := apply_operations self.store.state self.operations }
          finished := true }) : EStateM EngineError Transaction Unit) middle = .error e left →
        middle.store.Rests left.store ∧ (middle.operations = [] → middle.store.full_for [] = true) := by
      intro middle ending
      rw [get_bind] at ending
      rcases lift_bind_error.mp ending with ⟨refused,rfl⟩ | ⟨_,-,ending⟩
      · exact ⟨rfl,fun nothing => absurd nothing (namespace_error refused quota)⟩
      rcases bind_error.mp ending with early | ⟨_,last,-,ending⟩
      · obtain ⟨store,appended,rfl⟩ := zoom_error.mp early
        obtain ⟨full,same⟩ := append_over_quota appended quota
        refine ⟨?_,fun _ => full⟩
        unfold Store.Rests
        dsimp only
        rw [same]
      · rcases bind_error.mp ending with unsynced | ⟨_,synced,-,impossible⟩
        · exact absurd quota (sync_not_quota unsynced)
        · cases impossible
    have counted : left.store.Rests { left.store with metrics := left.store.metrics.commit_failed } := rfl
    have zero : (0 : UInt32).toNat = 0 := rfl
    cases told : ownChanges tx with
    | nil =>
      have silent : stage_own_changes io tx = .ok () tx := by
        rw [stage_own_changes,get_bind]
        unfold ownChanges at told
        split
        · rename_i emits
          rw [if_pos emits,List.map_eq_nil_iff] at told
          exact stage_no_changes told
        · rfl
      rw [bind_of_ok silent] at inner
      obtain ⟨rests,full⟩ := behind inner
      refine ⟨.inl ⟨?_,rests.trans counted⟩,full⟩
      unfold Transaction.RefusedAtOnce
      rw [told]
      trivial
    | cons first rest =>
      have some_operations : tx.operations ≠ [] := by
        intro nothing
        rw [ownChanges,nothing] at told
        split at told <;> cases told
      refine ⟨?_,fun nothing => absurd nothing some_operations⟩
      have emits : tx.emit_cdc = true := by
        by_contra silent
        rw [ownChanges,if_neg silent] at told
        cases told
      rw [ownChanges,if_pos emits] at told
      obtain ⟨change,changes,are,rfl,-⟩ := List.map_eq_cons_iff.mp told
      obtain ⟨when_ok,when_refused⟩ := @stage_first_change _ io 0 tx.operations tx change changes are
      have staging : stage_own_changes io tx = stage_changes_from io 0 tx.operations tx := by
        rw [stage_own_changes,get_bind,if_pos emits]
        rfl
      have at_once : tx.RefusedAtOnce ↔ ∃ payload, change.store.encoded = .ok payload ∧ tx.store.full_for payload = true := by
        unfold Transaction.RefusedAtOnce
        rw [ownChanges,if_pos emits,told]
      have not_at_once : (∀ payload, change.store.encoded = .ok payload → tx.store.full_for payload = false) → ¬ tx.RefusedAtOnce := by
        intro room refused
        obtain ⟨payload,encoded,full⟩ := at_once.mp refused
        rw [room payload encoded] at full
        cases full
      rcases bind_error.mp inner with early | ⟨_,middle,staged,late⟩
      · rw [staging] at early
        rcases when_refused e left early quota with ⟨full,waits⟩ | ⟨room,longer⟩
        · exact .inl ⟨at_once.mpr full,waits.rests.trans counted⟩
        · exact .inr ⟨not_at_once room,longer⟩
      · rw [staging] at staged
        obtain ⟨room,longer⟩ := when_ok middle staged
        refine .inr ⟨not_at_once room,?_⟩
        dsimp only
        rw [(behind late).1.file]
        exact longer

/-! ## Operations of a store -/

def write_all (io : Io) : List Operation → EStateM EngineError Transaction Unit
  | [] => pure ()
  | operation :: operations => do
    operation.write io
    write_all io operations

/-- A transaction of its own: its operations are staged one after another, and committed. -/
def transact (io : Io) (emit_cdc : Bool) (operations : List Operation) : EStateM EngineError Store Unit := fun store =>
  match begin_with_cdc store emit_cdc with
  | .error error => .error error store
  | .ok tx =>
    match (do write_all io operations; commit io : EStateM EngineError Transaction Unit) tx with
    | .ok _ done => .ok () done.store
    | .error error left => .error error left.store

/-- What an operation of a store does: some transactions, each with the changes it tells or without. -/
def perform (io : Io) : List (Bool × List Operation) → EStateM EngineError Store Unit
  | [] => pure ()
  | (emit_cdc,operations) :: transactions => do
    transact io emit_cdc operations
    perform io transactions

/-- The payload of the first record that a transaction of these operations writes. -/
def firstPayload : List Operation → Except EngineError Bytes
  | [] => .ok []
  | operation :: _ => operation.encoded

theorem write_all_longer (io : Io) (operations : List Operation) (tx : Transaction) :
    tx.store.file.length ≤ (after (write_all io operations) tx).store.file.length := by
  induction operations generalizing tx with
  | nil => exact Nat.le_refl _
  | cons operation operations ih =>
    have first := write_longer io operation tx
    unfold after at first ⊢
    rw [write_all,bind_run]
    cases written : operation.write io tx with
    | error e u =>
      rw [written] at first
      exact first
    | ok x u =>
      rw [written] at first
      exact Nat.le_trans first (ih u)

/-- Staging some operations and committing them, from then on. -/
theorem finish_longer (io : Io) (operations : List Operation) (tx : Transaction) :
    tx.store.file.length ≤ (after (do write_all io operations; commit io) tx).store.file.length := by
  have staged := write_all_longer io operations tx
  unfold after at staged ⊢
  rw [bind_run]
  cases written : write_all io operations tx with
  | error e u =>
    rw [written] at staged
    exact staged
  | ok x u =>
    rw [written] at staged
    exact Nat.le_trans staged (commit_longer io u)

theorem transact_longer (io : Io) (emit_cdc : Bool) (operations : List Operation) (store : Store) :
    store.file.length ≤ (after (transact io emit_cdc operations) store).file.length := by
  unfold after transact
  cases begun : begin_with_cdc store emit_cdc with
  | error e => exact Nat.le_refl _
  | ok tx =>
    have longer := finish_longer io operations tx
    have file : tx.store.file = store.file := by rw [(begin_ok begun).2.2.2.2.2]
    rw [file] at longer
    unfold after at longer
    dsimp only
    cases result : (do write_all io operations; commit io : EStateM EngineError Transaction Unit) tx with
    | ok x u =>
      rw [result] at longer
      exact longer
    | error e u =>
      rw [result] at longer
      exact longer

theorem perform_longer (io : Io) (transactions : List (Bool × List Operation)) (store : Store) :
    store.file.length ≤ (after (perform io transactions) store).file.length := by
  induction transactions generalizing store with
  | nil => exact Nat.le_refl _
  | cons transaction transactions ih =>
    have first := transact_longer io transaction.1 transaction.2 store
    unfold after at first ⊢
    rw [perform,bind_run]
    cases result : transact io transaction.1 transaction.2 store with
    | error e t =>
      rw [result] at first
      exact first
    | ok x t =>
      rw [result] at first
      exact Nat.le_trans first (ih t)

/-- The first record of the transaction does not fit. -/
def Store.FirstRefused (store : Store) (operations : List Operation) : Prop :=
  ∃ payload, firstPayload operations = .ok payload ∧ store.full_for payload = true

theorem transact_grows {io : Io} {emit_cdc : Bool} {operations : List Operation} {store t : Store} {x : Unit}
    (done : transact io emit_cdc operations store = .ok x t) :
    ¬ store.FirstRefused operations ∧ store.file.length < t.file.length := by
  unfold transact at done
  cases begun : begin_with_cdc store emit_cdc with
  | error e =>
    rw [begun] at done
    cases done
  | ok tx =>
    have file : tx.store.file = store.file := by rw [(begin_ok begun).2.2.2.2.2]
    rw [begun] at done
    dsimp only at done
    cases result : (do write_all io operations; commit io : EStateM EngineError Transaction Unit) tx with
    | error e u =>
      rw [result] at done
      cases done
    | ok y u =>
      rw [result] at done
      cases done
      obtain ⟨_,middle,written,committed⟩ := bind_ok.mp result
      have staged := write_all_longer io operations tx
      unfold after at staged
      rw [written,file] at staged
      refine ⟨?_,Nat.lt_of_le_of_lt staged (commit_grows committed).2⟩
      rintro ⟨payload,first,full⟩
      rw [← begin_full begun] at full
      cases operations with
      | nil =>
        cases first
        cases written
        rw [(commit_grows committed).1 (begin_ok begun).2.2.1] at full
        cases full
      | cons operation operations =>
        obtain ⟨_,_,wrote,-⟩ := bind_ok.mp written
        rw [write_eq] at wrote
        rw [(stage_grows wrote).1 payload first] at full
        cases full

/-- A transaction that a quota refuses: at its first record, or the file is longer. -/
theorem transact_over_quota {io : Io} {emit_cdc : Bool} {operations : List Operation} {store t : Store} {e : EngineError}
    (failed : transact io emit_cdc operations store = .error e t) (quota : e.Quota) :
    store.FirstRefused operations ∧ store.Rests t ∨ ¬ store.FirstRefused operations ∧ store.file.length < t.file.length := by
  unfold transact at failed
  cases begun : begin_with_cdc store emit_cdc with
  | error d =>
    rw [begun] at failed
    cases failed
    unfold begin_with_cdc at begun
    split at begun
    · cases begun
      cases quota
    · cases begun
  | ok tx =>
    have same := (begin_ok begun).2.2.2.2.2
    have file : tx.store.file = store.file := by rw [same]
    have rested : store.Rests tx.store := by
      unfold Store.Rests
      rw [same]
    rw [begun] at failed
    dsimp only at failed
    cases result : (do write_all io operations; commit io : EStateM EngineError Transaction Unit) tx with
    | ok y u =>
      rw [result] at failed
      cases failed
    | error d u =>
      rw [result] at failed
      cases failed
      cases operations with
      | nil =>
        -- Nothing is staged, and there are no changes: only the commit record can be refused.
        have committed : commit io tx = .error e u := result
        obtain ⟨cases_of,full⟩ := commit_over_quota committed quota
        have nothing := (begin_ok begun).2.2.1
        refine .inl ⟨⟨[],rfl,by rw [← begin_full begun]; exact full nothing⟩,?_⟩
        rcases cases_of with ⟨-,rests⟩ | ⟨later,-⟩
        · exact rested.trans rests
        · refine absurd ?_ later
          have silent : ownChanges tx = [] := by
            rw [ownChanges,nothing]
            split <;> rfl
          unfold Transaction.RefusedAtOnce
          rw [silent]
          trivial
      | cons operation operations =>
        have whole : (do operation.write io; (do write_all io operations; commit io) : EStateM EngineError Transaction Unit) tx = .error e u := by
          rw [bind_run] at result ⊢
          rw [write_all,bind_run] at result
          cases written : operation.write io tx with
          | error d w =>
            rw [written] at result
            exact result
          | ok y w =>
            rw [written] at result
            dsimp only at result ⊢
            rw [bind_run]
            exact result
        rcases bind_error.mp whole with early | ⟨_,middle,written,late⟩
        · rw [write_eq] at early
          obtain ⟨⟨payload,encoded,full⟩,waits⟩ := stage_over_quota (fun _ => encoded_error) early quota
          exact .inl ⟨⟨payload,encoded,by rw [← begin_full begun]; exact full⟩,rested.trans waits.rests⟩
        · rw [write_eq] at written
          obtain ⟨room,longer⟩ := stage_grows written
          refine .inr ⟨?_,?_⟩
          · rintro ⟨payload,encoded,full⟩
            rw [← begin_full begun,room payload encoded] at full
            cases full
          · have rest := finish_longer io operations middle
            unfold after at rest
            rw [late] at rest
            rw [file] at longer
            exact Nat.lt_of_lt_of_le longer rest

theorem perform_over_quota {io : Io} {emit_cdc : Bool} {operations : List Operation} {transactions : List (Bool × List Operation)}
    {store t : Store} {e : EngineError} (failed : perform io ((emit_cdc,operations) :: transactions) store = .error e t) (quota : e.Quota) :
    store.FirstRefused operations ∧ store.Rests t ∨ ¬ store.FirstRefused operations ∧ store.file.length < t.file.length := by
  rcases bind_error.mp failed with early | ⟨_,middle,done,late⟩
  · exact transact_over_quota early quota
  · obtain ⟨room,longer⟩ := transact_grows done
    have rest := perform_longer io transactions middle
    unfold after at rest
    rw [late] at rest
    exact .inr ⟨room,Nat.lt_of_lt_of_le longer rest⟩

/-! ## Runs of refused calls -/

/-- A call that writes: an operation of a store, or a call on its open transaction. -/
inductive Attempt
  | Perform (transactions : List (Bool × List Operation))
  | Stage (operation : Operation)
  | Commit

/-- What the call returns, and what it leaves. One that the borrow checker rules out changes nothing. -/
def Attempt.run (io : Io) (attempt : Attempt) (session : Session) : Except EngineError Unit × Session :=
  match session, attempt with
  | .Idle store, .Perform transactions => (returned (perform io transactions) store,.Idle (after (perform io transactions) store))
  | .Busy tx, .Stage operation => (returned (operation.write io) tx,.Busy (after (operation.write io) tx))
  | .Busy tx, .Commit => (returned (commit io) tx,.Idle (after (commit io) tx).store)
  | _, _ => (.error .TransactionFinished,session)

def Session.attempts (session : Session) (calls : List (Io × Attempt)) : Session :=
  calls.foldl (fun session call => (call.2.run call.1 session).2) session

/-- A quota refuses every call. -/
def Session.AllRefused (session : Session) : List (Io × Attempt) → Prop
  | [] => True
  | call :: calls => (∃ e, (call.2.run call.1 session).1 = .error e ∧ e.Quota) ∧ (call.2.run call.1 session).2.AllRefused calls

/-- A call that is refused has written nothing: the first record of the first transaction does not fit, or,
    on an open transaction, nothing is told before the commit record, or the first change does not fit. -/
def Session.RefusesAtOnce : Session → Attempt → Prop
  | .Idle store, .Perform ((_,operations) :: _) => store.FirstRefused operations
  | .Busy tx, .Commit => tx.RefusedAtOnce
  | _, _ => True

def Session.AllAtOnce (session : Session) : List (Io × Attempt) → Prop
  | [] => True
  | call :: calls => session.RefusesAtOnce call.2 ∧ (call.2.run call.1 session).2.AllAtOnce calls

theorem attempt_over_quota {io : Io} {attempt : Attempt} {session : Session} {e : EngineError}
    (refused : (attempt.run io session).1 = .error e) (quota : e.Quota) :
    session.RefusesAtOnce attempt ∧ session.store.Rests (attempt.run io session).2.store ∨
      ¬ session.RefusesAtOnce attempt ∧ session.store.file.length < (attempt.run io session).2.store.file.length := by
  cases session with
  | Idle store =>
    cases attempt with
    | Perform transactions =>
      cases transactions with
      | nil => cases refused
      | cons transaction transactions => exact perform_over_quota (returned_error refused) quota
    | Stage operation =>
      cases refused
      cases quota
    | Commit =>
      cases refused
      cases quota
  | Busy tx =>
    cases attempt with
    | Perform transactions =>
      cases refused
      cases quota
    | Stage operation =>
      have failed := returned_error refused
      rw [write_eq] at failed
      refine .inl ⟨trivial,?_⟩
      show tx.store.Rests (after (operation.write io) tx).store
      rw [write_eq]
      exact (stage_over_quota (fun _ => encoded_error) failed quota).2.rests
    | Commit => exact (commit_over_quota (returned_error refused) quota).1

theorem attempt_longer (io : Io) (attempt : Attempt) (session : Session) :
    session.store.file.length ≤ (attempt.run io session).2.store.file.length := by
  cases session with
  | Idle store =>
    cases attempt with
    | Perform transactions => exact perform_longer io transactions store
    | Stage operation => exact Nat.le_refl _
    | Commit => exact Nat.le_refl _
  | Busy tx =>
    cases attempt with
    | Perform transactions => exact Nat.le_refl _
    | Stage operation => exact write_longer io operation tx
    | Commit => exact commit_longer io tx

theorem attempts_longer (calls : List (Io × Attempt)) (session : Session) :
    session.store.file.length ≤ (session.attempts calls).store.file.length := by
  induction calls generalizing session with
  | nil => exact Nat.le_refl _
  | cons call calls ih => exact Nat.le_trans (attempt_longer call.1 call.2 session) (ih _)

/-- Calls that are refused at once leave the store as it was, but for its counters. -/
theorem attempts_rest {session : Session} {calls : List (Io × Attempt)} (refused : session.AllRefused calls)
    (at_once : session.AllAtOnce calls) : session.store.Rests (session.attempts calls).store := by
  induction calls generalizing session with
  | nil => rfl
  | cons call calls ih =>
    obtain ⟨⟨e,failed,quota⟩,later⟩ := refused
    obtain ⟨here,there⟩ := at_once
    rcases attempt_over_quota failed quota with ⟨-,rests⟩ | ⟨not_here,-⟩
    · exact rests.trans (ih later there)
    · exact absurd here not_here

/-- After a run of refused calls the file is as it was exactly if each of them was refused at once. -/
theorem refused_at_once_iff {session : Session} {calls : List (Io × Attempt)} (refused : session.AllRefused calls) :
    (session.attempts calls).store.file = session.store.file ↔ session.AllAtOnce calls := by
  constructor
  · intro same
    induction calls generalizing session with
    | nil => trivial
    | cons call calls ih =>
      obtain ⟨⟨e,failed,quota⟩,later⟩ := refused
      have rest := attempts_longer calls (call.2.run call.1 session).2
      have total : (session.attempts (call :: calls)).store.file.length = session.store.file.length := by rw [same]
      rcases attempt_over_quota failed quota with ⟨here,rests⟩ | ⟨-,longer⟩
      · refine ⟨here,ih later ?_⟩
        rw [rests.file]
        exact same
      · have : ((call.2.run call.1 session).2.attempts calls).store.file.length = session.store.file.length := total
        omega
  · intro at_once
    exact (attempts_rest refused at_once).file

end

end VoodooStore
