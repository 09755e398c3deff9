import VoodooStore.Cdc
import VoodooStore.Quota

/-!
# Committing

A commit stages the changes of its transaction, checks the namespace quota,
writes the commit record, waits for the disk, and only then updates the
key/value map. It can fail at each of these points; `commit_ok` and
`commit_error` say what it has done by then.
-/
namespace VoodooStore
open Effects
set_option linter.unusedSimpArgs false

section
variable [Hashes]

def stage_own_changes (io : Io) : EStateM EngineError Transaction Unit := do
  let self ← get
  if self.emit_cdc then stage_changes io self.operations else pure ()

def commit_inner (io : Io) : EStateM EngineError Transaction Unit := do
  lift (ensure_open (← get))
  stage_own_changes io
  let self ← get
  lift (self.store.check_namespace_quota io self.operations)
  on_store (append io .Commit self.tx_id [])
  sync_file io (.commit_sync self.tx_id) self.store.options.durability
  modify (fun self => { self with
    store := { self.store with state := apply_operations self.store.state self.operations }
    finished := true })

/-- A failed commit is counted. -/
def StoreMetrics.commit_failed (self : StoreMetrics) : StoreMetrics :=
  { self with commit_errors := self.commit_errors.saturating_add 1 }

def commit (io : Io) : EStateM EngineError Transaction Unit := fun tx =>
  match commit_inner io tx with
  | .ok u done => .ok u done
  | .error e left => .error e { left with store := { left.store with metrics := left.store.metrics.commit_failed } }

/-- The operations that a commit adds to those its transaction staged. -/
def ownChanges (tx : Transaction) : List Operation :=
  if tx.emit_cdc then (changesFrom tx.tx_id 0 tx.operations).map ChangeRecord.store else []

/-- A commit record has been written behind the records of its transaction. -/
structure Written (tx u : Transaction) (rs : List LogRecord) (r : LogRecord) : Prop where
  file : u.store.file = tx.store.file ++ frames (rs ++ [r])
  numbered : Numbered tx.store.next_sequence u.store.next_sequence (rs ++ [r])
  fits : ∀ t ∈ rs ++ [r], t.Fits
  mine : ∀ t ∈ rs ++ [r], t.tx_id = tx.tx_id
  stages : ∀ t ∈ rs, t.operation ≠ none
  commit : r.kind = .Commit
  changes : rs.filterMap LogRecord.operation = ownChanges tx
  operations : u.operations = tx.operations ++ ownChanges tx
  encodes : tx.emit_cdc = true → ∀ change ∈ changesFrom tx.tx_id 0 tx.operations,
    ∃ encoded, encode_change change = .ok encoded
  countable : tx.emit_cdc = true → (changesFrom tx.tx_id 0 tx.operations).length < 2 ^ 32
  tx_id : u.tx_id = tx.tx_id
  path : u.store.path = tx.store.path
  header : u.store.header = tx.store.header
  options : u.store.options = tx.store.options
  next_tx_id : u.store.next_tx_id = tx.store.next_tx_id

/-- The map, the metrics and the mark of a finished transaction are not in the file. -/
theorem Written.forget {tx u : Transaction} {rs : List LogRecord} {r : LogRecord} (written : Written tx u rs r)
    (state : State) (metrics : StoreMetrics) (finished : Bool) :
    Written tx { u with store := { u.store with state := state, metrics := metrics }, finished := finished } rs r :=
  ⟨written.file,written.numbered,written.fits,written.mine,written.stages,written.commit,written.changes,
    written.operations,written.encodes,written.countable,written.tx_id,written.path,written.header,written.options,
    written.next_tx_id⟩

theorem Staged.forget {tx u : Transaction} {rs : List LogRecord} {piece : Bytes} (staged : Staged tx u rs piece)
    (metrics : StoreMetrics) : Staged tx { u with store := { u.store with metrics := metrics } } rs piece :=
  ⟨⟨staged.grown.file,staged.grown.numbered,staged.grown.fits,staged.grown.path,staged.grown.header,
    staged.grown.options,staged.grown.state,staged.grown.next_tx_id⟩,staged.operations,staged.mine,staged.stages,
    staged.tx_id,staged.emit_cdc,staged.finished⟩

theorem stage_own_changes_ok {io : Io} {tx u : Transaction} {x : Unit} (done : stage_own_changes io tx = .ok x u) :
    ∃ rs, Staged tx u rs [] ∧ rs.filterMap LogRecord.operation = ownChanges tx ∧
      (tx.emit_cdc = true → (changesFrom tx.tx_id 0 tx.operations).length < 2 ^ 32 ∧
        ∀ change ∈ changesFrom tx.tx_id 0 tx.operations, ∃ encoded, encode_change change = .ok encoded) := by
  rw [stage_own_changes,get_bind] at done
  unfold ownChanges
  by_cases emits : tx.emit_cdc = true
  · rw [if_pos emits] at done
    obtain ⟨rs,staged,stored,bound,encodes⟩ := stage_changes_ok done
    rw [if_pos emits]
    have zero : (0 : UInt32).toNat = 0 := rfl
    rw [zero] at stored bound encodes
    exact ⟨rs,staged,stored,fun _ => ⟨by omega,encodes⟩⟩
  · rw [if_neg emits] at done
    cases done
    rw [if_neg emits]
    exact ⟨[],.refl _,rfl,fun absurd => (emits absurd).elim⟩

theorem stage_own_changes_error {io : Io} {tx u : Transaction} {e : EngineError}
    (failed : stage_own_changes io tx = .error e u) : ∃ rs piece, Staged tx u rs piece ∧ Piece io piece := by
  rw [stage_own_changes,get_bind] at failed
  split at failed
  · exact stage_changes_error failed
  · cases failed

/-- The records of a transaction and then its commit record. -/
theorem written_of {tx middle : Transaction} {rs : List LogRecord} {store : Store} (staged : Staged tx middle rs [])
    (changes : rs.filterMap LogRecord.operation = ownChanges tx)
    (feed : tx.emit_cdc = true → (changesFrom tx.tx_id 0 tx.operations).length < 2 ^ 32 ∧
      ∀ change ∈ changesFrom tx.tx_id 0 tx.operations, ∃ encoded, encode_change change = .ok encoded)
    (grown : Grown middle.store store [⟨.Commit,middle.tx_id,middle.store.next_sequence,[]⟩] []) :
    Written tx { middle with store := store } rs ⟨.Commit,middle.tx_id,middle.store.next_sequence,[]⟩ := by
  have whole := staged.grown.trans grown
  refine ⟨?_,whole.numbered,whole.fits,?_,staged.stages,rfl,changes,?_,?_,?_,staged.tx_id,whole.path,whole.header,
    whole.options,whole.next_tx_id⟩
  · rw [whole.file,List.append_nil]
  · intro t member
    rcases List.mem_append.mp member with early | last
    · exact staged.mine t early
    · rw [List.mem_singleton.mp last]
      exact staged.tx_id
  · rw [← changes]
    exact staged.operations
  · exact fun emits => (feed emits).2
  · exact fun emits => (feed emits).1

/-- A commit that succeeds has written everything and applied everything. -/
theorem commit_ok {io : Io} {tx u : Transaction} {x : Unit} (done : commit io tx = .ok x u) :
    ∃ rs r, Written tx u rs r ∧ u.store.state = apply_operations tx.store.state u.operations := by
  unfold commit at done
  cases inner : commit_inner io tx with
  | error e left => rw [inner] at done; cases done
  | ok y v =>
    rw [inner] at done
    cases done
    rw [commit_inner,get_bind,lift_bind_ok] at inner
    obtain ⟨_,-,inner⟩ := inner
    obtain ⟨_,middle,staging,inner⟩ := bind_ok.mp inner
    obtain ⟨rs,staged,changes,feed⟩ := stage_own_changes_ok staging
    rw [get_bind,lift_bind_ok] at inner
    obtain ⟨_,-,inner⟩ := inner
    obtain ⟨_,last,appending,inner⟩ := bind_ok.mp inner
    obtain ⟨store,appended,rfl⟩ := zoom_ok.mp appending
    have grown := append_ok appended
    have written := written_of staged changes feed grown
    obtain ⟨_,synced,syncing,inner⟩ := bind_ok.mp inner
    obtain ⟨-,rfl⟩ := sync_ok.mp syncing
    cases inner
    refine ⟨rs,⟨.Commit,middle.tx_id,middle.store.next_sequence,[]⟩,written.forget _ _ _,?_⟩
    dsimp only
    rw [grown.state,staged.grown.state]

/-- A commit that fails leaves the map alone. Either its record is not in the
    file, or it is and the disk did not confirm it. -/
theorem commit_error {io : Io} {tx u : Transaction} {e : EngineError} (failed : commit io tx = .error e u) :
    (∃ rs piece, Staged tx u rs piece ∧ Piece io piece) ∨
    (∃ rs r, Written tx u rs r ∧ u.store.state = tx.store.state ∧ io.fails (.commit_sync tx.tx_id) ≠ none ∧
      tx.store.options.durability ≠ .Relaxed) := by
  unfold commit at failed
  cases inner : commit_inner io tx with
  | ok y v => rw [inner] at failed; cases failed
  | error e left =>
    rw [inner] at failed
    cases failed
    rw [commit_inner,get_bind,lift_bind_error] at inner
    rcases inner with ⟨-,rfl⟩ | ⟨_,-,inner⟩
    · exact .inl ⟨[],[],.forget (.refl left) _,.none io⟩
    rcases bind_error.mp inner with early | ⟨_,middle,staging,inner⟩
    · obtain ⟨rs,piece,staged,torn⟩ := stage_own_changes_error early
      exact .inl ⟨rs,piece,staged.forget _,torn⟩
    obtain ⟨rs,staged,changes,feed⟩ := stage_own_changes_ok staging
    rw [get_bind,lift_bind_error] at inner
    rcases inner with ⟨-,rfl⟩ | ⟨_,-,inner⟩
    · exact .inl ⟨rs,[],staged.forget _,.none io⟩
    rcases bind_error.mp inner with early | ⟨_,last,appending,inner⟩
    · obtain ⟨store,appended,rfl⟩ := zoom_error.mp early
      obtain ⟨piece,grown,torn⟩ := append_error appended
      have alone : Staged middle { middle with store := store } [] piece :=
        ⟨grown,by simp,by simp,by simp,rfl,rfl,rfl⟩
      exact .inl ⟨rs ++ [],piece,.forget (staged.trans alone) _,torn⟩
    obtain ⟨store,appended,rfl⟩ := zoom_ok.mp appending
    have grown := append_ok appended
    have written := written_of staged changes feed grown
    rcases bind_error.mp inner with unsynced | ⟨_,synced,-,impossible⟩
    · obtain ⟨strict,fails,rfl⟩ := sync_error unsynced
      refine .inr ⟨rs,⟨.Commit,middle.tx_id,middle.store.next_sequence,[]⟩,written.forget _ _ _,?_,?_,?_⟩
      · exact grown.state.trans staged.grown.state
      · rw [← staged.tx_id]
        exact fails
      · rw [← staged.grown.options]
        exact strict
    · cases impossible

end

end VoodooStore
