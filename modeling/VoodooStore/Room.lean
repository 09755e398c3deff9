import VoodooStore.View

/-!
# Transactions with room

How far the counters of a store move, and that a transaction of puts succeeds
where no quota limits the store and the counters have room for its records.
-/
namespace VoodooStore
open Effects
set_option linter.unusedSimpArgs false

theorem rethrow_bind {ε φ σ α β : Type} (f : ε → φ) (x : EStateM ε σ α) (g : α → EStateM ε σ β) :
    rethrow f (x >>= g) = (rethrow f x >>= fun a => rethrow f (g a)) := by
  funext s
  rw [bind_run]
  unfold rethrow
  rw [bind_run]
  cases x s <;> rfl

theorem rethrow_pure {ε φ σ α : Type} (f : ε → φ) (a : α) : rethrow f (pure a : EStateM ε σ α) = pure a := rfl

theorem lift_ok_bind {ε σ α β : Type} (a : α) (f : α → EStateM ε σ β) : (lift (.ok a) >>= f) = f a := rfl

/-! ## Room -/

/-- A record can hold the entry, and another one the change. -/
structure Storable (entry : Bytes × Bytes) : Prop where
  key : entry.1.length + 100 < 2 ^ 32
  value : 4 + (entry.1.length + entry.2.length) < 2 ^ 32

/-- A record can hold the operation, and another one the change. -/
def Operation.Storable : Operation → Prop
  | .Put key value => VoodooStore.Storable (key,value)
  | .Delete key => key.length + 100 < 2 ^ 32

/-- No quota limits the store, and its counters have room for so many transactions of so many records. -/
structure Roomy (store : Store) (transactions records : Nat) : Prop where
  unlimited : store.options.Unlimited
  tx_ids : store.next_tx_id.toNat + transactions < 2 ^ 64
  sequences : store.next_sequence.toNat + records < 2 ^ 64

/-- These operations have been staged, each in a record of its own. -/
structure Advanced (tx u : Transaction) (added : List Operation) : Prop where
  options : u.store.options = tx.store.options
  finished : u.finished = tx.finished
  tx_id : u.tx_id = tx.tx_id
  operations : u.operations = tx.operations ++ added
  next_tx_id : u.store.next_tx_id = tx.store.next_tx_id
  counted : u.store.next_sequence.toNat = tx.store.next_sequence.toNat + added.length

theorem Advanced.refl (tx : Transaction) : Advanced tx tx [] := ⟨rfl,rfl,rfl,by simp,rfl,rfl⟩

theorem Advanced.trans {tx u w : Transaction} {first second : List Operation} (low : Advanced tx u first) (high : Advanced u w second) :
    Advanced tx w (first ++ second) := by
  refine ⟨high.options.trans low.options,high.finished.trans low.finished,high.tx_id.trans low.tx_id,?_,
    high.next_tx_id.trans low.next_tx_id,?_⟩
  · rw [high.operations,low.operations,List.append_assoc]
  · rw [high.counted,low.counted,List.length_append]
    omega

/-- The transaction can stage so many more records. -/
structure CanStage (tx : Transaction) (records : Nat) : Prop where
  unlimited : tx.store.options.Unlimited
  unfinished : tx.finished = false
  room : tx.store.next_sequence.toNat + records < 2 ^ 64

theorem CanStage.after {tx u : Transaction} {operations : List Operation} {records : Nat}
    (room : CanStage tx (operations.length + records)) (advanced : Advanced tx u operations) : CanStage u records := by
  refine ⟨?_,advanced.finished.trans room.unfinished,?_⟩
  · rw [advanced.options]
    exact room.unlimited
  · have := room.room
    rw [advanced.counted]
    omega

section
variable [Hashes]

/-! ## How far the counter moves -/

theorem stage_changes_counts {io : Io} {sequence : UInt32} {operations : List Operation} {tx u : Transaction} {x : Unit}
    (done : stage_changes_from io sequence operations tx = .ok x u) :
    u.store.next_sequence.toNat ≤ tx.store.next_sequence.toNat + operations.length := by
  induction operations generalizing sequence tx with
  | nil =>
    cases done
    exact Nat.le_refl _
  | cons operation operations ih =>
    rw [stage_changes_from,get_bind] at done
    rw [List.length_cons]
    cases found : change_for tx.tx_id sequence operation with
    | none =>
      rw [found] at done
      have := ih done
      omega
    | some change =>
      rw [found] at done
      obtain ⟨encoded,-,done⟩ := lift_bind_ok.mp done
      obtain ⟨_,middle,staged,done⟩ := bind_ok.mp done
      have one := stage_counts staged
      cases added : sequence.checked_add 1 with
      | none =>
        rw [added] at done
        cases done
      | some next =>
        rw [added] at done
        have := ih done
        omega

/-- A commit writes a record for each change, and one more. -/
theorem commit_counts {io : Io} {tx u : Transaction} {x : Unit} (done : commit io tx = .ok x u) :
    u.store.next_sequence.toNat ≤ tx.store.next_sequence.toNat + tx.operations.length + 1 := by
  unfold commit at done
  cases inner : commit_inner io tx with
  | error e left =>
    rw [inner] at done
    cases done
  | ok y v =>
    rw [inner] at done
    cases done
    rw [commit_inner,get_bind] at inner
    obtain ⟨_,-,inner⟩ := lift_bind_ok.mp inner
    obtain ⟨_,middle,staged,inner⟩ := bind_ok.mp inner
    rw [get_bind] at inner
    obtain ⟨_,-,inner⟩ := lift_bind_ok.mp inner
    obtain ⟨_,w,appended,inner⟩ := bind_ok.mp inner
    obtain ⟨t,grown,rfl⟩ := zoom_ok.mp appended
    obtain ⟨_,z,synced,inner⟩ := bind_ok.mp inner
    obtain ⟨-,rfl⟩ := sync_ok.mp synced
    cases inner
    have last := append_counts grown
    have changes : middle.store.next_sequence.toNat ≤ tx.store.next_sequence.toNat + tx.operations.length := by
      rw [stage_own_changes,get_bind] at staged
      split at staged
      · exact stage_changes_counts staged
      · cases staged
        omega
    show t.next_sequence.toNat ≤ _
    omega

/-! ## Transactions that succeed -/

theorem staged_advanced {tx u : Transaction} {r : LogRecord} {operation : Operation} (does : Staged tx u [r] [])
    (spelled : r.operation = some operation) (counted : u.store.next_sequence.toNat = tx.store.next_sequence.toNat + 1) :
    Advanced tx u [operation] := by
  refine ⟨does.grown.options,does.finished,does.tx_id,?_,does.grown.next_tx_id,counted⟩
  rw [does.operations]
  simp [spelled]

theorem put_succeeds {io : Io} {tx : Transaction} {key value : Bytes} (faultless : io.Faultless) (storable : Storable (key,value))
    (room : CanStage tx 1) : ∃ u, put_internal io key value tx = .ok () u ∧ Advanced tx u [.Put key value] := by
  have long : key.length + 100 < 2 ^ 32 := storable.key
  have short : 4 + (key.length + value.length) < 2 ^ 32 := storable.value
  have payload := encode_put_fits value (show key.length < 2 ^ 32 by omega)
  have spells := put_spells key value
  rw [payload] at spells
  obtain ⟨u,staged,does,counted⟩ := stage_succeeds faultless room.unlimited room.unfinished spells (by simp; omega) room.room
  refine ⟨u,by rw [put_internal,payload]; exact staged,staged_advanced does ?_ counted⟩
  simp [LogRecord.operation,decode_put_encode payload,Except.toOption]

theorem delete_succeeds {io : Io} {tx : Transaction} {key : Bytes} (faultless : io.Faultless) (storable : key.length + 100 < 2 ^ 32)
    (room : CanStage tx 1) : ∃ u, delete_internal io key tx = .ok () u ∧ Advanced tx u [.Delete key] := by
  have payload := encode_delete_fits (show key.length < 2 ^ 32 by omega)
  have spells := delete_spells key
  rw [payload] at spells
  obtain ⟨u,staged,does,counted⟩ := stage_succeeds faultless room.unlimited room.unfinished spells (by simp; omega) room.room
  refine ⟨u,by rw [delete_internal,payload]; exact staged,staged_advanced does ?_ counted⟩
  simp [LogRecord.operation,decode_delete_encode payload,Except.toOption]

theorem change_storable {operation : Operation} {tx_id : UInt64} {sequence : UInt32} {change : ChangeRecord} (storable : operation.Storable)
    (found : change_for tx_id sequence operation = some change) : change.Storable := by
  cases operation with
  | Put key value =>
    have long : key.length + 100 < 2 ^ 32 := storable.key
    rw [change_for] at found
    split at found
    · cases found
    · cases found
      have spelled := @encode_change_put ⟨tx_id,sequence,.Put,key,some (.ofNat value.length),some (Hashes.sha256 value)⟩ _ _
        (show key.length < 2 ^ 32 by omega) rfl rfl
      refine ⟨_,spelled,?_⟩
      have hash := (Hashes.sha256 value).property
      simp only [List.length_append,List.length_cons,front_length,hash,u64_to_le_length]
      omega
  | Delete key =>
    have long : key.length + 100 < 2 ^ 32 := storable
    rw [change_for] at found
    split at found
    · cases found
    · cases found
      have spelled := @encode_change_delete ⟨tx_id,sequence,.Delete,key,none,none⟩ (show key.length < 2 ^ 32 by omega) rfl rfl
      refine ⟨_,spelled,?_⟩
      simp only [List.length_append,List.length_cons,List.length_nil,front_length]
      omega

theorem changes_storable {operations : List Operation} (storable : ∀ operation ∈ operations, operation.Storable) (tx_id : UInt64) (n : Nat) :
    (∀ change ∈ changesFrom tx_id n operations, change.Storable) ∧ (changesFrom tx_id n operations).length ≤ operations.length := by
  induction operations generalizing n with
  | nil => simp [changesFrom]
  | cons operation operations ih =>
    have later := ih (fun other member => storable other (by simp [member]))
    rw [changesFrom,List.length_cons]
    cases found : change_for tx_id (.ofNat n) operation with
    | none =>
      obtain ⟨all,few⟩ := later n
      exact ⟨all,by dsimp only; omega⟩
    | some change =>
      obtain ⟨all,few⟩ := later (n + 1)
      refine ⟨?_,by dsimp only; rw [List.length_cons]; omega⟩
      intro other member
      rcases List.mem_cons.mp member with rfl | rest
      · exact change_storable (storable operation (by simp)) found
      · exact all other rest

/-- A transaction of its own whose body stages these operations. -/
theorem within_succeeds {ε α : Type} {wrap : EngineError → ε} {io : Io} {body : EStateM ε Transaction α} {store : Store}
    {operations : List Operation} {a : α} (faultless : io.Faultless) (storable : ∀ operation ∈ operations, operation.Storable)
    (few : operations.length < 2 ^ 32) {transactions records : Nat}
    (roomy : Roomy store (transactions + 1) (records + (2 * operations.length + 1)))
    (does : ∀ tx, begin_tx store = .ok tx → CanStage tx operations.length → ∃ u, body tx = .ok a u ∧ Advanced tx u operations) :
    ∃ t, within wrap io body store = .ok a t ∧ Roomy t transactions records := by
  obtain ⟨unlimited,tx_ids,sequences⟩ := roomy
  obtain ⟨next,added,counted_tx⟩ := @u64_checked_add_one store.next_tx_id (by omega)
  have begun : begin_tx store = .ok ⟨{ store with next_tx_id := next },store.next_tx_id,[],true,false⟩ := by
    rw [begin_tx,begin_with_cdc,added]
  obtain ⟨u,done,advanced⟩ := does _ begun ⟨unlimited,rfl,show store.next_sequence.toNat + _ < _ by omega⟩
  have staged : u.operations = operations := by rw [advanced.operations]; simp
  obtain ⟨all,small⟩ := changes_storable storable u.tx_id 0
  rw [← staged] at all small
  have counted : u.store.next_sequence.toNat = store.next_sequence.toNat + operations.length := advanced.counted
  have size : u.operations.length = operations.length := by rw [staged]
  obtain ⟨w,rs,last,committed,written⟩ := @commit_succeeds _ io u faultless (by rw [advanced.options]; exact unlimited) advanced.finished all
    (by omega) (by omega)
  have moved := commit_counts committed
  refine ⟨w.store,?_,?_,?_,?_⟩
  · rw [within_begun begun,bind_of_ok done,bind_of_ok (rethrow_ok.mpr committed)]
    rfl
  · rw [written.options,advanced.options]
    exact unlimited
  · rw [written.next_tx_id,advanced.next_tx_id]
    show next.toNat + _ < _
    omega
  · omega

/-- A new store without quotas has room. -/
theorem new_store_has_room {io : Io} {path : Path} {options : StoreOptions} {store : Store} {left : Bytes}
    (opened : open_with_options io path options [] = .ok store left) (unlimited : options.Unlimited) {transactions records : Nat}
    (few : transactions + 1 < 2 ^ 64) (small : records + 1 < 2 ^ 64) : Roomy store transactions records := by
  obtain ⟨-,-,-,-,tx_id,sequence⟩ := new_store opened
  obtain ⟨-,-,recovery,started,opens⟩ := open_ok opened
  refine ⟨?_,?_,?_⟩
  · rw [opens.options]
    exact unlimited
  · rw [tx_id]
    show 1 + _ < _
    omega
  · rw [sequence]
    show 1 + _ < _
    omega

/-! ### Puts -/

def asPuts (entries : List (Bytes × Bytes)) : List Operation := entries.map (fun entry => .Put entry.1 entry.2)

theorem put_entries_succeeds {io : Io} {tx : Transaction} {entries : List (Bytes × Bytes)} (faultless : io.Faultless)
    (storable : ∀ entry ∈ entries, Storable entry) (room : CanStage tx entries.length) :
    ∃ u, put_entries io entries tx = .ok () u ∧ Advanced tx u (asPuts entries) := by
  induction entries generalizing tx with
  | nil => exact ⟨tx,rfl,.refl tx⟩
  | cons entry entries ih =>
    rw [List.length_cons,Nat.add_comm] at room
    obtain ⟨v,put,advanced⟩ := put_succeeds faultless (storable entry (by simp)) ⟨room.unlimited,room.unfinished,by have := room.room; omega⟩
    obtain ⟨u,rest,later⟩ := ih (fun other member => storable other (by simp [member])) (room.after advanced)
    refine ⟨u,?_,advanced.trans later⟩
    rw [put_entries,bind_of_ok put]
    exact rest

/-- A transaction of its own that puts entries. -/
theorem within_puts_succeeds {ε : Type} {wrap : EngineError → ε} {io : Io} {store : Store} {entries : List (Bytes × Bytes)}
    (faultless : io.Faultless) (storable : ∀ entry ∈ entries, Storable entry) (few : entries.length < 2 ^ 32)
    {transactions records : Nat} (roomy : Roomy store (transactions + 1) (records + (2 * entries.length + 1))) :
    ∃ t, within wrap io (rethrow wrap (put_entries io entries)) store = .ok () t ∧ Roomy t transactions records := by
  have size : (asPuts entries).length = entries.length := by simp [asPuts]
  rw [← size] at few roomy
  refine within_succeeds faultless ?_ few roomy ?_
  · intro operation member
    obtain ⟨entry,inside,rfl⟩ := List.mem_map.mp member
    exact storable entry inside
  · intro tx _ room
    rw [size] at room
    obtain ⟨u,done,advanced⟩ := put_entries_succeeds faultless storable room
    exact ⟨u,rethrow_ok.mpr done,advanced⟩

theorem put_alone_succeeds {io : Io} {key value : Bytes} {store : Store} {transactions records : Nat} (faultless : io.Faultless)
    (storable : Storable (key,value)) (roomy : Roomy store (transactions + 1) (records + 3)) :
    ∃ t, put_alone io key value store = .ok () t ∧ Roomy t transactions records := by
  refine @within_succeeds _ _ _ _ _ _ store [.Put key value] _ faultless ?_ (show 1 < 2 ^ 32 by decide) _ _ roomy
    (fun _ _ room => put_succeeds faultless storable room)
  intro operation member
  rw [List.mem_singleton.mp member]
  exact storable

/-- What a put leaves fits a record. -/
theorem put_internal_short {io : Io} {key value : Bytes} {tx u : Transaction} {x : Unit} (done : put_internal io key value tx = .ok x u) :
    4 + (key.length + value.length) < 2 ^ 32 := by
  obtain ⟨r,staged,stores⟩ := stage_ok (put_spells key value) done
  have fits := staged.grown.fits r (by simp)
  unfold LogRecord.Fits at fits
  rw [put_record_length stores] at fits
  exact fits

end

end VoodooStore
