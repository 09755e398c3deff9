import VoodooStore.Crash

/-!
# Calls that succeed

Without faults and quotas, a call on a transaction succeeds as long as its
fields fit and the counters have room. `put_transaction_succeeds` follows one
transaction from its beginning to its commit.
-/
namespace VoodooStore
open Effects Frames
set_option linter.unusedSimpArgs false

/-- No quota limits the store. -/
def StoreOptions.Unlimited (options : StoreOptions) : Prop :=
  options.max_bytes = none ∧ options.namespace_max_bytes = none

theorem u64_checked_add_one {a : UInt64} (room : a.toNat + 1 < 2 ^ 64) :
    ∃ b, a.checked_add 1 = some b ∧ b.toNat = a.toNat + 1 := by
  have added : a.checked_add 1 = some (a + 1) := if_pos room
  exact ⟨a + 1,added,u64_checked_add_some added⟩

theorem u32_checked_add_one (a : UInt32) (room : a.toNat + 1 < 2 ^ 32) :
    ∃ b, a.checked_add 1 = some b ∧ b.toNat = a.toNat + 1 := by
  have added : a.checked_add 1 = some (a + 1) := if_pos room
  exact ⟨a + 1,added,u32_checked_add_some added⟩

/-- A change that its record can hold. -/
def ChangeRecord.Storable (change : ChangeRecord) : Prop :=
  ∃ encoded, encode_change change = .ok encoded ∧ encoded.length + 32 < 2 ^ 32

theorem change_key_length (tx_id : UInt64) (sequence : UInt32) : (change_key tx_id sequence).length = 28 := by
  simp [change_key, change_tx_prefix,CDC_PREFIX]

/-- A key of a user is not in the key space of the feed. -/
theorem user_key_outside {key : Bytes} (user : ensure_user_key key = .ok ()) : starts_with key CDC_PREFIX = false := by
  rw [ensure_user_key,refuse_ok_iff] at user
  by_contra inside
  rw [Bool.not_eq_false,starts_with,List.isPrefixOf_iff_prefix] at inside
  refine user.1 ?_
  rw [starts_with,List.isPrefixOf_iff_prefix]
  exact List.IsPrefix.trans ⟨[99,100,99,58,99,104,97,110,103,101,58],rfl⟩ inside

theorem single_staged {rs : List LogRecord} {operation : Operation} (stages : ∀ r ∈ rs, r.operation ≠ none)
    (stored : rs.filterMap LogRecord.operation = [operation]) : ∃ r, rs = [r] ∧ r.operation = some operation := by
  match rs with
  | [] => cases stored
  | [r] =>
    refine ⟨r,rfl,?_⟩
    obtain ⟨own,found⟩ := Option.ne_none_iff_exists'.mp (stages r (by simp))
    simpa [found] using stored
  | first :: second :: rest =>
    obtain ⟨a,foundA⟩ := Option.ne_none_iff_exists'.mp (stages first (by simp))
    obtain ⟨b,foundB⟩ := Option.ne_none_iff_exists'.mp (stages second (by simp))
    simp [foundA,foundB] at stored

theorem put_record_length {r : LogRecord} {key value : Bytes} (stores : r.operation = some (.Put key value)) :
    r.payload.length = 4 + (key.length + value.length) := by
  cases kind : r.kind with
  | Put =>
    cases decoded : decode_put r.payload with
    | error error => simp [LogRecord.operation,kind,decoded,Except.toOption] at stores
    | ok operation =>
      simp only [LogRecord.operation,kind,decoded,Except.toOption,Option.some.injEq] at stores
      rw [stores] at decoded
      have encoded := encode_put_decode decoded
      by_cases fits : key.length < 2 ^ 32
      · rw [encode_put_fits value fits] at encoded
        rw [← Except.ok.inj encoded]
        simp
      · have refused : UInt32.try_from key.length = none := if_neg fits
        rw [encode_put,refused] at encoded
        cases encoded
  | Delete =>
    cases decoded : decode_delete r.payload with
    | error error => simp [LogRecord.operation,kind,decoded,Except.toOption] at stores
    | ok operation =>
      obtain ⟨other,rfl⟩ := decode_delete_is_delete decoded
      simp [LogRecord.operation,kind,decoded,Except.toOption] at stores
  | Commit => simp [LogRecord.operation,kind] at stores

section
variable [Hashes]

theorem append_succeeds {io : Io} {s : Store} (kind : RecordKind) (tx_id : UInt64) (payload : Bytes)
    (faultless : io.Faultless) (unlimited : s.options.Unlimited) (fits : payload.length < 2 ^ 32)
    (room : s.next_sequence.toNat + 1 < 2 ^ 64) : ∃ t, append io kind tx_id payload s = .ok () t ∧
      Grown s t [⟨kind,tx_id,s.next_sequence,payload⟩] [] ∧ t.next_sequence.toNat = s.next_sequence.toNat + 1 := by
  obtain ⟨next,added,counted⟩ := u64_checked_add_one room
  have quiet := faultless.1
  have spelled : (LogRecord.mk kind tx_id s.next_sequence payload).encode =
      .ok (LogRecord.mk kind tx_id s.next_sequence payload).frame := encode_fits fits
  have quota : ({ s with next_sequence := next } : Store).check_storage_quota io s.next_sequence
      (LogRecord.mk kind tx_id s.next_sequence payload).frame = .ok () := by
    simp only [Store.check_storage_quota,unlimited.1]
  have sought : attempt io (.append_seek s.next_sequence) EngineError.Io { s with next_sequence := next } =
      .ok () { s with next_sequence := next } := attempt_ok.mpr ⟨quiet _,rfl⟩
  have done : ∃ t, append io kind tx_id payload s = .ok () t ∧ t.next_sequence = next := by
    rw [append,get_bind,added]
    dsimp only
    rw [modify_bind,spelled,mapError_ok,bind_of_ok (lift_ok _ _),get_bind,quota,bind_of_ok (lift_ok _ _),
      bind_of_ok sought,quiet]
    exact ⟨_,rfl,rfl⟩
  obtain ⟨t,appended,number⟩ := done
  exact ⟨t,appended,append_ok appended,by rw [number,counted]⟩

theorem stage_succeeds {io : Io} {tx : Transaction} {kind : RecordKind} {payload : Bytes} {operation : Operation}
    (faultless : io.Faultless) (unlimited : tx.store.options.Unlimited) (unfinished : tx.finished = false)
    (spells : Spells kind (.ok payload) operation) (fits : payload.length < 2 ^ 32)
    (room : tx.store.next_sequence.toNat + 1 < 2 ^ 64) :
    ∃ u, stage io kind (.ok payload) operation tx = .ok () u ∧
      Staged tx u [⟨kind,tx.tx_id,tx.store.next_sequence,payload⟩] [] ∧
      u.store.next_sequence.toNat = tx.store.next_sequence.toNat + 1 := by
  obtain ⟨t,appended,grown,counted⟩ := append_succeeds kind tx.tx_id payload faultless unlimited fits room
  have unlocked : ensure_open tx = .ok () := by simp [ensure_open,unfinished]
  have appends : on_store (append io kind tx.tx_id payload) tx = .ok () { tx with store := t } :=
    zoom_ok.mpr ⟨t,appended,rfl⟩
  have spelled := spells payload tx.tx_id tx.store.next_sequence rfl
  refine ⟨{ tx with store := t, operations := tx.operations ++ [operation] },?_,⟨grown,?_,?_,?_,rfl,rfl,rfl⟩,counted⟩
  · rw [stage,get_bind,unlocked,bind_of_ok (lift_ok _ _),bind_of_ok (lift_ok _ _),get_bind,bind_of_ok appends]
    rfl
  · simp [spelled]
  · simp
  · simp [spelled]

theorem stage_changes_succeeds {io : Io} {tx : Transaction} (sequence : UInt32) (operations : List Operation)
    (faultless : io.Faultless) (unlimited : tx.store.options.Unlimited) (unfinished : tx.finished = false)
    (storable : ∀ change ∈ changesFrom tx.tx_id sequence.toNat operations, change.Storable)
    (countable : sequence.toNat + (changesFrom tx.tx_id sequence.toNat operations).length < 2 ^ 32)
    (room : tx.store.next_sequence.toNat + (changesFrom tx.tx_id sequence.toNat operations).length < 2 ^ 64) :
    ∃ u, stage_changes_from io sequence operations tx = .ok () u ∧ u.store.next_sequence.toNat =
      tx.store.next_sequence.toNat + (changesFrom tx.tx_id sequence.toNat operations).length := by
  induction operations generalizing sequence tx with
  | nil => exact ⟨tx,rfl,rfl⟩
  | cons operation operations ih =>
    have here : UInt32.ofNat sequence.toNat = sequence := UInt32.ofNat_toNat
    rw [changesFrom,here] at storable countable room ⊢
    rw [stage_changes_from,get_bind]
    cases found : change_for tx.tx_id sequence operation with
    | none =>
      rw [found] at storable countable room
      exact ih sequence unlimited unfinished storable countable room
    | some change =>
      rw [found] at storable countable room
      dsimp only at storable countable room ⊢
      rw [List.length_cons] at countable room ⊢
      obtain ⟨encoded,spelled,small⟩ := storable change (by simp)
      have keySize := change_key_length tx.tx_id sequence
      have payload := encode_put_fits encoded (show (change_key tx.tx_id sequence).length < 2 ^ 32 by omega)
      have spells := put_spells (change_key tx.tx_id sequence) encoded
      rw [payload] at spells
      obtain ⟨u,staged,does,counted⟩ := stage_succeeds faultless unlimited unfinished spells
        (by simp [keySize]; omega) (by omega)
      obtain ⟨next,added,numbered⟩ := u32_checked_add_one sequence (by omega)
      have puts : put_internal io (change_key tx.tx_id sequence) encoded tx = .ok () u := by
        rw [put_internal,payload]
        exact staged
      rw [spelled,mapError_ok,bind_of_ok (lift_ok _ _),bind_of_ok puts,added]
      dsimp only
      have later := @ih u next (by rw [does.grown.options]; exact unlimited)
        (by rw [does.finished]; exact unfinished)
      rw [does.tx_id,numbered,counted] at later
      obtain ⟨w,done,count⟩ := later (fun other member => storable other (by simp [member])) (by omega) (by omega)
      exact ⟨w,done,by omega⟩

/-- A commit that succeeds, and the records it writes. -/
theorem commit_succeeds {io : Io} {tx : Transaction} (faultless : io.Faultless)
    (unlimited : tx.store.options.Unlimited) (unfinished : tx.finished = false)
    (storable : ∀ change ∈ changesFrom tx.tx_id 0 tx.operations, change.Storable)
    (countable : (changesFrom tx.tx_id 0 tx.operations).length < 2 ^ 32)
    (room : tx.store.next_sequence.toNat + (changesFrom tx.tx_id 0 tx.operations).length + 1 < 2 ^ 64) :
    ∃ u rs sequence, commit io tx = .ok () u ∧ Written tx u rs ⟨.Commit,tx.tx_id,sequence,[]⟩ := by
  have unlocked : ensure_open tx = .ok () := by simp [ensure_open,unfinished]
  have staged : ∃ middle, stage_own_changes io tx = .ok () middle ∧
      middle.store.next_sequence.toNat + 1 < 2 ^ 64 := by
    rw [stage_own_changes,get_bind]
    by_cases emits : tx.emit_cdc = true
    · rw [if_pos emits]
      have zero : (0 : UInt32).toNat = 0 := rfl
      have done := stage_changes_succeeds 0 tx.operations faultless unlimited unfinished
      rw [zero] at done
      obtain ⟨middle,done,counted⟩ := done storable (by omega) (by omega)
      exact ⟨middle,done,by omega⟩
    · rw [if_neg emits]
      exact ⟨tx,rfl,by omega⟩
  obtain ⟨middle,stages,fits⟩ := staged
  obtain ⟨rs,does,changes,feed⟩ := stage_own_changes_ok stages
  have quota : middle.store.check_namespace_quota io middle.operations = .ok () := by
    simp only [Store.check_namespace_quota,does.grown.options,unlimited.2]
  obtain ⟨t,appended,grown,-⟩ := append_succeeds .Commit middle.tx_id [] faultless
    (by rw [does.grown.options]; exact unlimited) (by simp) fits
  have appends : on_store (append io .Commit middle.tx_id []) middle = .ok () { middle with store := t } :=
    zoom_ok.mpr ⟨t,appended,rfl⟩
  have synced : sync_file io (.commit_sync middle.tx_id) middle.store.options.durability
      { middle with store := t } = .ok () { middle with store := t } := sync_ok.mpr ⟨.inr (faultless.1 _),rfl⟩
  have written := written_of does changes feed grown
  have done := written.forget (apply_operations t.state middle.operations) t.metrics true
  refine ⟨_,rs,middle.store.next_sequence,?_,by rw [← does.tx_id]; exact done⟩
  rw [commit,commit_inner,get_bind,unlocked,bind_of_ok (lift_ok _ _),bind_of_ok stages,get_bind,quota,
    bind_of_ok (lift_ok _ _),bind_of_ok appends,bind_of_ok synced]
  rfl

/-! ## A transaction that puts one key -/

/-- The change that a put makes, as the first one of its transaction. -/
def putChange (tx_id : UInt64) (key value : Bytes) : ChangeRecord :=
  ⟨tx_id,0,.Put,key,some (.ofNat value.length),some (Hashes.sha256 value)⟩

theorem put_changes {key : Bytes} (tx_id : UInt64) (value : Bytes) (user : ensure_user_key key = .ok ()) :
    changesFrom tx_id 0 [.Put key value] = [putChange tx_id key value] := by
  have outside := user_key_outside user
  simp [changesFrom,change_for,outside,putChange]

theorem put_change_spelling {key : Bytes} (tx_id : UInt64) (value : Bytes) (fits : key.length < 2 ^ 32) :
    encode_change (putChange tx_id key value) = .ok (putChange tx_id key value).spelling ∧
      (putChange tx_id key value).spelling.length = 59 + key.length := by
  have spelled := @encode_change_put (putChange tx_id key value) _ _ fits rfl rfl
  have front : (putChange tx_id key value).front.length = 18 + key.length := front_length (putChange tx_id key value)
  have hash := (Hashes.sha256 value).property
  rw [spelling_eq spelled]
  refine ⟨spelled,?_⟩
  simp only [List.length_append,List.length_cons,front,hash,u64_to_le_length]
  omega

/-- The calls of a transaction that puts one key. -/
def putCalls (io : Io) (key value : Bytes) : List (Io × Event) := [(io,.Begin),(io,.Put key value),(io,.Commit)]

/-- What it applies: the put and the record of its change. -/
def putOperations (tx_id : UInt64) (key value : Bytes) : List Operation :=
  [.Put key value,(putChange tx_id key value).store]

/-- The transaction writes the record of the put, that of its change, and the commit record. -/
theorem put_transaction_succeeds {io : Io} {store : Store} {key value : Bytes} (history : List Entry)
    (faultless : io.Faultless) (unlimited : store.options.Unlimited) (user : ensure_user_key key = .ok ())
    (fits : key.length + value.length + 100 < 2 ^ 32) (txRoom : store.next_tx_id.toNat + 1 < 2 ^ 64)
    (room : store.next_sequence.toNat + 3 < 2 ^ 64) :
    ∃ t behind, Run.steps ⟨.Idle store,history⟩ (putCalls io key value) = {
        session := .Idle t
        history := history ++ [⟨⟨store.next_tx_id,putOperations store.next_tx_id key value,t.file.length⟩,true,
          [.Put key value]⟩] } ∧
      t.state = apply_operations store.state (putOperations store.next_tx_id key value) ∧
      t.file = store.file ++ ((LogRecord.mk .Put store.next_tx_id store.next_sequence
        ((UInt32.ofNat key.length).to_le_bytes ++ (key ++ value))).frame ++ behind) ∧
      behind.length = 149 + key.length := by
  obtain ⟨next,added,-⟩ := u64_checked_add_one txRoom
  have begun : begin_with_cdc store true = .ok ⟨{ store with next_tx_id := next },store.next_tx_id,[],true,false⟩ := by
    rw [begin_with_cdc,added]
  generalize opened : Transaction.mk { store with next_tx_id := next } store.next_tx_id [] true false = tx at begun
  have payload := encode_put_fits value (show key.length < 2 ^ 32 by omega)
  have spells := put_spells key value
  rw [payload] at spells
  obtain ⟨u,staged,does,counted⟩ := @stage_succeeds _ io tx .Put _ _ faultless (by rw [← opened]; exact unlimited)
    (by rw [← opened]) spells (by simp; omega) (by rw [← opened]; dsimp only; omega)
  have puts : put io key value tx = .ok () u := by
    rw [put,user,bind_of_ok (lift_ok _ _),put_internal,payload]
    exact staged
  have operations : u.operations = [.Put key value] := by
    rw [does.operations,← opened]
    simp [LogRecord.operation,decode_put_encode payload,Except.toOption]
  have id : u.tx_id = store.next_tx_id := by rw [does.tx_id,← opened]
  have changes := put_changes store.next_tx_id value user
  obtain ⟨spelled,size⟩ := put_change_spelling store.next_tx_id value (show key.length < 2 ^ 32 by omega)
  have storable : ∀ change ∈ changesFrom u.tx_id 0 u.operations, change.Storable := by
    rw [id,operations,changes]
    intro change member
    rw [List.mem_singleton.mp member]
    exact ⟨_,spelled,by omega⟩
  have sequence : u.store.next_sequence.toNat = store.next_sequence.toNat + 1 := by rw [counted,← opened]
  have one : (changesFrom u.tx_id 0 u.operations).length = 1 := by rw [id,operations,changes]; rfl
  obtain ⟨w,rs,last,committed,written⟩ := @commit_succeeds _ io u faultless
    (by rw [does.grown.options,← opened]; exact unlimited) (by rw [does.finished,← opened]) storable
    (by rw [one]; decide) (by rw [one]; omega)
  have own : ownChanges u = [(putChange store.next_tx_id key value).store] := by
    rw [ownChanges,does.emit_cdc,← opened,if_pos rfl,id,operations,changes]
    rfl
  have stored := written.changes
  rw [own] at stored
  obtain ⟨r,rfl,stores⟩ := single_staged written.stages stored
  obtain ⟨-,-,-,applied⟩ := commit_ok committed
  have effect : w.operations = putOperations store.next_tx_id key value := by
    rw [written.operations,operations,own]
    rfl
  refine ⟨w.store,frames [r,⟨.Commit,u.tx_id,last,[]⟩],?_,?_,?_,?_⟩
  · have steps : Run.steps ⟨.Idle store,history⟩ (putCalls io key value) =
        ((Run.step ⟨.Busy tx,history⟩ io (.Put key value)).step io .Commit) := by
      simp only [Run.steps,putCalls,List.foldl_cons,List.foldl_nil,Run.step,Store.step,begin_tx,begun]
    rw [steps]
    simp only [Run.step,Event.staging,after,puts,committed,effect,operations,id,does.emit_cdc]
    rw [← opened]
  · rw [applied,effect,does.grown.state,← opened]
  · rw [written.file,does.grown.file,← opened]
    simp [frames,logFraming]
  · have length := put_record_length stores
    rw [change_key_length,size] at length
    simp [frames,logFraming,length]
    omega

end

end VoodooStore
