import VoodooStore.Feed

/-!
# Pruning

Pruning is a transaction that deletes the oldest stored changes and tells the
feed nothing. It is a run of calls like any other (`Reaches`); if it succeeds
the changes are gone, if it fails they are all there (`prune_ok`, `prune_error`).
-/
namespace VoodooStore
open Effects Frames
set_option linter.unusedSimpArgs false

/-- The oldest changes, at most `limit` of them, through the given transaction. -/
def firstThrough (tx_id : UInt64) (limit : Nat) (feed : List ChangeRecord) : List ChangeRecord :=
  (feed.filter (fun c => c.tx_id ≤ tx_id)).take limit

theorem firstThrough_subset (tx_id : UInt64) (limit : Nat) (feed : List ChangeRecord) :
    ∀ c ∈ firstThrough tx_id limit feed, c ∈ feed := by
  intro c member
  exact (List.mem_filter.mp (List.mem_of_mem_take member)).1

section
variable [Hashes]

/-! ## What calls do to a file and to the numbers -/

/-- A step does not look at the history; it adds to it. -/
theorem step_shift (session : Session) (history : List Entry) (io : Io) (event : Event) :
    Run.step ⟨session,history⟩ io event = {
      session := (Run.step ⟨session,[]⟩ io event).session
      history := history ++ (Run.step ⟨session,[]⟩ io event).history } := by
  unfold Run.step
  cases session with
  | Idle store => simp
  | Busy tx =>
    dsimp only
    cases event.staging io with
    | some call => simp
    | none =>
      cases event with
      | Commit =>
        dsimp only
        cases commit io tx with
        | ok x u => simp
        | error e u => simp
      | _ => simp

/-- The file only grows. -/
theorem stepped_file {io : Io} {run next : Run} (stepped : Stepped io run next) :
    run.session.store.file <+: next.session.store.file := by
  cases stepped with
  | stays => exact List.prefix_refl _
  | begins idle begun =>
    obtain ⟨-,-,-,-,-,store⟩ := begin_ok begun
    rw [idle]
    dsimp only [Session.store]
    rw [store]
  | stages busy staged torn =>
    rw [busy]
    dsimp only [Session.store]
    rw [staged.grown.file]
    exact List.prefix_append _ _
  | ends busy staged torn =>
    rw [busy]
    dsimp only [Session.store]
    rw [staged.grown.file]
    exact List.prefix_append _ _
  | commits busy written applied =>
    rw [busy]
    dsimp only [Session.store]
    rw [written.file]
    exact List.prefix_append _ _
  | unconfirmed busy written kept unsynced strict =>
    rw [busy]
    dsimp only [Session.store]
    rw [written.file]
    exact List.prefix_append _ _

theorem steps_file (run : Run) (calls : List (Io × Event)) :
    run.session.store.file <+: (run.steps calls).session.store.file := by
  induction calls using List.reverseRecOn with
  | nil => exact List.prefix_refl _
  | append_singleton calls call ih =>
    rw [steps_snoc]
    exact ih.trans (stepped_file (step_cases _ _ _))

/-- The numbers of transactions only rise. -/
theorem stepped_next {io : Io} {run next : Run} (stepped : Stepped io run next) :
    run.session.store.next_tx_id ≤ next.session.store.next_tx_id := by
  cases stepped with
  | stays => exact UInt64.le_refl _
  | begins idle begun =>
    obtain ⟨-,counted,-,-,-,-⟩ := begin_ok begun
    rw [idle]
    exact UInt64.le_iff_toNat_le.mpr (by dsimp only [Session.store]; omega)
  | stages busy staged torn =>
    rw [busy]
    exact UInt64.le_of_eq staged.grown.next_tx_id.symm
  | ends busy staged torn =>
    rw [busy]
    exact UInt64.le_of_eq staged.grown.next_tx_id.symm
  | commits busy written applied =>
    rw [busy]
    exact UInt64.le_of_eq written.next_tx_id.symm
  | unconfirmed busy written kept unsynced strict =>
    rw [busy]
    exact UInt64.le_of_eq written.next_tx_id.symm

theorem steps_next (run : Run) (calls : List (Io × Event)) :
    run.session.store.next_tx_id ≤ (run.steps calls).session.store.next_tx_id := by
  induction calls using List.reverseRecOn with
  | nil => exact UInt64.le_refl _
  | append_singleton calls call ih =>
    rw [steps_snoc]
    exact UInt64.le_trans ih (stepped_next (step_cases _ _ _))

/-- A longer file has the records of the shorter one. -/
theorem records_front {file longer : Bytes} (front : file <+: longer) : records file <+: records longer := by
  obtain ⟨more,rfl⟩ := front
  refine logFraming.values_cut_front ?_
  rw [List.drop_append]
  exact List.prefix_append _ _

/-! ## What pruning does -/

/-- Deletes that succeed, as steps of a run. -/
theorem delete_keys_ok {io : Io} {keys : List Bytes} {tx u : Transaction} {x : Unit}
    (done : delete_keys io keys tx = .ok x u) : u.operations = tx.operations ++ keys.map .Delete ∧
      u.emit_cdc = tx.emit_cdc ∧ u.store.state = tx.store.state ∧
      Run.steps ⟨.Busy tx,[]⟩ (keys.map (fun key => (io,.DeleteInternal key))) = ⟨.Busy u,[]⟩ := by
  induction keys generalizing tx with
  | nil =>
    cases done
    exact ⟨by simp,rfl,rfl,rfl⟩
  | cons key keys ih =>
    rw [delete_keys] at done
    obtain ⟨_,middle,first,rest⟩ := bind_ok.mp done
    obtain ⟨r,staged,stores⟩ := stage_ok (delete_spells key) first
    obtain ⟨operations,emits,state,steps⟩ := ih rest
    have stepped : Run.step ⟨.Busy tx,[]⟩ io (.DeleteInternal key) = ⟨.Busy middle,[]⟩ := by
      simp only [Run.step,Event.staging,after,first]
    refine ⟨?_,emits.trans staged.emit_cdc,state.trans staged.grown.state,?_⟩
    · rw [operations,staged.operations,List.filterMap_cons,stores,List.map_cons,List.append_assoc]
      rfl
    · rw [List.map_cons,Run.steps,List.foldl_cons,stepped]
      exact steps

/-- Deletes that fail stop at one that does. -/
theorem delete_keys_error {io : Io} {keys : List Bytes} {tx u : Transaction} {e : EngineError}
    (failed : delete_keys io keys tx = .error e u) : u.store.state = tx.store.state ∧
      ∃ calls, (∀ call ∈ calls, call.1 = io) ∧ Run.steps ⟨.Busy tx,[]⟩ calls = ⟨.Busy u,[]⟩ := by
  induction keys generalizing tx with
  | nil => cases failed
  | cons key keys ih =>
    rw [delete_keys] at failed
    rcases bind_error.mp failed with early | ⟨_,middle,first,late⟩
    · obtain ⟨piece,staged,-⟩ := stage_error early
      refine ⟨staged.grown.state,[(io,.DeleteInternal key)],by simp,?_⟩
      have stops : delete_internal io key tx = .error e u := early
      simp only [Run.steps,List.foldl_cons,List.foldl_nil,Run.step,Event.staging,after,stops]
    · obtain ⟨r,staged,-⟩ := stage_ok (delete_spells key) first
      obtain ⟨state,calls,same,steps⟩ := ih late
      refine ⟨state.trans staged.grown.state,(io,.DeleteInternal key) :: calls,?_,?_⟩
      · intro call member
        rcases List.mem_cons.mp member with rfl | later
        · rfl
        · exact same call later
      · have stepped : Run.step ⟨.Busy tx,[]⟩ io (.DeleteInternal key) = ⟨.Busy middle,[]⟩ := by
          simp only [Run.step,Event.staging,after,first]
        rw [Run.steps,List.foldl_cons,stepped]
        exact steps

/-- No write is cut short, and every sync of a commit is confirmed. -/
def Io.Durable (io : Io) : Prop := io.WritesWhole ∧ ∀ tx_id, io.fails (.commit_sync tx_id) = none

/-- A store that calls under the given oracle lead to. -/
def Reaches (io : Io) (store t : Store) : Prop :=
  ∃ calls, (∀ call ∈ calls, call.1 = io) ∧ (Run.steps ⟨.Idle store,[]⟩ calls).session = .Idle t

theorem Reaches.refl (io : Io) (store : Store) : Reaches io store store := ⟨[],by simp,rfl⟩

theorem Reaches.next {io : Io} {store t : Store} (reaches : Reaches io store t) : store.next_tx_id ≤ t.next_tx_id := by
  obtain ⟨calls,-,ends⟩ := reaches
  have grows := steps_next ⟨.Idle store,[]⟩ calls
  rw [ends] at grows
  exact grows

/-- Calls whose writes are whole and confirmed keep a store sound. -/
theorem Reaches.sound {io : Io} {store t : Store} (reaches : Reaches io store t) (durable : io.Durable) (sound : store.Sound)
    (whole : fragment store.file = []) : t.Sound ∧ fragment t.file = [] ∧ store.file <+: t.file := by
  obtain ⟨calls,same,ends⟩ := reaches
  have started : Run.Sound (commitments (records store.file)) ⟨.Idle store,[]⟩ := ⟨sound,(List.append_nil _).symm⟩
  obtain ⟨ended,left⟩ := steps_whole started whole
    (fun call member => by rw [same call member]; exact durable.1)
    (fun call member => by rw [same call member]; exact durable.2)
  have grows := steps_file ⟨.Idle store,[]⟩ calls
  have stored := ended.session
  rw [ends] at left grows stored
  exact ⟨stored,left,grows⟩

/-- A transaction without changes: its beginning, some calls, and its end. -/
theorem Reaches.transaction {io : Io} {store t : Store} {tx u : Transaction} {calls : List (Io × Event)}
    (last : Event) (begun : begin_without_cdc store = .ok tx) (same : ∀ call ∈ calls, call.1 = io)
    (steps : Run.steps ⟨.Busy tx,[]⟩ calls = ⟨.Busy u,[]⟩) (ends : (Run.step ⟨.Busy u,[]⟩ io last).session = .Idle t) :
    Reaches io store t := by
  have first : Run.step ⟨.Idle store,[]⟩ io .BeginWithoutCdc = ⟨.Busy tx,[]⟩ := by
    simp only [Run.step,Store.step,begun]
  refine ⟨(io,.BeginWithoutCdc) :: (calls ++ [(io,last)]),?_,?_⟩
  · intro call member
    simp only [List.mem_cons,List.mem_append,List.not_mem_nil,or_false] at member
    rcases member with rfl | inCalls | rfl
    · rfl
    · exact same call inCalls
    · rfl
  · rw [Run.steps,List.foldl_cons,first]
    show (Run.steps ⟨.Busy tx,[]⟩ _).session = _
    rw [steps_snoc,steps]
    exact ends

/-- The transaction that deletes the keys, if it succeeds. -/
theorem delete_transaction_ok {io : Io} {keys : List Bytes} {store t : Store} {x : Unit}
    (done : in_transaction begin_without_cdc (do delete_keys io keys; commit io) store = .ok x t) :
    t.state = apply_operations store.state (keys.map .Delete) ∧ Reaches io store t := by
  unfold in_transaction at done
  cases begun : begin_without_cdc store with
  | error e => rw [begun] at done; cases done
  | ok tx =>
    rw [begun] at done
    dsimp only at done
    cases result : (do delete_keys io keys; commit io : EStateM EngineError Transaction Unit) tx with
    | error e u => rw [result] at done; cases done
    | ok y u =>
      rw [result] at done
      cases done
      obtain ⟨_,middle,deleted,committed⟩ := bind_ok.mp result
      obtain ⟨operations,emits,state,steps⟩ := delete_keys_ok deleted
      obtain ⟨-,-,empty,silent,-,borrowed⟩ := begin_ok begun
      obtain ⟨rs,r,written,applied⟩ := commit_ok committed
      have own : ownChanges middle = [] := by
        rw [ownChanges,emits,silent]
        rfl
      refine ⟨?_,?_⟩
      · rw [applied,written.operations,own,List.append_nil,operations,empty,List.nil_append,state,borrowed]
      · exact .transaction .Commit begun (by simp) steps (by simp only [Run.step,Event.staging,committed])

/-- If it fails, the map is as it was. -/
theorem delete_transaction_error {io : Io} {keys : List Bytes} {store t : Store} {e : EngineError}
    (failed : in_transaction begin_without_cdc (do delete_keys io keys; commit io) store = .error e t) :
    t.state = store.state ∧ Reaches io store t := by
  unfold in_transaction at failed
  cases begun : begin_without_cdc store with
  | error e =>
    rw [begun] at failed
    cases failed
    exact ⟨rfl,.refl io store⟩
  | ok tx =>
    rw [begun] at failed
    dsimp only at failed
    obtain ⟨-,-,-,-,-,borrowed⟩ := begin_ok begun
    cases result : (do delete_keys io keys; commit io : EStateM EngineError Transaction Unit) tx with
    | ok y u => rw [result] at failed; cases failed
    | error e u =>
      rw [result] at failed
      cases failed
      rcases bind_error.mp result with early | ⟨_,middle,deleted,late⟩
      · obtain ⟨state,calls,same,steps⟩ := delete_keys_error early
        exact ⟨by rw [state,borrowed],.transaction .Drop begun same steps rfl⟩
      · obtain ⟨-,-,state,steps⟩ := delete_keys_ok deleted
        have kept : u.store.state = middle.store.state := by
          rcases commit_error late with ⟨rs,piece,staged,-⟩ | ⟨rs,r,-,same,-,-⟩
          · exact staged.grown.state
          · exact same
        exact ⟨by rw [kept,state,borrowed],
          .transaction .Commit begun (by simp) steps (by simp only [Run.step,Event.staging,late])⟩

/-- Pruning that succeeds removes the oldest changes that it may, and tells how many. -/
theorem prune_ok {io : Io} {tx_id : UInt64} {limit n : Nat} {store t : Store} {feed : List ChangeRecord}
    (fed : Fed store.state feed) (done : prune_changes_through io tx_id limit store = .ok n t) :
    n = (firstThrough tx_id limit feed).length ∧
      Fed t.state (feed.filter (fun c => c ∉ firstThrough tx_id limit feed)) ∧ Reaches io store t := by
  have unchanged : firstThrough tx_id limit feed = [] →
      Fed store.state (feed.filter (fun c => c ∉ firstThrough tx_id limit feed)) := by
    intro none
    rw [none,List.filter_eq_self.mpr (by simp)]
    exact fed
  unfold prune_changes_through at done
  by_cases zero : limit = 0
  · rw [if_pos zero] at done
    cases done
    have none : firstThrough tx_id limit feed = [] := by rw [firstThrough,zero,List.take_zero]
    exact ⟨by rw [none]; rfl,unchanged none,.refl io store⟩
  · rw [if_neg zero,get_bind,scan_feed fed,
      prune_keys_eq (fun c member => fed.decodes member) fed.ordered tx_id (by rw [List.length_nil]; omega),
      bind_of_ok (lift_ok _ _),List.nil_append,← List.map_take] at done
    change (if (firstThrough tx_id limit feed).map (fun c => c.entry.1) = [] then _ else _ : EStateM _ _ _) _ = _ at done
    by_cases none : firstThrough tx_id limit feed = []
    · rw [if_pos (by rw [none]; rfl)] at done
      cases done
      exact ⟨by rw [none]; rfl,unchanged none,.refl io store⟩
    · rw [if_neg (by simpa using none)] at done
      obtain ⟨_,middle,deleted,rest⟩ := bind_ok.mp done
      cases rest
      have deletes : in_transaction begin_without_cdc
          (do delete_keys io ((firstThrough tx_id limit feed).map (fun c => c.entry.1)); commit io) store = .ok () t := by
        unfold store_error at deleted
        split at deleted
        · rename_i result
          cases deleted
          exact result
        · cases deleted
      obtain ⟨state,reaches⟩ := delete_transaction_ok deletes
      refine ⟨by rw [List.length_map]; rfl,?_,reaches⟩
      have left := fed.deletes ((firstThrough tx_id limit feed).map (fun c => c.entry.1))
      have sameFeed : feed.filter (fun c => c.entry.1 ∉ (firstThrough tx_id limit feed).map (fun c => c.entry.1)) =
          feed.filter (fun c => c ∉ firstThrough tx_id limit feed) := by
        refine List.filter_congr ?_
        intro c inFeed
        rw [decide_eq_decide,not_iff_not]
        constructor
        · intro member
          obtain ⟨d,removed,same⟩ := List.mem_map.mp member
          have equal := fed.key_injective (firstThrough_subset tx_id limit feed d removed) inFeed same
          rw [← equal]
          exact removed
        · intro member
          exact List.mem_map.mpr ⟨c,member,rfl⟩
      rw [← sameFeed,state]
      exact left

/-- Pruning that fails removes nothing. -/
theorem prune_error {io : Io} {tx_id : UInt64} {limit : Nat} {store t : Store} {feed : List ChangeRecord}
    {e : ChangeFeedError} (fed : Fed store.state feed)
    (failed : prune_changes_through io tx_id limit store = .error e t) : Fed t.state feed ∧ Reaches io store t := by
  unfold prune_changes_through at failed
  by_cases zero : limit = 0
  · rw [if_pos zero] at failed
    cases failed
  · rw [if_neg zero,get_bind,scan_feed fed,
      prune_keys_eq (fun c member => fed.decodes member) fed.ordered tx_id (by rw [List.length_nil]; omega),
      bind_of_ok (lift_ok _ _)] at failed
    split at failed
    · cases failed
    · rcases bind_error.mp failed with early | ⟨_,middle,-,late⟩
      · unfold store_error at early
        split at early
        · cases early
        · rename_i result
          cases early
          obtain ⟨state,reaches⟩ := delete_transaction_error result
          rw [state]
          exact ⟨fed,reaches⟩
      · cases late

/-! ## Pruning that succeeds -/

theorem delete_keys_succeeds {io : Io} {keys : List Bytes} {tx : Transaction} (faultless : io.Faultless)
    (unlimited : tx.store.options.Unlimited) (unfinished : tx.finished = false) (small : ∀ key ∈ keys, key.length < 2 ^ 31)
    (room : tx.store.next_sequence.toNat + keys.length < 2 ^ 64) :
    ∃ u, delete_keys io keys tx = .ok () u ∧ u.store.options = tx.store.options ∧ u.finished = false ∧
      u.store.next_sequence.toNat = tx.store.next_sequence.toNat + keys.length := by
  induction keys generalizing tx with
  | nil => exact ⟨tx,rfl,rfl,unfinished,rfl⟩
  | cons key keys ih =>
    rw [List.length_cons] at room ⊢
    have short := small key (by simp)
    have payload := encode_delete_fits (show key.length < 2 ^ 32 by omega)
    have spells := delete_spells key
    rw [payload] at spells
    obtain ⟨middle,staged,does,counted⟩ := stage_succeeds faultless unlimited unfinished spells (by simp; omega) (by omega)
    obtain ⟨u,deleted,options,open_tx,count⟩ := ih (by rw [does.grown.options]; exact unlimited)
      (does.finished.trans unfinished) (fun other member => small other (by simp [member])) (by omega)
    refine ⟨u,?_,options.trans does.grown.options,open_tx,by omega⟩
    have first : delete_internal io key tx = .ok () middle := by
      rw [delete_internal,payload]
      exact staged
    rw [delete_keys,bind_of_ok first]
    exact deleted

/-- Without faults and quotas, pruning succeeds while the counters have room. -/
theorem prune_succeeds {io : Io} {tx_id : UInt64} {limit : Nat} {store : Store} {feed : List ChangeRecord}
    (fed : Fed store.state feed) (faultless : io.Faultless) (unlimited : store.options.Unlimited)
    (txRoom : store.next_tx_id.toNat + 1 < 2 ^ 64)
    (room : store.next_sequence.toNat + (firstThrough tx_id limit feed).length + 1 < 2 ^ 64) :
    ∃ n t, prune_changes_through io tx_id limit store = .ok n t := by
  unfold prune_changes_through
  by_cases zero : limit = 0
  · rw [if_pos zero]
    exact ⟨0,store,rfl⟩
  · rw [if_neg zero,get_bind,scan_feed fed,
      prune_keys_eq (fun c member => fed.decodes member) fed.ordered tx_id (by rw [List.length_nil]; omega),
      bind_of_ok (lift_ok _ _),List.nil_append,← List.map_take]
    show ∃ n t, (if (firstThrough tx_id limit feed).map (fun c => c.entry.1) = [] then _ else _ : EStateM _ _ _) store =
      .ok n t
    by_cases none : (firstThrough tx_id limit feed).map (fun c => c.entry.1) = []
    · rw [if_pos none]
      exact ⟨0,store,rfl⟩
    · rw [if_neg none]
      obtain ⟨next,added,-⟩ := u64_checked_add_one txRoom
      have begun : begin_without_cdc store =
          .ok ⟨{ store with next_tx_id := next },store.next_tx_id,[],false,false⟩ := by
        rw [begin_without_cdc,begin_with_cdc,added]
      have small : ∀ key ∈ (firstThrough tx_id limit feed).map (fun c => c.entry.1), key.length < 2 ^ 31 := by
        intro key member
        obtain ⟨c,-,rfl⟩ := List.mem_map.mp member
        show (change_key c.tx_id c.sequence).length < 2 ^ 31
        rw [change_key_length]
        decide
      obtain ⟨u,deleted,options,open_tx,count⟩ := @delete_keys_succeeds _ io
        ((firstThrough tx_id limit feed).map (fun c => c.entry.1))
        ⟨{ store with next_tx_id := next },store.next_tx_id,[],false,false⟩ faultless unlimited rfl small
        (by rw [List.length_map]; show store.next_sequence.toNat + _ < _; omega)
      obtain ⟨operations,-,-,-⟩ := delete_keys_ok deleted
      have silent : changesFrom u.tx_id 0 u.operations = [] := by
        rw [changesFrom_eq,operations,List.filter_eq_nil_iff.mpr]
        · rfl
        · intro o member
          rw [List.nil_append,List.map_map] at member
          obtain ⟨c,-,rfl⟩ := List.mem_map.mp member
          have own : starts_with (Operation.Delete c.entry.1).key CDC_PREFIX = true := change_key_starts c.tx_id c.sequence
          simp only [Function.comp,own]
          decide
      rw [List.length_map] at count
      obtain ⟨w,rs,sequence,committed,-⟩ := @commit_succeeds _ io u faultless (by rw [options]; exact unlimited) open_tx
        (by simp [silent]) (by simp [silent]) (by
          rw [silent,count]
          show store.next_sequence.toNat + _ + 0 + 1 < _
          omega)
      have done : in_transaction begin_without_cdc
          (do delete_keys io ((firstThrough tx_id limit feed).map (fun c => c.entry.1)); commit io) store =
            .ok () w.store := by
        rw [in_transaction,begun]
        dsimp only
        rw [bind_of_ok deleted,committed]
      have wrapped : store_error (in_transaction begin_without_cdc
          (do delete_keys io ((firstThrough tx_id limit feed).map (fun c => c.entry.1)); commit io)) store =
            .ok () w.store := by
        rw [store_error,done]
      exact ⟨_,_,bind_of_ok wrapped⟩

end

end VoodooStore
