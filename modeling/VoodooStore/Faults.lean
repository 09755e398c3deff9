import VoodooStore.Crash

/-!
# Faults

What becomes of a store whose calls fail and that is used all the same. A write
that is cut short leaves a fragment at the end of the file, and the next append
goes behind it; a sync that fails comes after the commit record. As long as
neither happens, every commit that returned `Ok` is found by recovery
(`commits_survive`) and memory and file agree (`memory_agrees`).
-/
namespace VoodooStore
open Effects Frames
set_option linter.unusedSimpArgs false

/-- The quota does not look at the record counter. -/
theorem storage_quota_number (s : Store) (next : UInt64) :
    ({ s with next_sequence := next } : Store).check_storage_quota = s.check_storage_quota := rfl

section
variable [Hashes]

/-! ## Steps that write nothing -/

/-- No byte of the next record would reach the file: the store's quota or the
    operating system refuses it. -/
def Io.Refuses (io : Io) (s : Store) : Prop :=
  (∀ bytes, HEADER_LEN + 4 ≤ bytes.length → ∃ e, s.check_storage_quota io s.next_sequence bytes = .error e) ∨
  io.fails (.append_seek s.next_sequence) ≠ none ∨
  (io.fails (.append_write s.next_sequence) ≠ none ∧ io.written (.append_write s.next_sequence) = 0)

/-- An append either stops before it writes, or has passed every check. -/
theorem append_reaches (io : Io) (kind : RecordKind) (tx_id : UInt64) (payload : Bytes) (s : Store) :
    (∃ e t, append io kind tx_id payload s = .error e t ∧ t.file = s.file) ∨
    ∃ bytes, HEADER_LEN + 4 ≤ bytes.length ∧ s.check_storage_quota io s.next_sequence bytes = .ok () ∧
      io.fails (.append_seek s.next_sequence) = none ∧
      ∀ error, io.fails (.append_write s.next_sequence) = some error →
        ∃ e t, append io kind tx_id payload s = .error e t ∧
          t.file = s.file ++ io.torn (.append_write s.next_sequence) bytes := by
  rw [append,get_bind]
  cases added : s.next_sequence.checked_add 1 with
  | none => exact .inl ⟨_,s,rfl,rfl⟩
  | some next =>
    dsimp only
    rw [modify_bind]
    by_cases fits : (LogRecord.mk kind tx_id s.next_sequence payload).Fits
    · rw [encode_fits fits,mapError_ok,bind_of_ok (lift_ok _ _),get_bind,storage_quota_number]
      cases quota : s.check_storage_quota io s.next_sequence (LogRecord.mk kind tx_id s.next_sequence payload).frame with
      | error e =>
        refine .inl ⟨e,{ s with next_sequence := next },?_,rfl⟩
        exact bind_of_error (lift_error _ _)
      | ok x =>
        rw [bind_of_ok (lift_ok _ _)]
        cases sought : io.fails (.append_seek s.next_sequence) with
        | some error =>
          refine .inl ⟨.Io error,{ s with next_sequence := next },?_,rfl⟩
          exact bind_of_error (attempt_error.mpr ⟨⟨error,sought,rfl⟩,rfl⟩)
        | none =>
          refine .inr ⟨(LogRecord.mk kind tx_id s.next_sequence payload).frame,by simp [HEADER_LEN],quota,rfl,?_⟩
          intro error fails
          have seeks : attempt io (.append_seek s.next_sequence) EngineError.Io { s with next_sequence := next } =
            .ok () { s with next_sequence := next } := attempt_ok.mpr ⟨sought,rfl⟩
          rw [bind_of_ok seeks,fails]
          exact ⟨_,_,rfl,rfl⟩
    · rw [encode_too_large fits]
      exact .inl ⟨_,_,rfl,rfl⟩

theorem append_refused {io : Io} {s : Store} (refuses : io.Refuses s) (kind : RecordKind) (tx_id : UInt64)
    (payload : Bytes) : ∃ e t, append io kind tx_id payload s = .error e t ∧ t.file = s.file := by
  rcases append_reaches io kind tx_id payload s with stopped | ⟨bytes,long,quota,sought,tears⟩
  · exact stopped
  · rcases refuses with full | seek | ⟨write,nothing⟩
    · obtain ⟨e,refused⟩ := full bytes long
      rw [refused] at quota
      cases quota
    · exact absurd sought seek
    · obtain ⟨error,fails⟩ := Option.ne_none_iff_exists'.mp write
      obtain ⟨e,t,failed,file⟩ := tears error fails
      refine ⟨e,t,failed,?_⟩
      rw [file,Io.torn,nothing,List.take_zero,List.append_nil]

theorem stage_refused {io : Io} {tx : Transaction} (refuses : io.Refuses tx.store) (kind : RecordKind)
    (encoded : Except EngineError Bytes) (operation : Operation) :
    ∃ e u, stage io kind encoded operation tx = .error e u ∧ u.store.file = tx.store.file := by
  rw [stage,get_bind]
  cases opened : ensure_open tx with
  | error e => exact ⟨e,tx,rfl,rfl⟩
  | ok x =>
    rw [bind_of_ok (lift_ok _ _)]
    cases encoded with
    | error e => exact ⟨e,tx,rfl,rfl⟩
    | ok payload =>
      rw [bind_of_ok (lift_ok _ _),get_bind]
      obtain ⟨e,t,failed,file⟩ := append_refused refuses kind tx.tx_id payload
      refine ⟨e,{ tx with store := t },?_,file⟩
      exact bind_of_error (zoom_error.mpr ⟨t,failed,rfl⟩)

/-- The call ends before it appends anything. -/
def Event.Refused (io : Io) (tx : Transaction) : Event → Prop
  | .Put key value => (∃ e, ensure_user_key key = .error e) ∨ ∃ e, encode_put key value = .error e
  | .Delete key => (∃ e, ensure_user_key key = .error e) ∨ ∃ e, encode_delete key = .error e
  | .PutInternal key value => ∃ e, encode_put key value = .error e
  | .DeleteInternal key => ∃ e, encode_delete key = .error e
  | .Commit => ownChanges tx = [] ∧ ∃ e, tx.store.check_namespace_quota io tx.operations = .error e
  | _ => True

/-- Nothing that the step does reaches the file. -/
def Session.Quiet (session : Session) (io : Io) (event : Event) : Prop :=
  match session with
  | .Idle _ => True
  | .Busy tx => event.Refused io tx ∨ io.Refuses tx.store

/-- Staging the changes of a transaction that has none does nothing. -/
theorem stage_changes_nothing {io : Io} {sequence : UInt32} {operations : List Operation} {tx : Transaction}
    (none : changesFrom tx.tx_id sequence.toNat operations = []) :
    stage_changes_from io sequence operations tx = .ok () tx := by
  induction operations with
  | nil => rfl
  | cons operation operations ih =>
    have here : UInt32.ofNat sequence.toNat = sequence := UInt32.ofNat_toNat
    rw [changesFrom,here] at none
    rw [stage_changes_from,get_bind]
    cases found : change_for tx.tx_id sequence operation with
    | none => rw [found] at none; exact ih none
    | some change => rw [found] at none; cases none

theorem stage_changes_refused {io : Io} {sequence : UInt32} {operations : List Operation} {tx : Transaction}
    (refuses : io.Refuses tx.store) : stage_changes_from io sequence operations tx = .ok () tx ∨
      ∃ e u, stage_changes_from io sequence operations tx = .error e u ∧ u.store.file = tx.store.file := by
  induction operations with
  | nil => exact .inl rfl
  | cons operation operations ih =>
    rw [stage_changes_from,get_bind]
    cases found : change_for tx.tx_id sequence operation with
    | none => exact ih
    | some change =>
      right
      dsimp only
      cases encoded : (encode_change change).mapError map_cdc_error with
      | error e => exact ⟨e,tx,rfl,rfl⟩
      | ok bytes =>
        obtain ⟨e,u,failed,file⟩ := stage_refused refuses .Put (encode_put (change_key tx.tx_id sequence) bytes)
          (.Put (change_key tx.tx_id sequence) bytes)
        refine ⟨e,u,?_,file⟩
        rw [bind_of_ok (lift_ok _ _)]
        exact bind_of_error failed

theorem commit_quiet {io : Io} {tx : Transaction} (quiet : Event.Commit.Refused io tx ∨ io.Refuses tx.store) :
    ∃ e u, commit io tx = .error e u ∧ u.store.file = tx.store.file := by
  have inner : ∃ e u, commit_inner io tx = .error e u ∧ u.store.file = tx.store.file := by
    rw [commit_inner,get_bind]
    cases opened : ensure_open tx with
    | error e => exact ⟨e,tx,rfl,rfl⟩
    | ok x =>
      rw [bind_of_ok (lift_ok _ _)]
      have staging : stage_own_changes io tx = .ok () tx ∨
          ∃ e u, stage_own_changes io tx = .error e u ∧ u.store.file = tx.store.file := by
        rw [stage_own_changes,get_bind]
        by_cases emits : tx.emit_cdc = true
        · rw [if_pos emits]
          rcases quiet with ⟨nothing,-⟩ | refuses
          · rw [ownChanges,if_pos emits] at nothing
            exact .inl (stage_changes_nothing (List.map_eq_nil_iff.mp nothing))
          · exact stage_changes_refused refuses
        · rw [if_neg emits]
          exact .inl rfl
      rcases staging with done | ⟨e,u,failed,file⟩
      · rw [bind_of_ok done,get_bind]
        rcases quiet with ⟨-,e,refused⟩ | refuses
        · exact ⟨e,tx,bind_of_error (lift_eq_error.mpr ⟨refused,rfl⟩),rfl⟩
        · cases quota : tx.store.check_namespace_quota io tx.operations with
          | error e => exact ⟨e,tx,rfl,rfl⟩
          | ok y =>
            obtain ⟨e,t,failed,file⟩ := append_refused refuses .Commit tx.tx_id []
            refine ⟨e,{ tx with store := t },?_,file⟩
            rw [bind_of_ok (lift_ok _ _)]
            exact bind_of_error (zoom_error.mpr ⟨t,failed,rfl⟩)
      · exact ⟨e,u,bind_of_error failed,file⟩
  obtain ⟨e,u,failed,file⟩ := inner
  refine ⟨e,{ u with store := { u.store with metrics := u.store.metrics.commit_failed } },?_,file⟩
  rw [commit,failed]

/-- A quiet step leaves the file as it was. -/
theorem quiet_untouched {run : Run} {io : Io} {event : Event} (quiet : run.session.Quiet io event) :
    (run.step io event).session.store.file = run.session.store.file := by
  unfold Run.step
  cases session : run.session with
  | Idle store =>
    dsimp only [Session.store,Store.step]
    have begins : ∀ {emit_cdc tx}, begin_with_cdc store emit_cdc = .ok tx → tx.store.file = store.file := by
      intro emit_cdc tx begun
      obtain ⟨-,-,-,-,-,borrowed⟩ := begin_ok begun
      rw [borrowed]
    cases event with
    | Begin =>
      cases begun : begin_tx store with
      | ok tx => simpa only [begun] using begins begun
      | error e => simp only [begun]
    | BeginWithoutCdc =>
      cases begun : begin_without_cdc store with
      | ok tx => simpa only [begun] using begins begun
      | error e => simp only [begun]
    | _ => rfl
  | Busy tx =>
    rw [session] at quiet
    have staging : ∀ kind encoded operation, ((∃ e, encoded = .error e) ∨ io.Refuses tx.store) →
        (after (stage io kind encoded operation) tx).store.file = tx.store.file := by
      intro kind encoded operation stops
      rcases stops with ⟨e,rfl⟩ | refuses
      · unfold after
        rw [stage,get_bind]
        cases ensure_open tx <;> rfl
      · obtain ⟨e,u,failed,file⟩ := stage_refused refuses kind encoded operation
        unfold after
        rw [failed]
        exact file
    have guarded : ∀ key kind encoded operation,
        (((∃ e, ensure_user_key key = .error e) ∨ ∃ e, encoded = .error e) ∨ io.Refuses tx.store) →
        (after (do lift (ensure_user_key key); stage io kind encoded operation) tx).store.file = tx.store.file := by
      intro key kind encoded operation stops
      cases checked : ensure_user_key key with
      | error e => rfl
      | ok x =>
        refine staging kind encoded operation ?_
        rcases stops with (⟨e,reserved⟩ | invalid) | refuses
        · rw [checked] at reserved; cases reserved
        · exact .inl invalid
        · exact .inr refuses
    cases event with
    | Put key value => exact guarded key _ _ _ quiet
    | Delete key => exact guarded key _ _ _ quiet
    | PutInternal key value => exact staging _ _ _ quiet
    | DeleteInternal key => exact staging _ _ _ quiet
    | Commit =>
      obtain ⟨e,u,failed,file⟩ := commit_quiet quiet
      dsimp only [Event.staging]
      rw [failed]
      exact file
    | Rollback =>
      dsimp only [Event.staging,Session.store]
      unfold after rollback
      rw [get_bind]
      cases ensure_open tx <;> rfl
    | Drop => rfl
    | Begin => dsimp only [Event.staging]; rw [session]
    | BeginWithoutCdc => dsimp only [Event.staging]; rw [session]

/-! ## Runs with faults -/

/-- Every step of a run meets a condition on the session before it. -/
def Run.Throughout (condition : Session → Io → Event → Prop) (run : Run) : List (Io × Event) → Prop
  | [] => True
  | call :: calls => condition run.session call.1 call.2 ∧ (run.step call.1 call.2).Throughout condition calls

/-- Nothing is sent to a file that ends in a fragment. -/
def Session.Careful (session : Session) (io : Io) (event : Event) : Prop :=
  fragment session.store.file = [] ∨ session.Quiet io event

/-- Nothing is sent behind a fragment, and the disk confirms what it is asked to. -/
def Session.Reliable (session : Session) (io : Io) (event : Event) : Prop :=
  session.Careful io event ∧ session.Confirmed io

theorem reliable_step {base : List Commitment} {run : Run} {io : Io} {event : Event} (sound : run.Sound base)
    (reliable : run.session.Reliable io event) : (run.step io event).Sound base := by
  obtain ⟨careful,confirmed⟩ := reliable
  refine step_sound sound ?_ confirmed
  rcases careful with whole | quiet
  · exact .inl whole
  · exact .inr (quiet_untouched quiet)

theorem reliable_steps {base : List Commitment} {run : Run} {calls : List (Io × Event)} (sound : run.Sound base)
    (reliable : run.Throughout Session.Reliable calls) : (run.steps calls).Sound base := by
  induction calls generalizing run with
  | nil => exact sound
  | cons call calls ih =>
    obtain ⟨here,later⟩ := reliable
    exact ih (reliable_step sound here) later

/-- Care is enough as long as every sync is confirmed. -/
theorem reliable_of_careful {run : Run} {calls : List (Io × Event)} (careful : run.Throughout Session.Careful calls)
    (confirms : ∀ call ∈ calls, ∀ tx_id, call.1.fails (.commit_sync tx_id) = none) : run.Throughout Session.Reliable calls := by
  induction calls generalizing run with
  | nil => trivial
  | cons call calls ih =>
    refine ⟨⟨careful.1,.inr (confirms call (by simp))⟩,?_⟩
    exact ih careful.2 (fun other member => confirms other (by simp [member]))

/-- A store that has just been opened, and the commitments in its file. -/
theorem opened_run {io : Io} {path : Path} {options : StoreOptions} {file left : Bytes} {store : Store}
    (ready : file = [] ∨ FileSound file) (opened : open_with_options io path options file = .ok store left) :
    Run.Sound (commitments (records store.file)) ⟨.Idle store,[]⟩ ∧
      store.state = applyCommitments ∅ (commitments (records store.file)) := by
  obtain ⟨-,-,recovery,started,opens⟩ := open_ok opened
  obtain ⟨stored,-,-⟩ := open_sound opens ready
  have sound : Run.Sound (commitments (records store.file)) ⟨.Idle store,[]⟩ := ⟨stored,(List.append_nil _).symm⟩
  exact ⟨sound,sound.state⟩

/-- What recovery finds after a sound run. -/
theorem Run.Sound.recovers {base : List Commitment} {run : Run} (sound : run.Sound base) :
    ∃ recovery, recover run.session.store.file = .ok recovery ∧ recovery.state = run.session.store.state :=
  sound.session.of_store.recovers

/-- In a run whose appends may fail after any part of a record, as long as
    nothing is sent behind what such an append left, recovery of the file
    succeeds and finds every transaction whose commit returned `Ok`. -/
theorem commits_survive {io : Io} {path : Path} {options : StoreOptions} {file left : Bytes} {store : Store}
    {calls : List (Io × Event)} (ready : file = [] ∨ FileSound file)
    (opened : open_with_options io path options file = .ok store left)
    (confirms : ∀ call ∈ calls, ∀ tx_id, call.1.fails (.commit_sync tx_id) = none)
    (careful : Run.Throughout Session.Careful ⟨.Idle store,[]⟩ calls) :
    ∃ recovery, recover (Run.steps ⟨.Idle store,[]⟩ calls).session.store.file = .ok recovery ∧
      recovery.state =
        applyCommitments store.state ((Run.steps ⟨.Idle store,[]⟩ calls).history.map Entry.toCommitment) := by
  obtain ⟨started,state⟩ := opened_run ready opened
  have ended := reliable_steps started (reliable_of_careful careful confirms)
  obtain ⟨recovery,recovered,found⟩ := ended.recovers
  refine ⟨recovery,recovered,?_⟩
  rw [found,ended.state,← state]

/-- In a reliable run the map and the file agree after every call, and a commit
    that fails changes neither. -/
theorem memory_agrees {io : Io} {path : Path} {options : StoreOptions} {file left : Bytes} {store : Store}
    {calls : List (Io × Event)} (ready : file = [] ∨ FileSound file)
    (opened : open_with_options io path options file = .ok store left)
    (reliable : Run.Throughout Session.Reliable ⟨.Idle store,[]⟩ calls) :
    (∃ recovery, recover (Run.steps ⟨.Idle store,[]⟩ calls).session.store.file = .ok recovery ∧
      recovery.state = (Run.steps ⟨.Idle store,[]⟩ calls).session.store.state) ∧
    ∀ last tx e u, (Run.steps ⟨.Idle store,[]⟩ calls).session = .Busy tx → commit last tx = .error e u →
      Session.Reliable (.Busy tx) last .Commit → u.store.state = tx.store.state ∧
        ∃ recovery, recover u.store.file = .ok recovery ∧ recovery.state = tx.store.state := by
  obtain ⟨started,-⟩ := opened_run ready opened
  have ended := reliable_steps started reliable
  refine ⟨ended.recovers,?_⟩
  intro last tx e u busy failed reliableLast
  have kept : u.store.state = tx.store.state := by
    rcases commit_error failed with ⟨rs,piece,staged,-⟩ | ⟨rs,r,-,same,-,-⟩
    · exact staged.grown.state
    · exact same
  have stepped : (Run.step (Run.steps ⟨.Idle store,[]⟩ calls) last .Commit).session = .Idle u.store := by
    unfold Run.step
    rw [busy]
    dsimp only [Event.staging]
    rw [failed]
  rw [← busy] at reliableLast
  have next := reliable_step ended reliableLast
  have agrees := next.recovers
  rw [stepped] at agrees
  obtain ⟨recovery,recovered,found⟩ := agrees
  exact ⟨kept,recovery,recovered,found.trans kept⟩

end

/-! ## Where the faults show -/

/-- The write of the first record stops after one byte. -/
def shortWrite : Io := { calm with
  fails := fun call => if call = .append_write 1 then some ⟨.StorageFull,"no space left on device"⟩ else none
  written := fun _ => 1 }

/-- A delete hits the full disk and its transaction is dropped; another one succeeds. -/
def shortWriteCalls : List (Io × Event) :=
  [(calm,.Begin),(shortWrite,.Delete [107]),(calm,.Drop),(calm,.Begin),(calm,.Delete [107]),(calm,.Commit)]

theorem short_write_loses_commit : ∃ store left,
    @open_with_options crates calm ["a.vstore"] .default [] = .ok store left ∧
    (@Run.steps crates ⟨.Idle store,[]⟩ shortWriteCalls).history.length = 1 ∧
    ∀ recovery, @recover crates (@Run.steps crates ⟨.Idle store,[]⟩ shortWriteCalls).session.store.file ≠ .ok recovery := by
  have evaluated : (match @open_with_options crates calm ["a.vstore"] .default [] with
      | .ok store _ => decide ((@Run.steps crates ⟨.Idle store,[]⟩ shortWriteCalls).history.length = 1) &&
          !(@recover crates (@Run.steps crates ⟨.Idle store,[]⟩ shortWriteCalls).session.store.file).toBool
      | .error _ _ => false) = true := by decide +kernel
  cases opened : @open_with_options crates calm ["a.vstore"] .default [] with
  | error e left => rw [opened] at evaluated; cases evaluated
  | ok store left =>
    rw [opened] at evaluated
    simp only [Bool.and_eq_true,decide_eq_true_eq,Bool.not_eq_true'] at evaluated
    refine ⟨store,left,rfl,evaluated.1,?_⟩
    intro recovery recovered
    rw [recovered] at evaluated
    cases evaluated.2

/-- The disk takes no byte of a record. -/
def fullDisk : Io := { calm with
  fails := fun call => match call with
    | .append_write _ => some ⟨.StorageFull,"no space left on device"⟩
    | _ => none }

/-- The disk takes one byte of a record. -/
def tornWrite : Io := { fullDisk with written := fun _ => 1 }

/-- The file is whole before every step, unless the step is a drop. -/
def Run.carefully [Hashes] (run : Run) : List (Io × Event) → Bool
  | [] => true
  | call :: calls =>
    (decide (fragment run.session.store.file = []) || decide (call.2 = .Drop)) && (run.step call.1 call.2).carefully calls

theorem carefully_throughout [Hashes] {run : Run} {calls : List (Io × Event)} (carefully : run.carefully calls = true) :
    run.Throughout Session.Careful calls := by
  induction calls generalizing run with
  | nil => trivial
  | cons call calls ih =>
    obtain ⟨io,event⟩ := call
    rw [Run.carefully,Bool.and_eq_true,Bool.or_eq_true,decide_eq_true_eq,decide_eq_true_eq] at carefully
    refine ⟨carefully.1.imp id ?_,ih carefully.2⟩
    rintro rfl
    unfold Session.Quiet
    split
    · trivial
    · exact .inl trivial

/-- A delete, one that the disk refuses whole, another delete, and one that is torn. -/
def refusedAndTorn : List (Io × Event) :=
  [(calm,.Begin),(calm,.Delete [107]),(calm,.Commit),(calm,.Begin),(fullDisk,.Delete [108]),(calm,.Drop),
    (calm,.Begin),(calm,.Delete [109]),(calm,.Commit),(calm,.Begin),(tornWrite,.Delete [110]),(calm,.Drop)]

set_option maxRecDepth 20000 in
/-- Both commits are found, though one write has failed between them and another behind them. -/
theorem refused_and_torn_survived : ∃ store left, @open_with_options crates calm ["a.vstore"] .default [] = .ok store left ∧
    let run := @Run.steps crates ⟨.Idle store,[]⟩ refusedAndTorn
    run.history.map (fun entry => (entry.tx_id,entry.staged)) = [(1,[.Delete [107]]),(3,[.Delete [109]])] ∧
    @fragment crates run.session.store.file ≠ [] ∧
    ∃ recovery, @recover crates run.session.store.file = .ok recovery ∧
      recovery.state = applyCommitments store.state (run.history.map Entry.toCommitment) := by
  have evaluated : passes (@open_with_options crates calm ["a.vstore"] .default []) (fun store _ =>
      let run := @Run.steps crates ⟨.Idle store,[]⟩ refusedAndTorn
      @Run.carefully crates ⟨.Idle store,[]⟩ refusedAndTorn && decide (run.history.map (fun entry => (entry.tx_id,entry.staged)) =
        [(1,[.Delete [107]]),(3,[.Delete [109]])] ∧ @fragment crates run.session.store.file ≠ [])) = true := by decide +kernel
  obtain ⟨store,left,opened,evaluated⟩ := passes_iff.mp evaluated
  obtain ⟨carefully,facts⟩ := Bool.and_eq_true_iff.mp evaluated
  obtain ⟨commits,torn⟩ := of_decide_eq_true facts
  refine ⟨store,left,opened,commits,torn,?_⟩
  refine @commits_survive crates _ _ _ _ _ _ _ (.inl rfl) opened ?_ (@carefully_throughout crates _ _ carefully)
  intro call member tx_id
  simp only [refusedAndTorn,List.mem_cons,List.not_mem_nil,or_false] at member
  rcases member with rfl | rfl | rfl | rfl | rfl | rfl | rfl | rfl | rfl | rfl | rfl | rfl <;> rfl

/-- A delete, one whose commit the disk refuses whole, and another delete. -/
def refusedCommit : List (Io × Event) :=
  [(calm,.Begin),(calm,.Delete [107]),(calm,.Commit),(calm,.Begin),(calm,.Delete [108]),(fullDisk,.Commit),
    (calm,.Begin),(calm,.Delete [109])]

set_option maxRecDepth 20000 in
/-- Two commits return `Err`, in the middle and at the end, and memory and file agree. -/
theorem refused_commit_agrees : ∃ store left tx e u,
    @open_with_options crates calm ["a.vstore"] .default [] = .ok store left ∧
    let run := @Run.steps crates ⟨.Idle store,[]⟩ refusedCommit
    run.history.map (fun entry => entry.tx_id) = [1] ∧ run.session = .Busy tx ∧ tx.tx_id = 3 ∧
    (∃ recovery, @recover crates run.session.store.file = .ok recovery ∧ recovery.state = run.session.store.state) ∧
    @commit crates fullDisk tx = .error e u ∧ u.store.state = tx.store.state ∧
    ∃ recovery, @recover crates u.store.file = .ok recovery ∧ recovery.state = tx.store.state := by
  have evaluated : passes (@open_with_options crates calm ["a.vstore"] .default []) (fun store _ =>
      let run := @Run.steps crates ⟨.Idle store,[]⟩ refusedCommit
      @Run.carefully crates ⟨.Idle store,[]⟩ refusedCommit && decide (run.history.map (fun entry => entry.tx_id) = [1]) &&
        run.session.busy.any (fun tx => decide (tx.tx_id = 3) && decide (@fragment crates tx.store.file = []) &&
          fails (@commit crates fullDisk tx) (fun _ _ => true))) = true := by decide +kernel
  obtain ⟨store,left,opened,evaluated⟩ := passes_iff.mp evaluated
  obtain ⟨before,ended⟩ := Bool.and_eq_true_iff.mp evaluated
  obtain ⟨carefully,commits⟩ := Bool.and_eq_true_iff.mp before
  obtain ⟨tx,busy,facts⟩ := (Option.any_eq_true _ _).mp ended
  simp only [Bool.and_eq_true,decide_eq_true_eq] at facts
  obtain ⟨⟨number,whole⟩,refused⟩ := facts
  rw [Session.busy_iff] at busy
  obtain ⟨e,u,failed,-⟩ := fails_iff.mp refused
  have reliable : @Run.Throughout crates (@Session.Reliable crates) ⟨.Idle store,[]⟩ refusedCommit := by
    refine @reliable_of_careful crates _ _ (@carefully_throughout crates _ _ carefully) ?_
    intro call member tx_id
    simp only [refusedCommit,List.mem_cons,List.not_mem_nil,or_false] at member
    rcases member with rfl | rfl | rfl | rfl | rfl | rfl | rfl | rfl <;> rfl
  obtain ⟨agrees,keeps⟩ := @memory_agrees crates _ _ _ _ _ _ _ (.inl rfl) opened reliable
  obtain ⟨kept,recovered⟩ := keeps fullDisk tx e u busy failed ⟨.inl whole,.inr (fun _ => rfl)⟩
  exact ⟨store,left,tx,e,u,opened,of_decide_eq_true commits,busy,number,agrees,failed,kept,recovered⟩

/-- The disk does not confirm the first transaction. -/
def failedSync : Io := { calm with
  fails := fun call => if call = .commit_sync 1 then some ⟨.Other,"input/output error"⟩ else none }

def failedSyncCalls : List (Io × Event) := [(calm,.Begin),(calm,.Delete [107]),(failedSync,.Commit)]

set_option maxRecDepth 20000 in
/-- The commit fails and the map stays empty, but recovery finds its change record. -/
theorem failed_sync_commits : ∃ store left,
    @open_with_options crates calm ["a.vstore"] .default [] = .ok store left ∧
    (@Run.steps crates ⟨.Idle store,[]⟩ failedSyncCalls).history = [] ∧
    ∃ recovery, @recover crates (@Run.steps crates ⟨.Idle store,[]⟩ failedSyncCalls).session.store.file = .ok recovery ∧
      recovery.state ≠ (@Run.steps crates ⟨.Idle store,[]⟩ failedSyncCalls).session.store.state := by
  have evaluated : (match @open_with_options crates calm ["a.vstore"] .default [] with
      | .ok store _ =>
        let run := @Run.steps crates ⟨.Idle store,[]⟩ failedSyncCalls
        decide (run.history.length = 0) && match @recover crates run.session.store.file with
          | .ok recovery => decide (recovery.state.size ≠ run.session.store.state.size)
          | .error _ => false
      | .error _ _ => false) = true := by decide +kernel
  cases opened : @open_with_options crates calm ["a.vstore"] .default [] with
  | error e left => rw [opened] at evaluated; cases evaluated
  | ok store left =>
    rw [opened] at evaluated
    dsimp only at evaluated
    cases recovered : @recover crates (@Run.steps crates ⟨.Idle store,[]⟩ failedSyncCalls).session.store.file with
    | error e => rw [recovered] at evaluated; simp at evaluated
    | ok recovery =>
      rw [recovered] at evaluated
      simp only [Bool.and_eq_true,decide_eq_true_eq] at evaluated
      refine ⟨store,left,rfl,List.length_eq_zero_iff.mp evaluated.1,recovery,recovered,?_⟩
      intro same
      exact evaluated.2 (congrArg Std.ExtTreeMap.size same)

end VoodooStore
