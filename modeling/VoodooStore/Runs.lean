import VoodooStore.Growth

/-!
# Runs of an open store

A store is used through one transaction at a time. `Run.step` is one call on
the store or on its open transaction, with an oracle for what the operating
system does meanwhile; `step_cases` says all that it can do. A store is sound
when its file holds an accepted log that leads to its map and its counters; a
step keeps this as long as it does not write behind a fragment and the disk
confirms what was written.
-/
namespace VoodooStore
open Effects Frames
set_option linter.unusedSimpArgs false

section
variable [Hashes]

/-! ## Sound stores -/

/-- What is appended to whole records is read behind them. -/
theorem records_grow {file piece : Bytes} {new : List LogRecord} (long : STORE_HEADER_LEN ≤ file.length)
    (whole : fragment file = []) (fits : ∀ r ∈ new, r.Fits) (torn : recordHead piece = .torn) :
    records (file ++ (frames new ++ piece)) = records file ++ new ∧
      fragment (file ++ (frames new ++ piece)) = piece := by
  have body := frames_fragment file
  rw [whole,List.append_nil] at body
  have grown : (file ++ (frames new ++ piece)).drop STORE_HEADER_LEN = frames (records file ++ new) ++ piece := by
    rw [List.drop_append_of_le_length long,← body]
    simp [frames]
  have allFit : ∀ r ∈ records file ++ new, r.Fits := by
    intro r member
    rcases List.mem_append.mp member with old | young
    · exact records_fit file r old
    · exact fits r young
  constructor
  · rw [records,grown]
    exact logFraming.values_written allFit torn
  · rw [fragment,grown]
    exact logFraming.rest_written allFit torn

/-- A file without a fragment ends where its last record ends. -/
theorem endOf_records {file : Bytes} (long : STORE_HEADER_LEN ≤ file.length) (whole : fragment file = []) :
    endOf (records file) = file.length := by
  have body := congrArg List.length (frames_fragment file)
  rw [whole,List.append_nil,List.length_drop] at body
  rw [endOf]
  omega

/-- The file leads to the map and the counters of the store. -/
structure Store.Sound (s : Store) : Prop where
  header : HasHeader s.file s.header
  torn : recordHead (fragment s.file) = .torn
  log : LogSound (records s.file) s.next_tx_id s.next_sequence
  state : s.state = committedState (records s.file)

/-- Recovery of a sound store's file finds the store's map. -/
theorem Store.Sound.recovers {self : Store} (sound : self.Sound) :
    ∃ recovery, recover self.file = .ok recovery ∧ recovery.state = self.state := by
  obtain ⟨acc,replayed⟩ := sound.log.replays
  refine ⟨_,recover_ok_iff.mpr ⟨acc,replayed,sound.torn,rfl⟩,?_⟩
  rw [sound.state]
  exact (replay_ok replayed).state

/-- The log knows the transaction as it knows itself. -/
structure Transaction.Sound (tx : Transaction) : Prop where
  store : tx.store.Sound
  begun : tx.tx_id < tx.store.next_tx_id
  uncommitted : tx.tx_id ∉ commits (records tx.store.file)
  staged : tx.operations = stagedBy tx.tx_id (records tx.store.file)

theorem begin_sound {self : Store} {emit_cdc : Bool} {tx : Transaction} (sound : self.Sound)
    (begun : begin_with_cdc self emit_cdc = .ok tx) : tx.Sound ∧ tx.store.file = self.file := by
  obtain ⟨id,next,empty,-,-,store⟩ := begin_ok begun
  have file : tx.store.file = self.file := by rw [store]
  have order : self.next_tx_id < tx.store.next_tx_id := UInt64.lt_iff_toNat_lt.mpr (by omega)
  have others : ∀ r ∈ records self.file, r.tx_id ≠ self.next_tx_id := by
    intro r member
    exact UInt64.ne_of_lt (sound.log.identified r member)
  refine ⟨⟨⟨?_,?_,?_,?_⟩,?_,?_,?_⟩,file⟩
  · rw [file,show tx.store.header = self.header by rw [store]]
    exact sound.header
  · rw [file]
    exact sound.torn
  · rw [file,show tx.store.next_sequence = self.next_sequence by rw [store]]
    exact sound.log.begin (UInt64.le_of_lt order)
  · rw [file,show tx.store.state = self.state by rw [store]]
    exact sound.state
  · rw [id]
    exact order
  · rw [id,file]
    intro member
    obtain ⟨r,inLog,-,same⟩ := mem_commits.mp member
    exact others r inLog same
  · rw [empty,id,file,stagedBy_other others]

/-- Nothing is written behind a fragment. -/
def Untouched (before after : Bytes) : Prop := fragment before = [] ∨ after = before

/-- Staging keeps a transaction sound. -/
theorem Transaction.Sound.stages {tx u : Transaction} {rs : List LogRecord} {piece : Bytes} (sound : tx.Sound)
    (staged : Staged tx u rs piece) (torn : recordHead piece = .torn)
    (behind : Untouched tx.store.file u.store.file) :
    u.Sound ∧ commitments (records u.store.file) = commitments (records tx.store.file) ∧
      (fragment tx.store.file = [] → fragment u.store.file = piece) := by
  have grown := staged.grown
  rcases behind with whole | same
  · obtain ⟨read,left⟩ := records_grow sound.store.header.long whole grown.fits torn
    rw [← grown.file] at read left
    refine ⟨⟨⟨?_,?_,?_,?_⟩,?_,?_,?_⟩,?_,fun _ => left⟩
    · rw [grown.header,grown.file]
      exact sound.store.header.append _
    · rw [left]
      exact torn
    · rw [read,grown.next_tx_id]
      exact sound.store.log.stages grown.numbered staged.mine sound.begun sound.uncommitted staged.stages
    · obtain ⟨acc,replayed⟩ := sound.store.log.replays
      have log := sound.store.log.stages grown.numbered staged.mine sound.begun sound.uncommitted staged.stages
      obtain ⟨later,replayedLater⟩ := log.replays
      rw [grown.state,sound.store.state,read,committedState_commitments replayed,
        committedState_commitments replayedLater,commitments_append,commitmentsAfter_staging staged.stages,List.append_nil]
    · rw [staged.tx_id,grown.next_tx_id]
      exact sound.begun
    · rw [staged.tx_id,read,commits_staging staged.stages]
      exact sound.uncommitted
    · rw [staged.tx_id,read,staged.operations,stagedBy_append,sound.staged,stagedBy_mine staged.mine]
    · rw [read,commitments_append,commitmentsAfter_staging staged.stages,List.append_nil]
  · -- Nothing was written, so there are no records either.
    have nothing : frames rs ++ piece = [] := by
      have file := grown.file
      rw [same] at file
      exact (List.append_right_eq_self.mp file.symm)
    have none : rs = [] := by
      cases rs with
      | nil => rfl
      | cons r rs =>
        have size := congrArg List.length (List.append_eq_nil_iff.mp nothing).1
        simp [frames,logFraming] at size
    subst none
    have noPiece : piece = [] := (List.append_eq_nil_iff.mp nothing).2
    refine ⟨⟨⟨?_,?_,?_,?_⟩,?_,?_,?_⟩,by rw [same],fun whole => by rw [same,whole,noPiece]⟩
    · rw [same,grown.header]
      exact sound.store.header
    · rw [same]
      exact sound.store.torn
    · rw [same,grown.next_tx_id]
      exact sound.store.log.skip grown.numbered.le
    · rw [same,grown.state]
      exact sound.store.state
    · rw [staged.tx_id,grown.next_tx_id]
      exact sound.begun
    · rw [staged.tx_id,same]
      exact sound.uncommitted
    · rw [staged.tx_id,same,staged.operations,← sound.staged]
      simp

/-- A commit that was written and applied keeps the store sound and adds one commitment. -/
theorem Transaction.Sound.commits {tx u : Transaction} {rs : List LogRecord} {r : LogRecord} (sound : tx.Sound)
    (written : Written tx u rs r) (behind : Untouched tx.store.file u.store.file)
    (applied : u.store.state = apply_operations tx.store.state u.operations) :
    u.store.Sound ∧ fragment u.store.file = [] ∧ commitments (records u.store.file) =
      commitments (records tx.store.file) ++ [⟨tx.tx_id,u.operations,u.store.file.length⟩] := by
  have whole : fragment tx.store.file = [] := by
    rcases behind with whole | same
    · exact whole
    · have file := written.file
      rw [same] at file
      have size := congrArg List.length (List.append_right_eq_self.mp file.symm)
      simp [frames,logFraming] at size
  have long := sound.store.header.long
  obtain ⟨read,left⟩ := records_grow long whole written.fits recordHead_nil
  rw [List.append_nil,← written.file] at read left
  have mine : ∀ t ∈ rs, t.tx_id = tx.tx_id := fun t member => written.mine t (by simp [member])
  have log := sound.store.log.commits written.numbered written.mine sound.begun sound.uncommitted written.stages
    written.commit
  have longer : STORE_HEADER_LEN ≤ u.store.file.length := by
    rw [written.file,List.length_append]
    omega
  have added : commitments (records u.store.file) =
      commitments (records tx.store.file) ++ [⟨tx.tx_id,u.operations,u.store.file.length⟩] := by
    rw [read,commitments_commit written.stages written.commit,← read,endOf_records longer left,
      written.mine r (by simp),stagedBy_append,stagedBy_mine mine,← sound.staged,written.changes,written.operations]
  refine ⟨⟨?_,?_,?_,?_⟩,left,added⟩
  · rw [written.header,written.file]
    exact sound.store.header.append _
  · rw [left]
    exact recordHead_nil
  · rw [read,written.next_tx_id]
    exact log
  · obtain ⟨acc,replayed⟩ := sound.store.log.replays
    obtain ⟨later,replayedLater⟩ := log.replays
    rw [← read] at replayedLater
    rw [committedState_commitments replayedLater,added,applyCommitments_append,
      ← committedState_commitments replayed,← sound.store.state,applied]
    rfl

/-! ## Steps -/

/-- The calls on a store and on its open transaction that can change anything. -/
inductive Event
  | Begin
  | BeginWithoutCdc
  | Put (key value : Bytes)
  | Delete (key : Bytes)
  | PutInternal (key value : Bytes)
  | DeleteInternal (key : Bytes)
  | Commit
  | Rollback
  | Drop
  deriving DecidableEq

/-- A store, alone or borrowed by its open transaction. -/
inductive Session
  | Idle (store : Store)
  | Busy (tx : Transaction)

def Session.store : Session → Store
  | .Idle store => store
  | .Busy tx => tx.store

/-- The store, when no transaction borrows it. -/
def Session.idle : Session → Option Store
  | .Idle store => some store
  | .Busy _ => none

/-- The transaction that borrows the store. -/
def Session.busy : Session → Option Transaction
  | .Idle _ => none
  | .Busy tx => some tx

omit [Hashes] in
theorem Session.idle_iff {session : Session} {store : Store} : session.idle = some store ↔ session = .Idle store := by
  cases session with
  | Idle store => simp [idle]
  | Busy tx => simp [idle]

omit [Hashes] in
theorem Session.busy_iff {session : Session} {tx : Transaction} : session.busy = some tx ↔ session = .Busy tx := by
  cases session with
  | Idle store => simp [busy]
  | Busy tx => simp [busy]

/-- A commit that returned `Ok`: what the caller had staged, and the commitment it made. -/
structure Entry extends Commitment where
  emit_cdc : Bool
  staged : List Operation

structure Run where
  session : Session
  history : List Entry

/-- The staging call of an event, if it is one. -/
def Event.staging (io : Io) : Event → Option (EStateM EngineError Transaction Unit)
  | .Put key value => some (put io key value)
  | .Delete key => some (delete io key)
  | .PutInternal key value => some (put_internal io key value)
  | .DeleteInternal key => some (delete_internal io key)
  | _ => none

def Store.step (store : Store) (event : Event) : Session :=
  let begun := match event with
    | .Begin => begin_tx store
    | .BeginWithoutCdc => begin_without_cdc store
    | _ => .error .TransactionFinished
  match begun with
  | .ok tx => .Busy tx
  | .error _ => .Idle store

/-- One call. A call that the borrow checker rules out changes nothing. -/
def Run.step (run : Run) (io : Io) (event : Event) : Run :=
  match run.session with
  | .Idle store => { run with session := store.step event }
  | .Busy tx =>
    match event.staging io with
    | some call => { run with session := .Busy (after call tx) }
    | none =>
      match event with
      | .Commit =>
        match commit io tx with
        | .ok _ u => {
            session := .Idle u.store
            history := run.history ++ [⟨⟨tx.tx_id,u.operations,u.store.file.length⟩,tx.emit_cdc,tx.operations⟩] }
        | .error _ u => { run with session := .Idle u.store }
      | .Rollback => { run with session := .Idle (after rollback tx).store }
      | .Drop => { run with session := .Idle tx.store }
      | _ => run

def Run.steps (run : Run) (calls : List (Io × Event)) : Run :=
  calls.foldl (fun run call => run.step call.1 call.2) run

theorem steps_snoc (run : Run) (calls : List (Io × Event)) (call : Io × Event) :
    run.steps (calls ++ [call]) = (run.steps calls).step call.1 call.2 := by
  simp [Run.steps]

/-- A call that stages leaves a transaction as staging can. -/
theorem staging_does {io : Io} {event : Event} {call : EStateM EngineError Transaction Unit}
    (staging : event.staging io = some call) (tx : Transaction) :
    ∃ rs piece, Staged tx (after call tx) rs piece ∧ Piece io piece := by
  have does : ∀ kind encoded operation, Spells kind encoded operation →
      ∃ rs piece, Staged tx (after (stage io kind encoded operation) tx) rs piece ∧ Piece io piece := by
    intro kind encoded operation spells
    unfold after
    cases result : stage io kind encoded operation tx with
    | ok x u =>
      obtain ⟨r,staged,-⟩ := stage_ok spells result
      exact ⟨[r],[],staged,.none io⟩
    | error e u =>
      obtain ⟨piece,staged,torn⟩ := stage_error result
      exact ⟨[],piece,staged,torn⟩
  have guarded : ∀ key kind encoded operation, Spells kind encoded operation → ∃ rs piece,
      Staged tx (after (do lift (ensure_user_key key); stage io kind encoded operation) tx) rs piece ∧
        Piece io piece := by
    intro key kind encoded operation spells
    cases checked : ensure_user_key key with
    | ok x => exact does kind encoded operation spells
    | error e => exact ⟨[],[],.refl tx,.none io⟩
  cases event with
  | Put key value => cases staging; exact guarded key _ _ _ (put_spells key value)
  | Delete key => cases staging; exact guarded key _ _ _ (delete_spells key)
  | PutInternal key value => cases staging; exact does _ _ _ (put_spells key value)
  | DeleteInternal key => cases staging; exact does _ _ _ (delete_spells key)
  | Begin => cases staging
  | BeginWithoutCdc => cases staging
  | Commit => cases staging
  | Rollback => cases staging
  | Drop => cases staging

/-- All that a step can do. -/
inductive Stepped (io : Io) (run : Run) : Run → Prop
  | stays : Stepped io run run
  | begins {store : Store} {emit_cdc : Bool} {tx : Transaction} (idle : run.session = .Idle store)
      (begun : begin_with_cdc store emit_cdc = .ok tx) : Stepped io run { run with session := .Busy tx }
  | stages {tx u : Transaction} {rs : List LogRecord} {piece : Bytes} (busy : run.session = .Busy tx)
      (staged : Staged tx u rs piece) (torn : Piece io piece) : Stepped io run { run with session := .Busy u }
  | ends {tx u : Transaction} {rs : List LogRecord} {piece : Bytes} (busy : run.session = .Busy tx)
      (staged : Staged tx u rs piece) (torn : Piece io piece) : Stepped io run { run with session := .Idle u.store }
  | commits {tx u : Transaction} {rs : List LogRecord} {r : LogRecord} (busy : run.session = .Busy tx)
      (written : Written tx u rs r) (applied : u.store.state = apply_operations tx.store.state u.operations) :
      Stepped io run {
        session := .Idle u.store
        history := run.history ++ [⟨⟨tx.tx_id,u.operations,u.store.file.length⟩,tx.emit_cdc,tx.operations⟩] }
  | unconfirmed {tx u : Transaction} {rs : List LogRecord} {r : LogRecord} (busy : run.session = .Busy tx)
      (written : Written tx u rs r) (kept : u.store.state = tx.store.state)
      (unsynced : io.fails (.commit_sync tx.tx_id) ≠ none) (strict : tx.store.options.durability ≠ .Relaxed) :
      Stepped io run { run with session := .Idle u.store }

theorem step_cases (run : Run) (io : Io) (event : Event) : Stepped io run (run.step io event) := by
  unfold Run.step
  cases session : run.session with
  | Idle store =>
    dsimp only
    unfold Store.step
    dsimp only
    have same : ({ run with session := .Idle store } : Run) = run := by rw [← session]
    have begins : ∀ emit_cdc, Stepped io run { run with session := match begin_with_cdc store emit_cdc with
        | .ok tx => .Busy tx
        | .error _ => .Idle store } := by
      intro emit_cdc
      cases begun : begin_with_cdc store emit_cdc with
      | ok tx => exact .begins session begun
      | error e => rw [same]; exact .stays
    cases event with
    | Begin => exact begins true
    | BeginWithoutCdc => exact begins false
    | _ => dsimp only; rw [same]; exact .stays
  | Busy tx =>
    dsimp only
    cases staging : event.staging io with
    | some call =>
      obtain ⟨rs,piece,staged,torn⟩ := staging_does staging tx
      exact .stages session staged torn
    | none =>
      dsimp only
      cases event with
      | Commit =>
        dsimp only
        cases result : commit io tx with
        | ok x u =>
          obtain ⟨rs,r,written,applied⟩ := commit_ok result
          exact .commits session written applied
        | error e u =>
          rcases commit_error result with ⟨rs,piece,staged,torn⟩ | ⟨rs,r,written,kept,unsynced,strict⟩
          · exact .ends session staged torn
          · exact .unconfirmed session written kept unsynced strict
      | Rollback =>
        have store : (after rollback tx).store = tx.store := by
          unfold after rollback
          rw [get_bind]
          cases ensure_open tx <;> rfl
        dsimp only
        rw [store]
        exact .ends session (.refl tx) (.none io)
      | Drop => exact .ends session (.refl tx) (.none io)
      | _ => exact .stays

/-! ## Sound runs -/

def Session.Sound : Session → Prop
  | .Idle store => store.Sound
  | .Busy tx => tx.Sound

theorem Session.Sound.of_store {session : Session} (sound : session.Sound) : session.store.Sound := by
  cases session with
  | Idle store => exact sound
  | Busy tx => exact sound.store

/-- The session is sound, and the file commits what it did at the start and
    then what the history says. -/
structure Run.Sound (base : List Commitment) (run : Run) : Prop where
  session : run.session.Sound
  commitments : commitments (records run.session.store.file) = base ++ run.history.map Entry.toCommitment

/-- The disk confirms every commit of this step that asks it to. -/
def Session.Confirmed (session : Session) (io : Io) : Prop :=
  session.store.options.durability = .Relaxed ∨ ∀ tx_id, io.fails (.commit_sync tx_id) = none

/-- A step keeps a run sound if it writes nothing behind a fragment and the disk confirms. -/
theorem step_sound {base : List Commitment} {run : Run} {io : Io} {event : Event} (sound : run.Sound base)
    (behind : Untouched run.session.store.file (run.step io event).session.store.file)
    (confirmed : run.session.Confirmed io) : (run.step io event).Sound base := by
  have stepped := step_cases run io event
  revert behind
  generalize run.step io event = next at stepped
  intro behind
  cases stepped with
  | stays => exact sound
  | begins idle begun =>
    have store := sound.session
    have commits := sound.commitments
    rw [idle] at store commits
    obtain ⟨begins,file⟩ := begin_sound store begun
    refine ⟨begins,?_⟩
    dsimp only [Session.store] at commits ⊢
    rw [file]
    exact commits
  | stages busy staged torn =>
    have tx := sound.session
    have commits := sound.commitments
    rw [busy] at tx commits behind
    obtain ⟨stages,same,-⟩ := tx.stages staged torn.torn behind
    exact ⟨stages,same.trans commits⟩
  | ends busy staged torn =>
    have tx := sound.session
    have commits := sound.commitments
    rw [busy] at tx commits behind
    obtain ⟨stages,same,-⟩ := tx.stages staged torn.torn behind
    exact ⟨stages.store,same.trans commits⟩
  | commits busy written applied =>
    have tx := sound.session
    have commits := sound.commitments
    rw [busy] at tx commits behind
    obtain ⟨committed,-,added⟩ := tx.commits written behind applied
    refine ⟨committed,added.trans ?_⟩
    dsimp only [Session.store] at commits
    rw [commits,List.map_append,List.append_assoc]
    rfl
  | unconfirmed busy written kept unsynced strict =>
    rw [busy] at confirmed
    rcases confirmed with relaxed | confirms
    · exact absurd relaxed strict
    · exact absurd (confirms _) unsynced

/-- No write of this step is cut short: one that fails leaves nothing. -/
def Io.WritesWhole (io : Io) : Prop :=
  ∀ sequence, io.fails (.append_write sequence) ≠ none → io.written (.append_write sequence) = 0

omit [Hashes] in
theorem Io.Faultless.writes_whole {io : Io} (faultless : io.Faultless) : io.WritesWhole := fun _ fails => absurd (faultless.1 _) fails

theorem Piece.whole {io : Io} {piece : Bytes} (torn : Piece io piece) (writes : io.WritesWhole) : piece = [] := by
  by_contra some_bytes
  obtain ⟨sequence,fails,cut⟩ := torn.short some_bytes
  exact cut (writes sequence fails)

/-- A step whose writes are whole leaves no fragment. -/
theorem step_whole {base : List Commitment} {run : Run} {io : Io} {event : Event} (sound : run.Sound base)
    (whole : fragment run.session.store.file = []) (writes : io.WritesWhole) (confirmed : run.session.Confirmed io) :
    fragment (run.step io event).session.store.file = [] := by
  have stepped := step_cases run io event
  generalize run.step io event = next at stepped
  cases stepped with
  | stays => exact whole
  | begins idle begun =>
    have store := sound.session
    rw [idle] at store whole
    obtain ⟨-,file⟩ := begin_sound store begun
    dsimp only [Session.store] at whole ⊢
    rw [file]
    exact whole
  | stages busy staged torn =>
    have tx := sound.session
    rw [busy] at tx whole
    obtain ⟨-,-,left⟩ := tx.stages staged torn.torn (.inl whole)
    exact (left whole).trans (torn.whole writes)
  | ends busy staged torn =>
    have tx := sound.session
    rw [busy] at tx whole
    obtain ⟨-,-,left⟩ := tx.stages staged torn.torn (.inl whole)
    exact (left whole).trans (torn.whole writes)
  | commits busy written applied =>
    have tx := sound.session
    rw [busy] at tx whole
    exact (tx.commits written (.inl whole) applied).2.1
  | unconfirmed busy written kept unsynced strict =>
    rw [busy] at confirmed
    rcases confirmed with relaxed | confirms
    · exact absurd relaxed strict
    · exact absurd (confirms _) unsynced

/-- A run without faults stays sound and leaves no fragment. -/
theorem steps_whole {base : List Commitment} {run : Run} {calls : List (Io × Event)} (sound : run.Sound base)
    (whole : fragment run.session.store.file = []) (writes : ∀ call ∈ calls, call.1.WritesWhole)
    (confirms : ∀ call ∈ calls, ∀ tx_id, call.1.fails (.commit_sync tx_id) = none) :
    (run.steps calls).Sound base ∧ fragment (run.steps calls).session.store.file = [] := by
  induction calls using List.reverseRecOn with
  | nil => exact ⟨sound,whole⟩
  | append_singleton calls call ih =>
    obtain ⟨soundSoFar,wholeSoFar⟩ := ih (fun other member => writes other (by simp [member]))
      (fun other member => confirms other (by simp [member]))
    have confirmed : (run.steps calls).session.Confirmed call.1 := .inr (confirms call (by simp))
    rw [steps_snoc]
    exact ⟨step_sound soundSoFar (.inl wholeSoFar) confirmed,
      step_whole soundSoFar wholeSoFar (writes call (by simp)) confirmed⟩

/-- The map after a sound run is what the history leaves of the map before it. -/
theorem Run.Sound.state {base : List Commitment} {run : Run} (sound : run.Sound base) :
    run.session.store.state = applyCommitments (applyCommitments ∅ base) (run.history.map Entry.toCommitment) := by
  have store := sound.session.of_store
  obtain ⟨acc,replayed⟩ := store.log.replays
  rw [store.state,committedState_commitments replayed,sound.commitments,applyCommitments_append]

/-- A sound store, before anything is done with it. -/
theorem Store.Sound.run {store : Store} (sound : store.Sound) (history : List Entry) {base : List Commitment}
    (same : VoodooStore.commitments (records store.file) = base ++ history.map Entry.toCommitment) :
    Run.Sound base ⟨.Idle store,history⟩ := ⟨sound,same⟩

end

end VoodooStore
