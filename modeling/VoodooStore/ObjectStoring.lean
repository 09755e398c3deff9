import VoodooStore.Interruption
import VoodooStore.ObjectRuns
import VoodooStore.Refusals

/-!
# Storing an object with its metadata

`put_object_with_metadata` stores an object and then its metadata, in a
transaction each. Whatever stops it between the two leaves the object without
its metadata, and because the object is then there, the call made again does not
store them either. So the two are stored as one only if there are no metadata,
or if the object itself cannot be stored (`stored_as_one_iff`).
-/
namespace VoodooStore
open Effects Objects
set_option linter.unusedSimpArgs false

/-! ### The same world without faults -/

def Io.relieved (io : Io) : Io := { io with fails := fun _ => none }

section
variable [Hashes]

theorem append_relieved {io : Io} {kind : RecordKind} {tx_id : UInt64} {payload : Bytes} {s t : Store} {x : Unit}
    (done : append io kind tx_id payload s = .ok x t) : append io.relieved kind tx_id payload s = .ok x t := by
  rw [append,get_bind] at done ⊢
  cases next : s.next_sequence.checked_add 1 with
  | none =>
    rw [next] at done
    cases done
  | some following =>
    rw [next] at done
    dsimp only at done ⊢
    rw [modify_bind] at done ⊢
    obtain ⟨bytes,encoded,done⟩ := lift_bind_ok.mp done
    refine lift_bind_ok.mpr ⟨bytes,encoded,?_⟩
    rw [get_bind] at done ⊢
    obtain ⟨_,within_quota,done⟩ := lift_bind_ok.mp done
    obtain ⟨_,_,sought,done⟩ := bind_ok.mp done
    obtain ⟨-,rfl⟩ := attempt_ok.mp sought
    refine lift_bind_ok.mpr ⟨(),?_,bind_ok.mpr ⟨(),_,attempt_ok.mpr ⟨rfl,rfl⟩,?_⟩⟩
    · unfold Store.check_storage_quota at within_quota ⊢
      cases bound : s.options.max_bytes with
      | none => rfl
      | some max_bytes =>
        rw [bound] at within_quota
        dsimp only at within_quota
        split at within_quota
        · cases within_quota
        · exact within_quota
    · cases writes : io.fails (.append_write s.next_sequence) with
      | some error =>
        rw [writes] at done
        obtain ⟨_,_,-,impossible⟩ := bind_ok.mp done
        cases impossible
      | none =>
        rw [writes] at done
        exact done

theorem stage_relieved {io : Io} {kind : RecordKind} {encoded : Except EngineError Bytes} {operation : Operation} {tx u : Transaction}
    {x : Unit} (done : stage io kind encoded operation tx = .ok x u) : stage io.relieved kind encoded operation tx = .ok x u := by
  rw [stage,get_bind] at done ⊢
  obtain ⟨_,isOpen,done⟩ := lift_bind_ok.mp done
  obtain ⟨payload,spelled,done⟩ := lift_bind_ok.mp done
  rw [get_bind] at done
  obtain ⟨_,middle,appended,done⟩ := bind_ok.mp done
  obtain ⟨store,appends,rfl⟩ := zoom_ok.mp appended
  refine lift_bind_ok.mpr ⟨(),isOpen,lift_bind_ok.mpr ⟨payload,spelled,?_⟩⟩
  rw [get_bind]
  exact bind_ok.mpr ⟨(),_,zoom_ok.mpr ⟨store,append_relieved appends,rfl⟩,done⟩

theorem stage_changes_relieved {io : Io} {sequence : UInt32} {operations : List Operation} {tx u : Transaction} {x : Unit}
    (done : stage_changes_from io sequence operations tx = .ok x u) : stage_changes_from io.relieved sequence operations tx = .ok x u := by
  induction operations generalizing sequence tx with
  | nil => exact done
  | cons operation operations ih =>
    rw [stage_changes_from,get_bind] at done ⊢
    cases found : change_for tx.tx_id sequence operation with
    | none =>
      rw [found] at done
      exact ih done
    | some change =>
      rw [found] at done
      dsimp only at done ⊢
      obtain ⟨encoded,spelled,done⟩ := lift_bind_ok.mp done
      obtain ⟨_,middle,staged,done⟩ := bind_ok.mp done
      refine lift_bind_ok.mpr ⟨encoded,spelled,bind_ok.mpr ⟨(),middle,stage_relieved staged,?_⟩⟩
      cases next : sequence.checked_add 1 with
      | none =>
        rw [next] at done
        cases done
      | some following =>
        rw [next] at done
        exact ih done

theorem stage_own_changes_relieved {io : Io} {tx u : Transaction} {x : Unit} (done : stage_own_changes io tx = .ok x u) :
    stage_own_changes io.relieved tx = .ok x u := by
  rw [stage_own_changes,get_bind] at done ⊢
  by_cases emits : tx.emit_cdc = true
  · rw [if_pos emits] at done ⊢
    exact stage_changes_relieved done
  · rw [if_neg emits] at done ⊢
    exact done

/-- A commit that fails wrote no commit record, or would have succeeded if the file had been forced to the disk. -/
theorem commit_relieved {io : Io} {tx u : Transaction} {e : EngineError} (failed : commit io tx = .error e u) :
    (∃ rs piece, Staged tx u rs piece ∧ Piece io piece) ∨
      ∃ w, commit io.relieved tx = .ok () w ∧ w.store.file = u.store.file := by
  unfold commit at failed ⊢
  cases inner : commit_inner io tx with
  | ok y v => rw [inner] at failed; cases failed
  | error e left =>
    rw [inner] at failed
    cases failed
    rw [commit_inner,get_bind,lift_bind_error] at inner
    rcases inner with ⟨-,rfl⟩ | ⟨_,isOpen,inner⟩
    · exact .inl ⟨[],[],.forget (.refl left) _,.none io⟩
    rcases bind_error.mp inner with early | ⟨_,middle,staging,inner⟩
    · obtain ⟨rs,piece,staged,torn⟩ := stage_own_changes_error early
      exact .inl ⟨rs,piece,staged.forget _,torn⟩
    obtain ⟨rs,staged,-,-⟩ := stage_own_changes_ok staging
    rw [get_bind,lift_bind_error] at inner
    rcases inner with ⟨-,rfl⟩ | ⟨_,quota,inner⟩
    · exact .inl ⟨rs,[],staged.forget _,.none io⟩
    rcases bind_error.mp inner with early | ⟨_,last,appending,inner⟩
    · obtain ⟨store,appended,rfl⟩ := zoom_error.mp early
      obtain ⟨piece,grown,torn⟩ := append_error appended
      have alone : Staged middle { middle with store := store } [] piece :=
        ⟨grown,by simp,by simp,by simp,rfl,rfl,rfl⟩
      exact .inl ⟨rs ++ [],piece,.forget (staged.trans alone) _,torn⟩
    rcases bind_error.mp inner with unsynced | ⟨_,_,-,impossible⟩
    · obtain ⟨-,-,rfl⟩ := sync_error unsynced
      obtain ⟨store,appended,rfl⟩ := zoom_ok.mp appending
      have relieved : commit_inner io.relieved tx = .ok () { middle with
          store := { store with state := apply_operations store.state middle.operations }, finished := true } := by
        rw [commit_inner,get_bind]
        refine lift_bind_ok.mpr ⟨(),isOpen,bind_ok.mpr ⟨(),middle,stage_own_changes_relieved staging,?_⟩⟩
        rw [get_bind]
        refine lift_bind_ok.mpr ⟨(),quota,bind_ok.mpr ⟨(),_,zoom_ok.mpr ⟨store,append_relieved appended,rfl⟩,?_⟩⟩
        exact bind_ok.mpr ⟨(),_,sync_ok.mpr ⟨.inr rfl,rfl⟩,rfl⟩
      right
      rw [relieved]
      exact ⟨_,rfl,rfl⟩
    · cases impossible

/-- A put of its own is there as a whole or not at all, whatever the world does;
    and where it can be found after a crash, it would have succeeded without faults. -/
theorem put_interrupted {io : Io} {key value : Bytes} {store : Store} {state : State} (sound : store.Sound)
    (whole : fragment store.file = []) (interrupted : Interrupted (put_alone io key value) store state) :
    state = store.state ∨ ∃ world t, put_alone world key value store = .ok () t ∧ state = t.state := by
  obtain ⟨cut,synced,rfl⟩ := interrupted
  unfold after put_alone
  cases begun : begin_tx store with
  | error e =>
    rw [within_unbegun begun]
    exact .inl ((recovered_uncommitted sound.file sound.file rfl synced).trans sound.recovered)
  | ok tx =>
    obtain ⟨begins,file⟩ := begin_sound sound begun
    have whole_tx : fragment tx.store.file = [] := by rw [file]; exact whole
    rw [within_begun begun]
    cases staged : put_internal io key value tx with
    | error e u =>
      obtain ⟨piece,short,torn⟩ := stage_error staged
      obtain ⟨bodySound,commits,-⟩ := begins.stages short torn.torn (.inl whole_tx)
      rw [file] at commits
      rw [bind_of_error staged]
      left
      rw [← sound.recovered]
      exact recovered_uncommitted sound.file bodySound.store.file commits synced
    | ok x u =>
      obtain ⟨r,body,-⟩ := stage_ok (put_spells key value) staged
      obtain ⟨bodySound,commits,bodyWhole⟩ := begins.stages body recordHead_nil (.inl whole_tx)
      have bodyWhole := bodyWhole whole_tx
      rw [file] at commits
      -- A commit that is written leads to the map before it or to the map of the store that it would leave.
      have written : ∀ (world : Io) (w : Transaction), put_internal world key value tx = .ok () u → commit world u = .ok () w →
          recoveredState (w.store.file.take cut) = store.state ∨
            ∃ world t, put_alone world key value store = .ok () t ∧ recoveredState (w.store.file.take cut) = t.state := by
        intro world w puts committed
        obtain ⟨rs,c,written,applied⟩ := commit_ok committed
        obtain ⟨done,-,added⟩ := bodySound.commits written (.inl bodyWhole) applied
        rw [commits] at added
        rcases recovered_committed sound.file done.file added synced with before | behind
        · left
          rw [← sound.recovered]
          exact before
        · right
          refine ⟨world,w.store,?_,?_⟩
          · unfold put_alone
            rw [within_begun begun,bind_of_ok puts,bind_of_ok (rethrow_ok.mpr committed)]
            rfl
          · rw [← done.recovered]
            exact behind
      rw [bind_of_ok staged]
      cases committed : commit io u with
      | ok y w =>
        rw [bind_of_ok (rethrow_ok.mpr committed)]
        exact written io w staged committed
      | error e w =>
        rw [bind_of_error (rethrow_error.mpr ⟨e,committed,rfl⟩)]
        rcases commit_relieved committed with ⟨rs,piece,short,torn⟩ | ⟨v,relieved,same⟩
        · obtain ⟨done,later,-⟩ := bodySound.stages short torn.torn (.inl bodyWhole)
          left
          rw [← sound.recovered]
          exact recovered_uncommitted sound.file done.store.file (later.trans commits) synced
        · show recoveredState (w.store.file.take cut) = store.state ∨ _
          rw [← same]
          exact written io.relieved v (stage_relieved staged) relieved

/-! ### Both or neither -/

/-- Neither the object nor its metadata are there. -/
def Nowhere (state : State) (id : ObjectId) : Prop := state[Objects.object_key id]? = none ∧ state[metadata_key id]? = none

/-- The object is there, and the store reports these metadata of it. -/
def Describes (store : Store) (content : Bytes) (metadata : MetadataEntries) : Prop :=
  store.object_info (object_id content) = .ok (some ⟨object_id content,.ofNat content.length,metadata⟩)

/-- However the call ends, with an error or in a crash, it has stored the object
    with its metadata or nothing at all; and made again it stores both. -/
structure StoredAsOne (store : Store) (content : Bytes) (given metadata : MetadataEntries) : Prop where
  refused : ∀ io metadata_io e t, Store.put_object_with_metadata io metadata_io content given store = .error e t →
    Nowhere t.state (object_id content)
  recovered : ∀ io metadata_io (t : Store), Interrupted (Store.put_object_with_metadata io metadata_io content given) store t.state →
    Nowhere t.state (object_id content) ∨ Describes t content metadata
  retried : ∀ io metadata_io (t : Store), (∃ e, Store.put_object_with_metadata io metadata_io content given store = .error e t) ∨
    Interrupted (Store.put_object_with_metadata io metadata_io content given) store t.state →
    ∀ io metadata_io id u, Store.put_object_with_metadata io metadata_io content given t = .ok id u → Describes u content metadata

/-- Whatever the world does, the transaction of the object itself is refused. -/
def Unstorable (store : Store) (content : Bytes) : Prop :=
  ∀ io encoded t, Objects.encode_object content = .ok encoded →
    put_alone io (Objects.object_key (object_id content)) encoded store ≠ .ok () t

theorem describes_of {store : Store} {content : Bytes} {metadata : MetadataEntries} (fits : content.length < 2 ^ 64)
    (there : store.state[Objects.object_key (object_id content)]? = some (spelledObject content))
    (described : store.metadata_of (object_id content) = .ok metadata) : Describes store content metadata := by
  unfold Describes Store.object_info Store.get_object
  rw [show store.get (Objects.object_key (object_id content)) = some (spelledObject content) from there,Option.mapM_some,
    decode_spelled_object fits]
  show (do let metadata ← store.metadata_of (object_id content); pure (some _) : Except ObjectError (Option ObjectInfo)) = _
  rw [described]
  rfl

/-- An object alone, where there was nothing. -/
theorem put_describes {io : Io} {store t : Store} {content : Bytes} {x : Unit} (fits : content.length < 2 ^ 64)
    (nowhere : Nowhere store.state (object_id content))
    (done : put_alone io (Objects.object_key (object_id content)) (spelledObject content) store = .ok x t) :
    Describes t content [] := by
  have stored := put_alone_ok done
  refine describes_of fits ?_ (metadata_of_none ?_)
  · rw [stored _ (object_key_outside _),get_insert,if_pos rfl]
  · rw [stored _ (metadata_key_outside _),get_insert,if_neg (object_not_metadata _ _)]
    exact nowhere.2

/-- A call that succeeds where there was nothing stores both. -/
theorem stored_from_nowhere {io metadata_io : Io} {store t : Store} {content : Bytes} {given metadata : MetadataEntries} {id : ObjectId}
    (normalized : normalize_metadata given = .ok metadata) (nowhere : Nowhere store.state (object_id content))
    (done : Store.put_object_with_metadata io metadata_io content given store = .ok id t) : Describes t content metadata := by
  unfold Store.put_object_with_metadata at done
  obtain ⟨values,same,done⟩ := lift_bind_ok.mp done
  rw [normalized] at same
  cases same
  rw [get_bind,if_pos (by rw [show store.get _ = none from nowhere.1]; rfl)] at done
  obtain ⟨encoded,spelled,done⟩ := lift_bind_ok.mp done
  obtain ⟨fits,rfl⟩ := object_encoded.mp spelled
  obtain ⟨_,middle,written,done⟩ := bind_ok.mp done
  have stored := put_alone_ok (rethrow_ok.mp written)
  by_cases empty : metadata = []
  · rw [if_neg (by simpa using empty)] at done
    cases done
    rw [empty]
    exact put_describes fits nowhere (rethrow_ok.mp written)
  · rw [if_pos empty] at done
    obtain ⟨encoded,spelled,done⟩ := lift_bind_ok.mp done
    obtain ⟨_,last,added,done⟩ := bind_ok.mp done
    cases done
    have kept := put_alone_ok (rethrow_ok.mp added)
    refine describes_of fits ?_ (metadata_of_some (normalize_normal normalized) spelled ?_)
    · rw [kept _ (object_key_outside _),get_insert,if_neg (object_not_metadata _ _).symm,stored _ (object_key_outside _),
        get_insert,if_pos rfl]
    · rw [kept _ (metadata_key_outside _),get_insert,if_pos rfl]

/-- A call that finds the object stores nothing. -/
theorem stored_already {io metadata_io : Io} {store t : Store} {content : Bytes} {given : MetadataEntries} {id : ObjectId} {value : Bytes}
    (there : store.state[Objects.object_key (object_id content)]? = some value)
    (done : Store.put_object_with_metadata io metadata_io content given store = .ok id t) : t = store := by
  unfold Store.put_object_with_metadata at done
  obtain ⟨metadata,-,done⟩ := lift_bind_ok.mp done
  rw [get_bind,if_neg (by rw [show store.get _ = some value from there]; simp)] at done
  cases done
  rfl

theorem Describes.there {store : Store} {content : Bytes} {metadata : MetadataEntries} (described : Describes store content metadata) :
    ∃ value, store.state[Objects.object_key (object_id content)]? = some value := by
  unfold Describes Store.object_info Store.get_object at described
  cases found : store.get (Objects.object_key (object_id content)) with
  | none =>
    rw [found] at described
    cases described
  | some value => exact ⟨value,found⟩

/-- What there is of a call with no metadata, or whose object cannot be stored, is one transaction. -/
theorem stores_in_one_transaction {io metadata_io : Io} {store : Store} {content : Bytes} {given metadata : MetadataEntries}
    (normalized : normalize_metadata given = .ok metadata) (nowhere : Nowhere store.state (object_id content))
    (one : metadata = [] ∨ Unstorable store content) :
    (∃ e, Store.put_object_with_metadata io metadata_io content given store = .error e store) ∨
    content.length < 2 ^ 64 ∧ Store.put_object_with_metadata io metadata_io content given store =
      (do rethrow .Store (put_alone io (Objects.object_key (object_id content)) (spelledObject content))
          return object_id content : EStateM ObjectError Store ObjectId) store := by
  unfold Store.put_object_with_metadata
  rw [lift_bind_run,normalized]
  dsimp only
  rw [get_bind,if_pos (by rw [show store.get _ = none from nowhere.1]; rfl),lift_bind_run]
  cases spelled : Objects.encode_object content with
  | error e => exact .inl ⟨e,rfl⟩
  | ok encoded =>
    obtain ⟨fits,rfl⟩ := object_encoded.mp spelled
    refine .inr ⟨fits,?_⟩
    dsimp only
    rcases one with rfl | unstorable
    · rw [if_neg (by simp)]
    · cases written : put_alone io (Objects.object_key (object_id content)) (spelledObject content) store with
      | ok x t => exact absurd written (unstorable io _ t spelled)
      | error e t =>
        have failed : rethrow ObjectError.Store (put_alone io (Objects.object_key (object_id content)) (spelledObject content)) store =
            .error (.Store e) t := rethrow_error.mpr ⟨e,written,rfl⟩
        rw [bind_of_error failed,bind_of_error failed]

theorem StoredAsOne.of_one_transaction {store : Store} {content : Bytes} {given metadata : MetadataEntries} (sound : store.Sound)
    (whole : fragment store.file = []) (normalized : normalize_metadata given = .ok metadata)
    (nowhere : Nowhere store.state (object_id content)) (one : metadata = [] ∨ Unstorable store content) :
    StoredAsOne store content given metadata := by
  have refused : ∀ io metadata_io e t, Store.put_object_with_metadata io metadata_io content given store = .error e t →
      Nowhere t.state (object_id content) := by
    intro io metadata_io e t failed
    rcases stores_in_one_transaction normalized nowhere one with ⟨_,early⟩ | ⟨-,same⟩
    · rw [early] at failed
      cases failed
      exact nowhere
    · rw [same] at failed
      rcases bind_error.mp failed with failed | ⟨_,_,-,impossible⟩
      · obtain ⟨_,failed,-⟩ := rethrow_error.mp failed
        rw [put_alone_error failed]
        exact nowhere
      · cases impossible
  have recovered : ∀ io metadata_io (t : Store), Interrupted (Store.put_object_with_metadata io metadata_io content given) store t.state →
      Nowhere t.state (object_id content) ∨ Describes t content metadata := by
    rintro io metadata_io t ⟨cut,synced,found⟩
    unfold after at found
    rcases stores_in_one_transaction normalized nowhere one with ⟨_,early⟩ | ⟨fits,same⟩
    · rw [early] at found
      left
      rw [← found,recovered_uncommitted sound.file sound.file rfl synced,sound.recovered]
      exact nowhere
    · rw [same] at found
      have interrupted : Interrupted (put_alone io (Objects.object_key (object_id content)) (spelledObject content)) store t.state := by
        refine ⟨cut,synced,?_⟩
        rw [← found]
        unfold after
        cases written : put_alone io (Objects.object_key (object_id content)) (spelledObject content) store with
        | ok x u => rw [bind_of_ok (rethrow_ok.mpr written)]; rfl
        | error e u => rw [bind_of_error (rethrow_error.mpr ⟨e,written,rfl⟩)]
      rcases put_interrupted sound whole interrupted with before | ⟨world,u,written,behind⟩
      · left
        rw [before]
        exact nowhere
      · rcases one with rfl | unstorable
        · right
          have described := put_describes fits nowhere written
          unfold Describes Store.object_info Store.get_object Store.metadata_of Store.get at described ⊢
          rw [behind]
          exact described
        · exact absurd written (unstorable world _ u (object_encoded.mpr ⟨fits,rfl⟩))
  refine ⟨refused,recovered,?_⟩
  intro io metadata_io t ended io' metadata_io' id u done
  have either : Nowhere t.state (object_id content) ∨ Describes t content metadata := by
    rcases ended with ⟨e,failed⟩ | crashed
    · exact .inl (refused io metadata_io e t failed)
    · exact recovered io metadata_io t crashed
  rcases either with gone | described
  · exact stored_from_nowhere normalized gone done
  · obtain ⟨value,there⟩ := described.there
    rw [stored_already there done]
    exact described

/-- A world in which nothing can be appended. -/
def stuck : Io := { calm with fails := fun call => match call with
  | .append_seek _ => some ⟨.Other,"seek"⟩
  | _ => none }

theorem stuck_append_fails {kind : RecordKind} {tx_id : UInt64} {payload : Bytes} {s t : Store} {x : Unit} :
    append stuck kind tx_id payload s ≠ .ok x t := by
  intro done
  rw [append,get_bind] at done
  cases next : s.next_sequence.checked_add 1 with
  | none =>
    rw [next] at done
    cases done
  | some following =>
    rw [next] at done
    dsimp only at done
    rw [modify_bind] at done
    obtain ⟨bytes,-,done⟩ := lift_bind_ok.mp done
    rw [get_bind] at done
    obtain ⟨_,-,done⟩ := lift_bind_ok.mp done
    obtain ⟨_,_,sought,-⟩ := bind_ok.mp done
    cases (attempt_ok.mp sought).1

theorem stuck_put_fails (key value : Bytes) (store : Store) :
    ∃ e t, put_alone stuck key value store = .error e t ∧ t.state = store.state := by
  cases done : put_alone stuck key value store with
  | error e t => exact ⟨e,t,rfl,put_alone_error done⟩
  | ok x t =>
    obtain ⟨tx,u,-,staged,-⟩ := within_ok done
    unfold put_internal stage at staged
    rw [get_bind] at staged
    obtain ⟨_,-,staged⟩ := lift_bind_ok.mp staged
    obtain ⟨payload,-,staged⟩ := lift_bind_ok.mp staged
    rw [get_bind] at staged
    obtain ⟨_,_,appended,-⟩ := bind_ok.mp staged
    obtain ⟨_,appends,-⟩ := zoom_ok.mp appended
    exact absurd appends stuck_append_fails

/-- Where the object can be stored and there are metadata, a failure between the two leaves the object alone. -/
theorem object_left_alone {io : Io} {store middle : Store} {content : Bytes} {given metadata : MetadataEntries} {x : Unit}
    (normalized : normalize_metadata given = .ok metadata) (absent : store.state[Objects.object_key (object_id content)]? = none)
    (some_given : metadata ≠ []) (fits : content.length < 2 ^ 64)
    (written : put_alone io (Objects.object_key (object_id content)) (spelledObject content) store = .ok x middle) :
    ∃ e t, Store.put_object_with_metadata io stuck content given store = .error e t ∧
      t.state[Objects.object_key (object_id content)]? = some (spelledObject content) := by
  have there : middle.state[Objects.object_key (object_id content)]? = some (spelledObject content) := by
    rw [put_alone_ok written _ (object_key_outside _),get_insert,if_pos rfl]
  unfold Store.put_object_with_metadata
  rw [lift_bind_run,normalized]
  dsimp only
  rw [get_bind,if_pos (by rw [show store.get _ = none from absent]; rfl),lift_bind_run,object_encoded.mpr ⟨fits,rfl⟩]
  dsimp only
  rw [bind_of_ok (rethrow_ok.mpr written),if_pos some_given,lift_bind_run]
  cases spelled : encode_metadata metadata with
  | error e => exact ⟨e,middle,rfl,there⟩
  | ok encoded =>
    dsimp only
    obtain ⟨e,t,failed,same⟩ := stuck_put_fails (metadata_key (object_id content)) encoded middle
    rw [bind_of_error (rethrow_error.mpr ⟨e,failed,rfl⟩)]
    exact ⟨.Store e,t,rfl,same ▸ there⟩

theorem Linked.nowhere {state : State} (linked : Linked state) {id : ObjectId} (absent : state[Objects.object_key id]? = none) :
    Nowhere state id := by
  refine ⟨absent,?_⟩
  cases found : state[metadata_key id]? with
  | none => rfl
  | some value =>
    obtain ⟨other,_,same,-,-,value,there⟩ := linked.metadata _ value (metadata_key_own id) found
    rw [← metadata_key_injective same,absent] at there
    cases there

/-- In every state reached from a new store in which the content is not yet
    stored: storing it with accepted metadata is atomic exactly if there are
    none, or if the object itself cannot be stored. -/
theorem stored_as_one_iff {io : Io} {path : Path} {options : StoreOptions} {store reached : Store} {left : Bytes}
    (opened : open_with_options io path options [] = .ok store left) {moves : List (Move ObjectCall ObjectTxCall)}
    (along : (Play.mk (.Idle store) []).Along objects objectTerms moves)
    (idle : (Play.steps objects ⟨.Idle store,[]⟩ moves).session = .Idle reached) {content : Bytes} {given metadata : MetadataEntries}
    (normalized : normalize_metadata given = .ok metadata) (absent : reached.get (Objects.object_key (object_id content)) = none) :
    StoredAsOne reached content given metadata ↔ metadata = [] ∨ Unstorable reached content := by
  obtain ⟨session,whole,linked,-⟩ := play_invariant objects_preserved ⟨linked_empty,by simp⟩ opened along
  rw [idle] at session whole linked
  constructor
  · intro one
    by_cases empty : metadata = []
    · exact .inl empty
    · right
      intro world encoded middle spelled written
      obtain ⟨fits,rfl⟩ := object_encoded.mp spelled
      obtain ⟨e,t,failed,there⟩ := object_left_alone normalized absent empty fits written
      rw [(one.refused world stuck e t failed).1] at there
      cases there
  · exact StoredAsOne.of_one_transaction session whole normalized (linked.nowhere absent)

end

/-- An object for which the file has no room cannot be stored. -/
theorem unstorable_of_full [Hashes] {store : Store} {content payload : Bytes}
    (encodes : ∀ encoded, Objects.encode_object content = .ok encoded →
      encode_put (Objects.object_key (object_id content)) encoded = .ok payload) (full : store.full_for payload = true) :
    Unstorable store content := by
  intro io encoded t spelled written
  obtain ⟨tx,u,begun,staged,-⟩ := within_ok written
  have room := (stage_grows staged).1 payload (encodes encoded spelled)
  rw [begin_full begun,full] at room
  cases room

/-- Another object is there. -/
def otherObject : List (Move ObjectCall ObjectTxCall) := [.Call (.PutObject calm [2])]

/-- A file of 400 bytes at most. -/
def crampedStore : StoreOptions := ⟨.Data,true,some 400,none⟩

set_option maxRecDepth 20000 in
/-- An object without metadata is stored as one, and so is one with metadata for which the file has no room. -/
theorem bare_object_stored_as_one : (∃ store left reached, @open_with_options crates calm ["a.vstore"] .default [] = .ok store left ∧
      (@Play.steps crates _ _ _ _ (@objects crates) ⟨.Idle store,[]⟩ otherObject).session = .Idle reached ∧
      @StoredAsOne crates reached [1] [] []) ∧
    ∃ store left reached, @open_with_options crates calm ["a.vstore"] crampedStore [] = .ok store left ∧
      (@Play.steps crates _ _ _ _ (@objects crates) ⟨.Idle store,[]⟩ otherObject).session = .Idle reached ∧
      reached.get (Objects.object_key (@object_id crates [2])) ≠ none ∧ @StoredAsOne crates reached [1] [([97],[98])] [([97],[98])] := by
  have fine : ∀ store, @Play.Along crates _ _ _ _ (@objects crates) objectTerms ⟨.Idle store,[]⟩ otherObject :=
    fun _ => ⟨calm_durable,trivial⟩
  constructor
  · have evaluated : passes (@open_with_options crates calm ["a.vstore"] .default []) (fun store _ =>
        (@Play.steps crates _ _ _ _ (@objects crates) ⟨.Idle store,[]⟩ otherObject).session.idle.any (fun reached =>
          decide (reached.get (Objects.object_key (@object_id crates [1])) = none))) = true := by
      rw [crates_eq_quick]
      decide +kernel
    obtain ⟨store,left,opened,evaluated⟩ := passes_iff.mp evaluated
    obtain ⟨reached,idle,absent⟩ := (Option.any_eq_true _ _).mp evaluated
    have idle := Session.idle_iff.mp idle
    refine ⟨store,left,reached,opened,idle,?_⟩
    exact (@stored_as_one_iff crates _ _ _ _ reached _ opened _ (fine store) idle [1] [] [] (by simp [normalize_metadata,check_metadata])
      (of_decide_eq_true absent)).mpr (.inl rfl)
  · have evaluated : passes (@open_with_options crates calm ["a.vstore"] crampedStore []) (fun store _ =>
        (@Play.steps crates _ _ _ _ (@objects crates) ⟨.Idle store,[]⟩ otherObject).session.idle.any (fun reached =>
          decide (reached.get (Objects.object_key (@object_id crates [1])) = none) &&
            decide (reached.get (Objects.object_key (@object_id crates [2])) ≠ none) &&
            (Objects.encode_object [1]).toOption.any (fun encoded =>
              (encode_put (Objects.object_key (@object_id crates [1])) encoded).toOption.any (fun payload => reached.full_for payload)))) =
        true := by
      rw [crates_eq_quick]
      decide +kernel
    obtain ⟨store,left,opened,evaluated⟩ := passes_iff.mp evaluated
    obtain ⟨reached,idle,evaluated⟩ := (Option.any_eq_true _ _).mp evaluated
    obtain ⟨evaluated,spelled⟩ := Bool.and_eq_true_iff.mp evaluated
    obtain ⟨absent,other⟩ := Bool.and_eq_true_iff.mp evaluated
    obtain ⟨encoded,made,put⟩ := any_ok_iff.mp spelled
    obtain ⟨payload,put,full⟩ := any_ok_iff.mp put
    have idle := Session.idle_iff.mp idle
    refine ⟨store,left,reached,opened,idle,of_decide_eq_true other,?_⟩
    refine (@stored_as_one_iff crates _ _ _ _ reached _ opened _ (fine store) idle [1] _ _ (by decide +kernel)
      (of_decide_eq_true absent)).mpr (.inr (@unstorable_of_full crates reached [1] payload ?_ full))
    intro other again
    rw [made] at again
    cases again
    exact put

/-- The file of a new store cannot be written to after the object has been
    stored: the call fails, but the object is there. -/
theorem object_stored_without_metadata : ∃ store left, @open_with_options crates calm ["a.vstore"] .default [] = .ok store left ∧
    store.get (Objects.object_key (@object_id crates [1])) = none ∧ normalize_metadata [([97],[98])] = .ok [([97],[98])] ∧
    ¬ @StoredAsOne crates store [1] [([97],[98])] [([97],[98])] := by
  obtain ⟨store,left,opened⟩ := @sound_opens crates calm [] ["a.vstore"] .default calm_faultless (.inl rfl)
  obtain ⟨-,-,-,empty,-⟩ := @new_store crates _ _ _ _ _ opened
  have absent : store.state[Objects.object_key (@object_id crates [1])]? = none := by
    rw [empty]
    rfl
  have normalized : normalize_metadata [([97],[98])] = .ok [([97],[98])] := by decide +kernel
  refine ⟨store,left,opened,absent,normalized,?_⟩
  intro one
  have size := (@object_id crates [1]).property
  have roomy : Roomy store 1 3 := @new_store_has_room crates _ _ _ _ _ opened ⟨rfl,rfl⟩ _ _ (by decide) (by decide)
  obtain ⟨middle,written,-⟩ := @put_alone_succeeds crates calm (Objects.object_key (@object_id crates [1])) (spelledObject [1]) store 0 0
    calm_faultless ⟨by simp [Objects.object_key,OBJECT_PREFIX,INTERNAL_KEY_PREFIX,ascii,size],
      by simp [Objects.object_key,OBJECT_PREFIX,INTERNAL_KEY_PREFIX,ascii,size,spelledObject]⟩ roomy
  obtain ⟨e,t,failed,there⟩ := @object_left_alone crates calm store middle [1] _ _ () normalized absent (by simp) (by decide) written
  rw [(@StoredAsOne.refused crates _ _ _ _ one calm stuck e t failed).1] at there
  cases there

end VoodooStore
