import VoodooStore.CollectionIndexes

/-!
# Collections in use

Whatever runs on collections, their indexes are the projection of their records,
in what is committed and in what an open transaction sees, as long as none of its
calls failed halfway (`indexes_are_projections`) and the disk is durable: a
commit that is not confirmed comes back behind those that were made without it
(`unconfirmed_value_taken_twice`).
-/
namespace VoodooStore
open Effects Reading Collections
set_option linter.unusedSimpArgs false

/-! ## Calls -/

inductive CollectionCall
  | CreateCollection (io : Io) (name : Bytes) (definition : CollectionDefinition)
  | MigrateCollectionSchema (io : Io) (name : Bytes) (expected_version next_version : UInt32) (codec : Bytes)
  | DefineIndex (io : Io) (collection : Bytes) (definition : IndexDefinition)
  | UpsertRecord (io : Io) (collection primary_key value : Bytes) (indexes : List IndexValue)
  | DeleteRecord (io : Io) (collection primary_key : Bytes)

inductive CollectionTxCall
  | UpsertRecord (io : Io) (collection primary_key value : Bytes) (indexes : List IndexValue)
  | DeleteRecord (io : Io) (collection primary_key : Bytes)

inductive CollectionReply
  | Answered (answer : Bool)
  | Done

def CollectionCall.io : CollectionCall → Io
  | .CreateCollection io _ _ => io
  | .MigrateCollectionSchema io _ _ _ _ => io
  | .DefineIndex io _ _ => io
  | .UpsertRecord io _ _ _ _ => io
  | .DeleteRecord io _ _ => io

def CollectionTxCall.io : CollectionTxCall → Io
  | .UpsertRecord io _ _ _ _ => io
  | .DeleteRecord io _ _ => io

section
variable [Hashes]

def collections : Domain CollectionError CollectionCall CollectionTxCall CollectionReply where
  on_store
    | .CreateCollection io name definition => do return .Answered (← create_collection io name definition)
    | .MigrateCollectionSchema io name expected_version next_version codec => do
      return .Answered (← migrate_collection_schema io name expected_version next_version codec)
    | .DefineIndex io collection definition => do return .Answered (← define_index io collection definition)
    | .UpsertRecord io collection primary_key value indexes => do
      Store.upsert_record io collection primary_key value indexes
      return .Done
    | .DeleteRecord io collection primary_key => do return .Answered (← Store.delete_record io collection primary_key)
  on_tx
    | .UpsertRecord io collection primary_key value indexes => do
      upsert_record io collection primary_key value indexes
      return .Done
    | .DeleteRecord io collection primary_key => do return .Answered (← delete_record io collection primary_key)

/-- Others write elsewhere, and what failed halfway is not committed. -/
def collectionTerms : Terms CollectionError CollectionCall CollectionTxCall CollectionReply where
  mine := CollectionKey
  call := fun _ call => call.io.Durable
  callTx := fun _ call => call.io.Durable
  commit := Unspoiled

end

/-! ## Invariants of unspoiled transactions -/

section
variable [Hashes] {ε σ τ ρ : Type}

/-- What every call keeps if it succeeds is kept by every move, if what failed halfway is not committed. -/
theorem preserved_unspoiled {domain : Domain ε σ τ ρ} {mine : Bytes → Prop} {fine : σ → Prop} {fineTx : τ → Prop} {holds : State → Prop}
    (steady : ∀ c, fine c → Steady (domain.on_store c)) (stages : ∀ c, fineTx c → Stages (domain.on_tx c))
    (call : ∀ c, fine c → Keeps holds (domain.on_store c))
    (callTx : ∀ c, fineTx c → ∀ tx a u, domain.on_tx c tx = .ok a u → holds tx.view → holds u.view)
    (apart : ∀ key, mine key → starts_with key CDC_PREFIX = false)
    (own : ∀ s t : State, (∀ key, mine key → t[key]? = s[key]?) → holds s → holds t) :
    Preserved domain ⟨mine,fun _ => fine,fun _ => fineTx,Unspoiled⟩
      (fun state view log => holds state ∧ ∀ seen, view = some seen → Unspoiled log → holds seen) := by
  constructor
  · exact fun c _ => steady c
  · exact fun c _ => stages c
  · rintro c store log ok ⟨now,-⟩
    exact ⟨(call c ok).after (fun _ _ kept => kept) now,by simp⟩
  · rintro state log ⟨now,-⟩
    refine ⟨now,?_⟩
    rintro _ ⟨⟩ -
    exact now
  · rintro c tx log ok ⟨now,seen⟩
    refine ⟨now,?_⟩
    rintro _ ⟨⟩ unspoiled
    obtain ⟨before,whole⟩ := unspoiled_snoc unspoiled
    have start := seen _ rfl before
    unfold after
    cases result : domain.on_tx c tx with
    | ok a u => exact callTx c ok tx a u result start
    | error e u =>
      show holds u.view
      rw [(stages c ok).unspoiled result whole]
      exact start
  · rintro state view next log same ⟨now,seen⟩
    refine ⟨now,?_⟩
    rintro _ ⟨⟩ unspoiled
    exact own view _ same (seen view rfl unspoiled)
  · rintro state view next log unspoiled same ⟨-,seen⟩
    exact ⟨own view next (fun key inside => same key (apart key inside)) (seen view rfl unspoiled),by simp⟩
  · rintro state view log ⟨now,-⟩
    exact ⟨now,by simp⟩

end

/-! ## Each call -/

theorem Projected.congr {s t : State} (projected : Projected s) (same : ∀ key, CollectionKey key → t[key]? = s[key]?) : Projected t := by
  refine projected.grows ?_ ?_ ?_
  · rintro key (inside | inside)
    · exact same key (under_collections (by decide) inside)
    · exact same key (under_collections (by decide) inside)
  · intro collection there
    rw [same _ (meta_key_own collection)]
    exact there
  · intro collection index _
    exact same _ (index_meta_own collection index)

/-- A key of one kind is inserted, and those of another kind stay. -/
theorem insert_kind_apart {s : State} {front other inserted key : Bytes} (value : Bytes) (own : front <+: inserted) (inside : other <+: key)
    (apart : ¬ front <+: other ∧ ¬ other <+: front) : (s.insert inserted value)[key]? = s[key]? := by
  rw [get_insert,if_neg (key_kinds_apart apart own inside)]

/-- A new definition of a collection keeps the projection, whether there was one or not. -/
theorem Projected.define {s : State} (projected : Projected s) (name value : Bytes) : Projected (s.insert (metaKey name) value) := by
  have own : META_PREFIX <+: metaKey name := List.prefix_append _ _
  refine projected.grows ?_ ?_ ?_
  · rintro key (inside | inside)
    · exact insert_kind_apart value own inside (by decide)
    · exact insert_kind_apart value own inside (by decide)
  · intro collection there
    rw [get_insert]
    split
    · simp
    · exact there
  · intro collection index _
    exact insert_kind_apart value own (List.prefix_append INDEX_META_PREFIX _) (by decide)

theorem Projected.note {s : State} (projected : Projected s) (name : Bytes) (from_version to_version : UInt32) (value : Bytes) :
    Projected (s.insert (migrationKey name from_version to_version) value) := by
  have own : MIGRATION_PREFIX <+: migrationKey name from_version to_version := List.prefix_append _ _
  refine projected.grows ?_ ?_ ?_
  · rintro key (inside | inside)
    · exact insert_kind_apart value own inside (by decide)
    · exact insert_kind_apart value own inside (by decide)
  · intro collection there
    have same := @insert_kind_apart s _ _ _ (metaKey collection) value own (List.prefix_append META_PREFIX _) (by decide)
    rw [same]
    exact there
  · intro collection index _
    exact insert_kind_apart value own (List.prefix_append INDEX_META_PREFIX _) (by decide)

/-- No record lists an index that is not there yet. -/
theorem Projected.add_index {s : State} (projected : Projected s) {collection index : Bytes} (missing : s[indexMetaKey collection index]? = none)
    (value : Bytes) : Projected (s.insert (indexMetaKey collection index) value) := by
  have own : INDEX_META_PREFIX <+: indexMetaKey collection index := List.prefix_append _ _
  refine projected.grows ?_ ?_ ?_
  · rintro key (inside | inside)
    · exact insert_kind_apart value own inside (by decide)
    · exact insert_kind_apart value own inside (by decide)
  · intro name there
    have same := @insert_kind_apart s _ _ _ (metaKey name) value own (List.prefix_append META_PREFIX _) (by decide)
    rw [same]
    exact there
  · intro name second there
    rw [get_insert,if_neg]
    intro same
    rw [← same] at there
    exact there missing

theorem upsert_in_projected {s t : State} {collection primary_key value : Bytes} {indexes : List IndexValue} {x : Unit} (projected : Projected s)
    (done : upsertIn collection primary_key value indexes s = .ok x t) : Projected t := by
  obtain ⟨old,replaces⟩ := upsert_in_ok done
  exact replaces.projected projected

theorem delete_in_projected {s t : State} {collection primary_key : Bytes} {deleted : Bool} (projected : Projected s)
    (done : deleteIn collection primary_key s = .ok deleted t) : Projected t := by
  rcases delete_in_ok done with rfl | ⟨old,replaces⟩
  · exact projected
  · exact replaces.projected projected

theorem create_in_ok {s t : State} {name : Bytes} {definition : CollectionDefinition} {created : Bool}
    (done : createIn name definition s = .ok created t) : (created = false ∧ t = s) ∨ (created = true ∧ name ≠ [] ∧ name.length < 2 ^ 32 ∧
      s[metaKey name]? = none ∧ definition.codec.length < 2 ^ 32 ∧ t = s.insert (metaKey name) definition.spelling) := by
  unfold createIn at done
  obtain ⟨_,validated,done⟩ := lift_bind_ok.mp done
  obtain ⟨key,made,done⟩ := lift_bind_ok.mp done
  obtain ⟨short,rfl⟩ := meta_key_ok.mp made
  rw [get_bind] at done
  split at done
  · cases done
    exact .inl ⟨rfl,rfl⟩
  · rename_i missing
    obtain ⟨encoded,spelled,done⟩ := lift_bind_ok.mp done
    obtain ⟨fits,rfl⟩ := encode_definition_ok.mp spelled
    cases done
    refine .inr ⟨rfl,?_,short,by simpa using missing,fits,rfl⟩
    rintro rfl
    cases validated

/-- A migration is refused because its version is stale, or it advances the version and leaves a record of it. -/
theorem migrate_in_ok {s t : State} {name codec : Bytes} {expected_version next_version : UInt32} {migrated : Bool}
    (done : migrateIn name expected_version next_version codec s = .ok migrated t) : ∃ definition, name.length < 2 ^ 32 ∧
      definition.codec.length < 2 ^ 32 ∧ s[metaKey name]? = some (CollectionDefinition.spelling definition) ∧
      ((migrated = false ∧ definition.schema_version ≠ expected_version ∧ t = s) ∨
        (migrated = true ∧ definition.schema_version = expected_version ∧ expected_version < next_version ∧ codec.length < 2 ^ 32 ∧
          t = (s.insert (metaKey name) (CollectionDefinition.spelling ⟨next_version,codec⟩)).insert
            (migrationKey name expected_version next_version) (CollectionMigration.spelling ⟨expected_version,next_version,codec⟩))) := by
  unfold migrateIn at done
  obtain ⟨key,made,done⟩ := lift_bind_ok.mp done
  obtain ⟨short,rfl⟩ := meta_key_ok.mp made
  rw [get_bind] at done
  obtain ⟨current,found,done⟩ := lift_bind_ok.mp done
  rw [ok_or_ok] at found
  obtain ⟨definition,decoded,done⟩ := lift_bind_ok.mp done
  obtain ⟨coded,same⟩ := decode_definition_ok decoded
  rw [same] at found
  refine ⟨definition,short,coded,found,?_⟩
  split at done
  · rename_i stale
    cases done
    exact .inl ⟨rfl,stale,rfl⟩
  rename_i current
  split at done
  · cases done
  rename_i onward
  obtain ⟨_,_,advanced,done⟩ := bind_ok.mp done
  cases done
  obtain ⟨encoded,first,advanced⟩ := lift_bind_ok.mp (atomically_ok.mp advanced)
  obtain ⟨fits,rfl⟩ := encode_definition_ok.mp first
  rw [modify_bind] at advanced
  obtain ⟨entry_key,spelled,advanced⟩ := lift_bind_ok.mp advanced
  obtain ⟨-,rfl⟩ := migration_key_ok.mp spelled
  obtain ⟨entry,second,advanced⟩ := lift_bind_ok.mp advanced
  obtain ⟨-,rfl⟩ := encode_migration_ok.mp second
  cases advanced
  exact .inr ⟨rfl,not_not.mp current,UInt32.not_le.mp onward,fits,rfl⟩

theorem define_in_ok {s t : State} {collection : Bytes} {definition : IndexDefinition} {defined : Bool}
    (done : defineIn collection definition s = .ok defined t) : t = s ∨ (collection.length < 2 ^ 32 ∧ s[metaKey collection]? ≠ none ∧
      definition.name ≠ [] ∧ definition.name.length < 2 ^ 32 ∧ s[indexMetaKey collection definition.name]? = none ∧
      t = s.insert (indexMetaKey collection definition.name) [FORMAT_VERSION,if definition.unique then 1 else 0]) := by
  unfold defineIn at done
  rw [get_bind] at done
  obtain ⟨_,ensured,done⟩ := lift_bind_ok.mp done
  obtain ⟨short,there⟩ := ensure_in_ok.mp ensured
  obtain ⟨_,validated,done⟩ := lift_bind_ok.mp done
  obtain ⟨key,made,done⟩ := lift_bind_ok.mp done
  obtain ⟨⟨-,fits⟩,rfl⟩ := index_meta_key_ok.mp made
  rw [get_bind] at done
  split at done
  · cases done
    exact .inl rfl
  · rename_i missing
    cases done
    refine .inr ⟨short,there,?_,fits,by simpa using missing,rfl⟩
    intro empty
    rw [empty] at validated
    cases validated

theorem create_in_projected {s t : State} {name : Bytes} {definition : CollectionDefinition} {created : Bool} (projected : Projected s)
    (done : createIn name definition s = .ok created t) : Projected t := by
  rcases create_in_ok done with ⟨-,rfl⟩ | ⟨-,-,-,-,-,rfl⟩
  · exact projected
  · exact projected.define name _

theorem migrate_in_projected {s t : State} {name codec : Bytes} {expected_version next_version : UInt32} {migrated : Bool}
    (projected : Projected s) (done : migrateIn name expected_version next_version codec s = .ok migrated t) : Projected t := by
  obtain ⟨definition,-,-,-,⟨-,-,rfl⟩ | ⟨-,-,-,-,rfl⟩⟩ := migrate_in_ok done
  · exact projected
  · exact (projected.define name _).note name expected_version next_version _

theorem define_in_projected {s t : State} {collection : Bytes} {definition : IndexDefinition} {defined : Bool} (projected : Projected s)
    (done : defineIn collection definition s = .ok defined t) : Projected t := by
  rcases define_in_ok done with rfl | ⟨-,-,-,-,missing,rfl⟩
  · exact projected
  · exact projected.add_index missing _

section
variable [Hashes]

theorem create_collection_atomic {io : Io} (durable : io.Durable) (name : Bytes) (definition : CollectionDefinition) :
    Atomic (create_collection io name definition) := by
  refine .checked (reads_lift _) (fun _ => .checked (reads_lift _) (fun key => .checked reads_get (fun store => ?_)))
  split
  · exact atomic_of_reads (reads_pure _)
  · exact .checked (reads_lift _) (fun encoded => (put_alone_atomic durable key encoded).rethrow.returning (fun _ => true))

theorem migrate_schema_atomic {io : Io} (durable : io.Durable) (name : Bytes) (expected_version next_version : UInt32) (codec : Bytes) :
    Atomic (migrate_collection_schema io name expected_version next_version codec) := by
  refine .checked (reads_lift _) (fun key => .checked reads_get (fun store => .checked (reads_lift _) (fun current => ?_)))
  refine .checked (reads_lift _) (fun definition => ?_)
  split
  · exact atomic_of_reads (reads_pure _)
  split
  · exact atomic_of_reads (reads_throw _)
  refine (within_atomic durable ?_).returning (fun _ => true)
  refine (stages_of_reads (reads_lift _)).bind (fun encoded => (put_stages durable.1 _ _).rethrow.bind (fun _ => ?_))
  refine (stages_of_reads (reads_lift _)).bind (fun entry_key => (stages_of_reads (reads_lift _)).bind (fun entry => ?_))
  exact (put_stages durable.1 _ _).rethrow

theorem define_index_atomic {io : Io} (durable : io.Durable) (collection : Bytes) (definition : IndexDefinition) :
    Atomic (define_index io collection definition) := by
  refine .checked reads_get (fun store => .checked (reads_lift _) (fun _ => .checked (reads_lift _) (fun _ => ?_)))
  refine .checked (reads_lift _) (fun key => .checked reads_get (fun store => ?_))
  split
  · exact atomic_of_reads (reads_pure _)
  · exact (put_alone_atomic durable key _).rethrow.returning (fun _ => true)

theorem collection_call_atomic {call : CollectionCall} (durable : call.io.Durable) : Atomic (collections.on_store call) := by
  cases call with
  | CreateCollection io name definition => exact (create_collection_atomic durable name definition).returning _
  | MigrateCollectionSchema io name expected_version next_version codec =>
    exact (migrate_schema_atomic durable name expected_version next_version codec).returning _
  | DefineIndex io collection definition => exact (define_index_atomic durable collection definition).returning _
  | UpsertRecord io collection primary_key value indexes =>
    exact (within_atomic durable ((upsert_record_orderly id collection primary_key value indexes).stages durable)).returning (fun _ => CollectionReply.Done)
  | DeleteRecord io collection primary_key =>
    exact (within_atomic durable ((delete_record_orderly id collection primary_key).stages durable)).returning _

theorem collection_tx_stages {call : CollectionTxCall} (durable : call.io.Durable) : Stages (collections.on_tx call) := by
  cases call with
  | UpsertRecord io collection primary_key value indexes =>
    exact ((upsert_record_orderly id collection primary_key value indexes).returning (fun _ => CollectionReply.Done)).stages durable
  | DeleteRecord io collection primary_key => exact ((delete_record_orderly id collection primary_key).returning _).stages durable

/-- What a call mirrors keeps what is said of the map, and the call is undone if it fails. -/
theorem Atomic.keeps_mirrored {ε α : Type} {excused : ε → Prop} {x : EStateM ε Store α} {f : EStateM ε State α} {holds : State → Prop}
    (atomic : Atomic x) (mirrors : Mirrors Store.data excused x f) (apart : ∀ s, holds (data s) ↔ holds s)
    (kept : ∀ s t a, f s = .ok a t → holds s → holds t) : Keeps holds x := by
  intro store now
  cases result : x store with
  | ok a t => exact (apart t.state).mp (kept _ _ a (mirrors.ok result) ((apart store.state).mpr now))
  | error e t =>
    show holds t.state
    rw [atomic.keeps store e t result]
    exact now

omit [Hashes] in
theorem Keeps.returning {ε α β : Type} {holds : State → Prop} {x : EStateM ε Store α} (keeps : Keeps holds x) (f : α → β) :
    Keeps holds (do return f (← x)) := keeps.bind (fun _ => keeps_of_reads (reads_pure _))

/-- Every change of a collection keeps what is said of the map, which is about collections alone. -/
structure KeptByCollections (holds : State → Prop) : Prop where
  own : ∀ s t : State, (∀ key, CollectionKey key → t[key]? = s[key]?) → holds s → holds t
  create : ∀ {name definition s t a}, createIn name definition s = .ok a t → holds s → holds t
  migrate : ∀ {name expected_version next_version codec s t a}, migrateIn name expected_version next_version codec s = .ok a t → holds s → holds t
  define : ∀ {collection definition s t a}, defineIn collection definition s = .ok a t → holds s → holds t
  upsert : ∀ {collection primary_key value indexes s t a}, upsertIn collection primary_key value indexes s = .ok a t → holds s → holds t
  delete : ∀ {collection primary_key s t a}, deleteIn collection primary_key s = .ok a t → holds s → holds t

omit [Hashes] in
theorem KeptByCollections.data {holds : State → Prop} (kept : KeptByCollections holds) (s : State) : holds (data s) ↔ holds s :=
  ⟨kept.own _ _ (fun _ own => (data_outside (collection_key_outside own)).symm),kept.own _ _ (fun _ own => data_outside (collection_key_outside own))⟩

theorem collection_call_keeps {holds : State → Prop} (kept : KeptByCollections holds) {call : CollectionCall} (durable : call.io.Durable) :
    Keeps holds (collections.on_store call) := by
  cases call with
  | CreateCollection io name definition =>
    exact ((create_collection_atomic durable name definition).keeps_mirrored (create_collection_mirrors io name definition) kept.data
      (fun _ _ _ => kept.create)).returning _
  | MigrateCollectionSchema io name expected_version next_version codec =>
    exact ((migrate_schema_atomic durable name expected_version next_version codec).keeps_mirrored
      (migrate_schema_mirrors io name expected_version next_version codec) kept.data (fun _ _ _ => kept.migrate)).returning _
  | DefineIndex io collection definition =>
    exact ((define_index_atomic durable collection definition).keeps_mirrored (define_index_mirrors io collection definition) kept.data
      (fun _ _ _ => kept.define)).returning _
  | UpsertRecord io collection primary_key value indexes =>
    have stages := (upsert_record_orderly id collection primary_key value indexes).stages durable
    exact ((within_atomic durable stages).keeps_mirrored (store_upsert_mirrors io collection primary_key value indexes) kept.data
      (fun _ _ _ done => kept.upsert (atomically_ok.mp done))).returning (fun _ => CollectionReply.Done)
  | DeleteRecord io collection primary_key =>
    have stages := (delete_record_orderly id collection primary_key).stages durable
    exact ((within_atomic durable stages).keeps_mirrored (store_delete_mirrors io collection primary_key) kept.data
      (fun _ _ _ done => kept.delete (atomically_ok.mp done))).returning _

theorem collection_tx_keeps {holds : State → Prop} (kept : KeptByCollections holds) (call : CollectionTxCall) {tx u : Transaction}
    {reply : CollectionReply} (done : collections.on_tx call tx = .ok reply u) (now : holds tx.view) : holds u.view := by
  rw [← kept.data] at now ⊢
  cases call with
  | UpsertRecord io collection primary_key value indexes =>
    obtain ⟨_,_,staged,done⟩ := bind_ok.mp done
    cases done
    exact kept.upsert ((upsert_record_mirrors io collection primary_key value indexes).ok staged) now
  | DeleteRecord io collection primary_key =>
    obtain ⟨_,_,staged,done⟩ := bind_ok.mp done
    cases done
    exact kept.delete ((delete_record_mirrors io collection primary_key).ok staged) now

theorem collections_preserved {holds : State → Prop} (kept : KeptByCollections holds) : Preserved collections collectionTerms
    (fun state view log => holds state ∧ ∀ seen, view = some seen → Unspoiled log → holds seen) :=
  preserved_unspoiled (fun _ durable => (collection_call_atomic durable).steady) (fun _ => collection_tx_stages)
    (fun _ => collection_call_keeps kept) (fun call _ _ _ _ done => collection_tx_keeps kept call done) (fun _ => collection_key_outside) kept.own

omit [Hashes] in
theorem projected_kept : KeptByCollections Projected where
  own _ _ same projected := projected.congr same
  create done projected := create_in_projected projected done
  migrate done projected := migrate_in_projected projected done
  define done projected := define_in_projected projected done
  upsert done projected := upsert_in_projected projected done
  delete done projected := delete_in_projected projected done

end

/-! ## What a reader finds -/

theorem get_record_iff {store : Store} {collection primary_key : Bytes} {record : CollectionRecord} :
    store.get_record collection primary_key = .ok (some record) ↔
      record.primary_key = primary_key ∧ Stores store.state collection primary_key ⟨record.value,record.indexes⟩ := by
  unfold Store.get_record
  constructor
  · intro done
    obtain ⟨key,made,done⟩ := bind_ok_iff.mp done
    obtain ⟨⟨space,short⟩,rfl⟩ := record_key_ok.mp made
    cases found : store.get (recordKey collection primary_key) with
    | none =>
      rw [found] at done
      cases done
    | some encoded =>
      rw [found,Option.mapM_some] at done
      obtain ⟨read,done,same⟩ := bind_ok_iff.mp done
      obtain ⟨decoded,spelled,done⟩ := bind_ok_iff.mp done
      cases done
      cases same
      exact ⟨rfl,⟨space,short⟩,encoded,decode_record_ok spelled,found⟩
  · rintro ⟨rfl,stores⟩
    obtain ⟨encoded,made,found⟩ := stores.spelled
    refine bind_ok_iff.mpr ⟨_,record_key_ok.mpr ⟨⟨stores.placed.space,stores.placed.key⟩,rfl⟩,?_⟩
    have read : store.get (recordKey collection record.primary_key) = some encoded := found
    rw [read,Option.mapM_some,decode_encoded_record made]
    rfl

/-- The entries under the index prefix are those of the records that are there, on indexes that are defined,
    and no value of a unique index is listed by two records. -/
structure ExactIndexes (store : Store) : Prop where
  entries : ∀ key value, starts_with key INDEX_PREFIX = true → (store.get key = some value ↔
    ∃ collection primary_key record, store.get_record collection primary_key = .ok (some record) ∧ ∃ index ∈ record.indexes,
      index_entry_key collection index.index index.value primary_key = .ok key ∧ value = primary_key)
  records : ∀ key value, starts_with key RECORD_PREFIX = true → store.get key = some value →
    ∃ collection primary_key record, record_key collection primary_key = .ok key ∧ store.get_record collection primary_key = .ok (some record)
  defined : ∀ collection primary_key record, store.get_record collection primary_key = .ok (some record) →
    ensure_collection store collection = .ok () ∧ ∀ index ∈ record.indexes, ∃ definition,
      index_definition store collection index.index = .ok definition
  unique : ∀ collection index definition, index_definition store collection index = .ok definition → definition.unique = true →
    ∀ primary_key record other_key other value, store.get_record collection primary_key = .ok (some record) →
      store.get_record collection other_key = .ok (some other) → ⟨index,value⟩ ∈ record.indexes → ⟨index,value⟩ ∈ other.indexes →
        primary_key = other_key

theorem Projected.exact {store : Store} (projected : Projected store.state) : ExactIndexes store := by
  constructor
  · intro key value inside
    rw [starts_with_iff] at inside
    refine (projected.entries key value inside).trans ?_
    constructor
    · rintro ⟨collection,primary_key,record,index,member,stores,rfl,rfl⟩
      refine ⟨collection,value,⟨value,record.value,record.indexes⟩,get_record_iff.mpr ⟨rfl,stores⟩,index,member,?_,rfl⟩
      exact entry_key_ok.mpr ⟨⟨stores.placed,stores.fits index member⟩,rfl⟩
    · rintro ⟨collection,primary_key,record,read,index,member,made,rfl⟩
      obtain ⟨rfl,stores⟩ := get_record_iff.mp read
      obtain ⟨-,rfl⟩ := entry_key_ok.mp made
      exact ⟨collection,_,_,index,member,stores,rfl,rfl⟩
  · intro key value inside found
    rw [starts_with_iff] at inside
    obtain ⟨collection,primary_key,record,-,rfl,stores⟩ := projected.records key value inside found
    refine ⟨collection,primary_key,⟨primary_key,record.value,record.indexes⟩,?_,get_record_iff.mpr ⟨rfl,stores⟩⟩
    exact record_key_ok.mpr ⟨⟨stores.placed.space,stores.placed.key⟩,rfl⟩
  · intro collection primary_key record read
    obtain ⟨rfl,stores⟩ := get_record_iff.mp read
    obtain ⟨there,known⟩ := projected.defined _ _ _ stores
    refine ⟨ensure_in_ok.mpr ⟨stores.placed.space,there⟩,fun index member => ?_⟩
    obtain ⟨unique,defined⟩ := known index member
    exact ⟨⟨index.index,unique⟩,index_in_ok.mpr ⟨rfl,defined⟩⟩
  · intro collection index definition known unique primary_key record other_key other value read also member listed
    obtain ⟨rfl,stores⟩ := get_record_iff.mp read
    obtain ⟨rfl,second⟩ := get_record_iff.mp also
    obtain ⟨-,defined⟩ := index_in_ok.mp known
    rw [unique] at defined
    exact projected.unique collection _ _ _ _ stores second ⟨index,value⟩ member listed defined

section
variable [Hashes]

/-- After any run on a new store, with no write cut short and every commit
    confirmed, the indexes are the projection of the records, and in an open transaction of which no call failed halfway they are so too. -/
theorem indexes_are_projections {io : Io} {path : Path} {options : StoreOptions} {store : Store} {left : Bytes}
    (opened : open_with_options io path options [] = .ok store left) {moves : List (Move CollectionCall CollectionTxCall)}
    (along : (Play.mk (.Idle store) []).Along collections collectionTerms moves) :
    let play := Play.steps collections ⟨.Idle store,[]⟩ moves
    ExactIndexes play.session.store ∧
      ∀ tx, play.session = .Busy tx → Unspoiled play.log → ExactIndexes { tx.store with state := tx.view } := by
  have kept := play_invariant (collections_preserved projected_kept) ⟨projected_empty,by simp⟩ opened along
  obtain ⟨projected,seen⟩ := kept.holds
  refine ⟨projected.exact,?_⟩
  intro tx busy unspoiled
  rw [busy] at seen
  exact Projected.exact (seen tx.view rfl unspoiled)

end

/-- The call failed after it had staged something. -/
def Happened.spoils {ε σ τ ρ : Type} : Happened ε σ τ ρ → Bool
  | .Staged _ _ spoiled => spoiled
  | _ => false

theorem unspoiled_of_none {ε σ τ ρ : Type} {log : List (Happened ε σ τ ρ)} (none_spoils : (account log).pending.all (fun event => !event.spoils) = true) :
    Unspoiled log := by
  intro call result member
  have here := List.all_eq_true.mp none_spoils _ member
  cases here

/-- A record moves away from its value of a unique index, and another one takes it in the same transaction. -/
def handedOver : List (Move CollectionCall CollectionTxCall) :=
  [.Call (.CreateCollection calm [99] .default),.Call (.DefineIndex calm [99] ⟨[105],true⟩),.Begin,
    .CallTx (.UpsertRecord calm [99] [1] [7] [⟨[105],[1]⟩]),.CallTx (.UpsertRecord calm [99] [1] [7] [⟨[105],[2]⟩]),
    .CallTx (.UpsertRecord calm [99] [2] [8] [⟨[105],[1]⟩])]

set_option maxRecDepth 20000 in
theorem handed_over_exact : ∃ store left, @open_with_options crates calm ["a.vstore"] .default [] = .ok store left ∧
    ExactIndexes (@Play.steps crates _ _ _ _ (@collections crates) ⟨.Idle store,[]⟩
      (handedOver ++ [.Commit calm,.Reopen calm ["a.vstore"] .default,.Call (.DeleteRecord calm [99] [1])])).session.store := by
  obtain ⟨store,left,opened⟩ := @sound_opens crates calm [] ["a.vstore"] .default calm_faultless (.inl rfl)
  have evaluated : passes (@open_with_options crates calm ["a.vstore"] .default []) (fun store _ =>
      (account (@Play.steps crates _ _ _ _ (@collections crates) ⟨.Idle store,[]⟩ handedOver).log).pending.all
        (fun event => !event.spoils)) = true := by
    rw [crates_eq_quick]
    decide +kernel
  rw [opened,passes_ok] at evaluated
  refine ⟨store,left,opened,(@indexes_are_projections crates _ _ _ _ _ opened _ ?_).1⟩
  refine @along_through_commit crates _ _ _ _ _ collectionTerms _ _ _ _ ?_ calm_durable (unspoiled_of_none evaluated) ?_
  · refine @along_of_fine crates _ _ _ _ _ collectionTerms (fun call => call.io.Durable) (fun call => call.io.Durable) _
      (fun _ _ durable => durable) (fun _ _ durable => durable) (fun io _ member => by simp [handedOver] at member) ?_ _
    intro move member
    simp only [handedOver,List.mem_cons,List.not_mem_nil,or_false] at member
    rcases member with rfl | rfl | rfl | rfl | rfl | rfl
    · exact calm_durable
    · exact calm_durable
    · exact trivial
    · exact calm_durable
    · exact calm_durable
    · exact calm_durable
  · refine @along_of_fine crates _ _ _ _ _ collectionTerms (fun call => call.io.Durable) (fun call => call.io.Durable) _
      (fun _ _ durable => durable) (fun _ _ durable => durable) (fun io _ member => by simp at member) ?_ _
    intro move member
    simp only [List.mem_cons,List.not_mem_nil,or_false] at member
    rcases member with rfl | rfl
    · exact trivial
    · exact calm_durable

/-- An upsert whose commit is not confirmed, and one of another record with the same value of a unique index. -/
def takenTwice : List (Move CollectionCall CollectionTxCall) :=
  [.Call (.CreateCollection calm [99] .default),.Call (.DefineIndex calm [99] ⟨[105],true⟩),
    .Call (.UpsertRecord unsynced [99] [1] [7] [⟨[105],[1]⟩]),.Call (.UpsertRecord calm [99] [2] [8] [⟨[105],[1]⟩]),
    .Reopen calm ["a.vstore"] .default]

set_option maxRecDepth 20000 in
/-- After the reopening the unique value is that of two records. -/
theorem unconfirmed_value_taken_twice : ∃ store left, @open_with_options crates calm ["a.vstore"] .default [] = .ok store left ∧
    let reached := (@Play.steps crates _ _ _ _ (@collections crates) ⟨.Idle store,[]⟩ takenTwice).session.store
    index_definition reached [99] [105] = .ok ⟨[105],true⟩ ∧
      reached.get_record [99] [1] = .ok (some ⟨[1],[7],[⟨[105],[1]⟩]⟩) ∧
      reached.get_record [99] [2] = .ok (some ⟨[2],[8],[⟨[105],[1]⟩]⟩) ∧ ¬ ExactIndexes reached := by
  have evaluated : passes (@open_with_options crates calm ["a.vstore"] .default []) (fun store _ =>
      let reached := (@Play.steps crates _ _ _ _ (@collections crates) ⟨.Idle store,[]⟩ takenTwice).session.store
      (index_definition reached [99] [105]).toOption.any (fun definition => decide (definition = ⟨[105],true⟩)) &&
        (reached.get_record [99] [1]).toOption.any (fun found => decide (found = some ⟨[1],[7],[⟨[105],[1]⟩]⟩)) &&
        (reached.get_record [99] [2]).toOption.any (fun found => decide (found = some ⟨[2],[8],[⟨[105],[1]⟩]⟩))) = true := by
    rw [crates_eq_quick]
    decide +kernel
  obtain ⟨store,left,opened,evaluated⟩ := passes_iff.mp evaluated
  obtain ⟨evaluated,second⟩ := Bool.and_eq_true_iff.mp evaluated
  obtain ⟨definition,first⟩ := Bool.and_eq_true_iff.mp evaluated
  have defined := any_eq_iff.mp definition
  have read := any_eq_iff.mp first
  have also := any_eq_iff.mp second
  refine ⟨store,left,opened,defined,read,also,?_⟩
  intro exact
  have one := exact.unique _ _ _ defined rfl _ _ _ _ [1] read also (by simp) (by simp)
  simp at one

end VoodooStore
