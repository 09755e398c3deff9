import VoodooStore.ApiCalls
import VoodooStore.Mirroring

/-!
# Collections on maps

What the calls on collections do to the map, as if each operation was made at
once and the engine refused none. The calls mirror it.
-/
namespace VoodooStore
open Effects Collections
set_option linter.unusedSimpArgs false

/-! ## Keys -/

def COL_PREFIX : Bytes := INTERNAL_KEY_PREFIX ++ ascii "col:"

/-- The keys of all collections. -/
def CollectionKey (key : Bytes) : Prop := COL_PREFIX <+: key

theorem collection_key_outside {key : Bytes} (own : CollectionKey key) : starts_with key CDC_PREFIX = false :=
  Bool.eq_false_iff.mpr (fun inside => prefixes_apart (by decide) own ((starts_with_iff _ _).mp inside))

theorem under_collections {front key : Bytes} (kind : front ∈ [META_PREFIX,MIGRATION_PREFIX,RECORD_PREFIX,INDEX_META_PREFIX,INDEX_PREFIX])
    (inside : front <+: key) : CollectionKey key := by
  refine List.IsPrefix.trans ?_ inside
  fin_cases kind <;> decide

theorem meta_key_own (name : Bytes) : CollectionKey (metaKey name) := under_collections (by decide) (List.prefix_append _ _)
theorem record_key_own (collection primary_key : Bytes) : CollectionKey (recordKey collection primary_key) :=
  under_collections (by decide) (List.prefix_append _ _)
theorem index_meta_own (collection index : Bytes) : CollectionKey (indexMetaKey collection index) :=
  under_collections (by decide) (List.prefix_append _ _)
theorem index_key_own (collection index value primary_key : Bytes) : CollectionKey (indexKey collection index value primary_key) :=
  under_collections (by decide) (List.prefix_append _ _)
theorem migration_key_own (name : Bytes) (from_version to_version : UInt32) : CollectionKey (migrationKey name from_version to_version) :=
  under_collections (by decide) (List.prefix_append _ _)

theorem record_data (state : State) (collection primary_key : Bytes) :
    (data state)[recordKey collection primary_key]? = state[recordKey collection primary_key]? :=
  data_outside (collection_key_outside (record_key_own _ _))

/-! ## Computations on maps -/

def ensureIn (state : State) (name : Bytes) : Except CollectionError Unit := do
  let key ← meta_key name
  if state[key]? = none then .error .CollectionNotFound else .ok ()

def indexIn (state : State) (collection index : Bytes) : Except CollectionError IndexDefinition := do
  let key ← index_meta_key collection index
  let encoded ← ok_or .IndexNotFound state[key]?
  decode_index_definition index encoded

def checkIn (state : State) (collection primary_key : Bytes) : List IndexValue → Except CollectionError Unit
  | [] => .ok ()
  | index :: indexes => do
    let definition ← indexIn state collection index.index
    if definition.unique then
      let front ← index_value_prefix collection index.index index.value
      if (scan state front).any (fun entry => entry.2 ≠ primary_key) then .error (.UniqueIndexViolation index.index)
      else checkIn state collection primary_key indexes
    else checkIn state collection primary_key indexes

def eraseEntries (collection primary_key : Bytes) : List IndexValue → EStateM CollectionError State Unit
  | [] => pure ()
  | index :: indexes => do
    let key ← lift (index_entry_key collection index.index index.value primary_key)
    modify (fun state => state.erase key)
    eraseEntries collection primary_key indexes

def insertEntries (collection primary_key : Bytes) : List IndexValue → EStateM CollectionError State Unit
  | [] => pure ()
  | index :: indexes => do
    let key ← lift (index_entry_key collection index.index index.value primary_key)
    modify (fun state => state.insert key primary_key)
    insertEntries collection primary_key indexes

/-- The record, if there is one. -/
def readIn (state : State) (key : Bytes) : Except CollectionError (Option StoredRecord) := state[key]?.mapM decode_record_value

def upsertIn (collection primary_key value : Bytes) (indexes : List IndexValue) : EStateM CollectionError State Unit := do
  lift (ensureIn (← get) collection)
  if primary_key = [] then throw .EmptyPrimaryKey else
  let key ← lift (record_key collection primary_key)
  let existing ← lift (readIn (← get) key)
  lift (checkIn (← get) collection primary_key indexes)
  eraseEntries collection primary_key (existing.elim [] StoredRecord.indexes)
  let encoded ← lift (encode_record_value value indexes)
  modify (fun state => state.insert key encoded)
  insertEntries collection primary_key indexes

def deleteIn (collection primary_key : Bytes) : EStateM CollectionError State Bool := do
  let key ← lift (record_key collection primary_key)
  match ← lift (readIn (← get) key) with
  | none => return false
  | some existing =>
    modify (fun state => state.erase key)
    eraseEntries collection primary_key existing.indexes
    return true

def createIn (name : Bytes) (definition : CollectionDefinition) : EStateM CollectionError State Bool := do
  lift (validate_name name)
  let key ← lift (meta_key name)
  if (← get)[key]? ≠ none then return false else
  let encoded ← lift (encode_collection_definition definition)
  modify (fun state => state.insert key encoded)
  return true

def advanceIn (name key : Bytes) (migration : CollectionMigration) : EStateM CollectionError State Unit := do
  let encoded ← lift (encode_collection_definition ⟨migration.to_version,migration.codec⟩)
  modify (fun state => state.insert key encoded)
  let entry_key ← lift (migration_key name migration.from_version migration.to_version)
  let entry ← lift (encode_collection_migration migration)
  modify (fun state => state.insert entry_key entry)

def migrateIn (name : Bytes) (expected_version next_version : UInt32) (codec : Bytes) : EStateM CollectionError State Bool := do
  let key ← lift (meta_key name)
  let current ← lift (ok_or .CollectionNotFound (← get)[key]?)
  let definition ← lift (decode_collection_definition current)
  if definition.schema_version ≠ expected_version then return false else
  if next_version ≤ expected_version then throw .InvalidSchemaVersion else
  atomically (advanceIn name key ⟨expected_version,next_version,codec⟩)
  return true

def defineIn (collection : Bytes) (definition : IndexDefinition) : EStateM CollectionError State Bool := do
  lift (ensureIn (← get) collection)
  lift (validate_name definition.name)
  let key ← lift (index_meta_key collection definition.name)
  if (← get)[key]? ≠ none then return false else
  modify (fun state => state.insert key [FORMAT_VERSION,if definition.unique then 1 else 0])
  return true

/-! ## The calls mirror them -/

theorem ensure_data {state : State} (name : Bytes) : ensureIn (data state) name = ensureIn state name := by
  unfold ensureIn
  cases made : meta_key name with
  | error e => rfl
  | ok key =>
    obtain ⟨-,rfl⟩ := meta_key_ok.mp made
    rw [ok_bind,ok_bind,data_outside (collection_key_outside (meta_key_own name))]

theorem index_data {state : State} (collection index : Bytes) : indexIn (data state) collection index = indexIn state collection index := by
  unfold indexIn
  cases made : index_meta_key collection index with
  | error e => rfl
  | ok key =>
    obtain ⟨-,rfl⟩ := index_meta_key_ok.mp made
    rw [ok_bind,ok_bind,data_outside (collection_key_outside (index_meta_own _ _))]

theorem check_data {state : State} (collection primary_key : Bytes) (indexes : List IndexValue) :
    checkIn (data state) collection primary_key indexes = checkIn state collection primary_key indexes := by
  induction indexes with
  | nil => rfl
  | cons index indexes ih =>
    unfold checkIn
    rw [index_data,ih]
    congr 1
    funext definition
    cases made : index_value_prefix collection index.index index.value with
    | error e => rfl
    | ok front =>
      obtain ⟨-,rfl⟩ := index_value_prefix_ok.mp made
      rw [ok_bind,ok_bind,scan_data]
      intro key inside
      have under : INDEX_PREFIX <+: key := (List.prefix_append _ _).trans ((starts_with_iff _ _).mp inside)
      exact collection_key_outside (under_collections (by decide) under)

theorem ensure_tx_eq (tx : Transaction) (name : Bytes) : ensure_collection_tx tx name = ensureIn tx.data name := by
  rw [Transaction.data,ensure_data]
  unfold ensure_collection_tx ensureIn
  simp only [get_internal_eq]

theorem index_tx_eq (tx : Transaction) (collection index : Bytes) : index_definition_tx tx collection index = indexIn tx.data collection index := by
  rw [Transaction.data,index_data]
  unfold index_definition_tx indexIn
  simp only [get_internal_eq]

theorem check_tx_eq (tx : Transaction) (collection primary_key : Bytes) (indexes : List IndexValue) :
    check_indexes tx collection primary_key indexes = checkIn tx.data collection primary_key indexes := by
  rw [Transaction.data,check_data]
  induction indexes with
  | nil => rfl
  | cons index indexes ih =>
    unfold check_indexes checkIn
    rw [ih,index_tx_eq,Transaction.data,index_data]
    simp only [scan_prefix_internal_eq]

theorem read_tx_eq (tx : Transaction) (collection primary_key : Bytes) :
    (tx.get_internal (recordKey collection primary_key)).mapM decode_record_value = readIn tx.data (recordKey collection primary_key) := by
  rw [readIn,Transaction.data,record_data,get_internal_eq]

section
variable [Hashes]

/-- The engine refuses an operation of a collection. -/
def EngineRefusal : CollectionError → Prop := Declined CollectionError.Store

theorem erase_entries_mirrors (io : Io) (collection primary_key : Bytes) (indexes : List IndexValue) :
    Mirrors Transaction.data EngineRefusal (delete_index_entries io collection primary_key indexes) (eraseEntries collection primary_key indexes) := by
  induction indexes with
  | nil => exact mirrors_pure ()
  | cons index indexes ih =>
    refine .lifted (fun key made => ?_)
    obtain ⟨-,rfl⟩ := index_entry_key_ok.mp made
    exact (delete_mirrors io (collection_key_outside (index_key_own _ _ _ _))).bind (fun _ => ih)

theorem insert_entries_mirrors (io : Io) (collection primary_key : Bytes) (indexes : List IndexValue) :
    Mirrors Transaction.data EngineRefusal (put_index_entries io collection primary_key indexes) (insertEntries collection primary_key indexes) := by
  induction indexes with
  | nil => exact mirrors_pure ()
  | cons index indexes ih =>
    refine .lifted (fun key made => ?_)
    obtain ⟨-,rfl⟩ := index_entry_key_ok.mp made
    exact (put_mirrors io (collection_key_outside (index_key_own _ _ _ _)) _).bind (fun _ => ih)

theorem upsert_record_mirrors (io : Io) (collection primary_key value : Bytes) (indexes : List IndexValue) :
    Mirrors Transaction.data EngineRefusal (upsert_record io collection primary_key value indexes)
      (upsertIn collection primary_key value indexes) := by
  refine .looks (fun tx => ensure_tx_eq tx collection) (fun _ _ _ => ?_)
  by_cases empty : primary_key = []
  · rw [if_pos empty,if_pos empty]
    exact mirrors_throw _
  rw [if_neg empty,if_neg empty]
  refine .lifted (fun key made => ?_)
  obtain ⟨-,rfl⟩ := record_key_ok.mp made
  refine .looks (fun tx => read_tx_eq tx collection primary_key) (fun _ existing _ => ?_)
  refine .looks (fun tx => check_tx_eq tx collection primary_key indexes) (fun _ _ _ => ?_)
  refine (erase_entries_mirrors io collection primary_key _).bind (fun _ => .lifted (fun encoded _ => ?_))
  refine (put_mirrors io (collection_key_outside (record_key_own _ _)) encoded).bind (fun _ => ?_)
  exact insert_entries_mirrors io collection primary_key indexes

theorem delete_record_mirrors (io : Io) (collection primary_key : Bytes) :
    Mirrors Transaction.data EngineRefusal (delete_record io collection primary_key) (deleteIn collection primary_key) := by
  refine .lifted (fun key made => ?_)
  obtain ⟨-,rfl⟩ := record_key_ok.mp made
  refine .looks (fun tx => read_tx_eq tx collection primary_key) (fun _ existing _ => ?_)
  cases existing with
  | none => exact mirrors_pure false
  | some existing =>
    refine (delete_mirrors io (collection_key_outside (record_key_own _ _))).bind (fun _ => ?_)
    exact (erase_entries_mirrors io collection primary_key existing.indexes).bind (fun _ => mirrors_pure true)

theorem upsert_carries (io : Io) (collection primary_key value : Bytes) (indexes : List IndexValue) (tx : Transaction) :
    Carries tx (after (upsert_record io collection primary_key value indexes) tx) :=
  (@upsert_record_orderly _ False io False.elim collection primary_key value indexes).confined.carries tx

theorem delete_carries (io : Io) (collection primary_key : Bytes) (tx : Transaction) :
    Carries tx (after (delete_record io collection primary_key) tx) :=
  (@delete_record_orderly _ False io False.elim collection primary_key).confined.carries tx

theorem store_upsert_mirrors (io : Io) (collection primary_key value : Bytes) (indexes : List IndexValue) :
    Mirrors Store.data EngineRefusal (Store.upsert_record io collection primary_key value indexes)
      (atomically (upsertIn collection primary_key value indexes)) :=
  within_mirrors (upsert_carries io collection primary_key value indexes) (upsert_record_mirrors io collection primary_key value indexes)

theorem store_delete_mirrors (io : Io) (collection primary_key : Bytes) :
    Mirrors Store.data EngineRefusal (Store.delete_record io collection primary_key) (atomically (deleteIn collection primary_key)) :=
  within_mirrors (delete_carries io collection primary_key) (delete_record_mirrors io collection primary_key)

theorem create_collection_mirrors (io : Io) (name : Bytes) (definition : CollectionDefinition) :
    Mirrors Store.data EngineRefusal (create_collection io name definition) (createIn name definition) := by
  refine .lifted (fun _ _ => .lifted (fun key made => .reads (fun store => ?_)))
  obtain ⟨-,rfl⟩ := meta_key_ok.mp made
  have same : store.data[metaKey name]? = store.get (metaKey name) := data_outside (collection_key_outside (meta_key_own name))
  rw [same]
  by_cases taken : store.get (metaKey name) ≠ none
  · rw [if_pos taken,if_pos taken]
    exact mirrors_pure false
  · rw [if_neg taken,if_neg taken]
    refine .lifted (fun encoded _ => ?_)
    exact (put_alone_mirrors io (collection_key_outside (meta_key_own name)) encoded).bind (fun _ => mirrors_pure true)

theorem define_index_mirrors (io : Io) (collection : Bytes) (definition : IndexDefinition) :
    Mirrors Store.data EngineRefusal (define_index io collection definition) (defineIn collection definition) := by
  have ensures : ∀ store : Store, ensure_collection store collection = ensureIn store.data collection :=
    fun store => (ensure_data collection).symm
  refine .looks ensures (fun _ _ _ => .lifted (fun _ _ => .lifted (fun key made => .reads (fun store => ?_))))
  obtain ⟨-,rfl⟩ := index_meta_key_ok.mp made
  have outside := collection_key_outside (index_meta_own collection definition.name)
  have same : store.data[indexMetaKey collection definition.name]? = store.get (indexMetaKey collection definition.name) := data_outside outside
  rw [same]
  by_cases taken : store.get (indexMetaKey collection definition.name) ≠ none
  · rw [if_pos taken,if_pos taken]
    exact mirrors_pure false
  · rw [if_neg taken,if_neg taken]
    exact (put_alone_mirrors io outside _).bind (fun _ => mirrors_pure true)

theorem migrate_schema_tx_mirrors (io : Io) (name : Bytes) (migration : CollectionMigration) :
    Mirrors Transaction.data EngineRefusal (migrate_schema_tx io name (metaKey name) migration) (advanceIn name (metaKey name) migration) := by
  refine .lifted (fun encoded _ => ?_)
  refine (put_mirrors io (collection_key_outside (meta_key_own name)) encoded).bind (fun _ => .lifted (fun entry_key made => ?_))
  obtain ⟨-,rfl⟩ := migration_key_ok.mp made
  exact .lifted (fun entry _ => put_mirrors io (collection_key_outside (migration_key_own _ _ _)) entry)

theorem migrate_carries (io : Io) (name key : Bytes) (migration : CollectionMigration) (tx : Transaction) :
    Carries tx (after (migrate_schema_tx io name key migration) tx) := by
  have stages : ∀ key value : Bytes, ConfinedView (fun _ => True) (rethrow CollectionError.Store (put_internal io key value)) :=
    fun key value => (put_confined io trivial value).rethrow
  have confined : ConfinedView (fun _ => True) (migrate_schema_tx io name key migration) := by
    refine .lifted (fun encoded _ => (stages key encoded).bind (fun _ => .lifted (fun entry_key _ => .lifted (fun entry _ => ?_))))
    exact stages entry_key entry
  exact confined.carries tx

theorem migrate_schema_mirrors (io : Io) (name : Bytes) (expected_version next_version : UInt32) (codec : Bytes) :
    Mirrors Store.data EngineRefusal (migrate_collection_schema io name expected_version next_version codec)
      (migrateIn name expected_version next_version codec) := by
  refine .lifted (fun key made => ?_)
  obtain ⟨-,rfl⟩ := meta_key_ok.mp made
  have reads : ∀ store : Store, ok_or CollectionError.CollectionNotFound (store.get (metaKey name)) =
      ok_or .CollectionNotFound store.data[metaKey name]? :=
    fun store => congrArg _ (data_outside (collection_key_outside (meta_key_own name))).symm
  refine .looks reads (fun _ current _ => .lifted (fun definition _ => ?_))
  by_cases stale : definition.schema_version ≠ expected_version
  · rw [if_pos stale,if_pos stale]
    exact mirrors_pure false
  rw [if_neg stale,if_neg stale]
  by_cases back : next_version ≤ expected_version
  · rw [if_pos back,if_pos back]
    exact mirrors_throw _
  rw [if_neg back,if_neg back]
  exact (within_mirrors (migrate_carries io _ _ _) (migrate_schema_tx_mirrors io name _)).bind (fun _ => mirrors_pure true)

end

end VoodooStore
