import VoodooStore.Fields

/-!
# Collections

Records with secondary indexes over the map. A record lies under its collection
and its primary key and lists its own index values; for each of these there is
an entry whose key ends with the primary key and that holds it. The schema of a
collection has a version, which only migrations advance, and each of them leaves
a record of its own.
-/
namespace VoodooStore
open Effects Reading
set_option linter.unusedSimpArgs false

structure CollectionDefinition where
  schema_version : UInt32
  codec : Bytes
  deriving DecidableEq

def CollectionDefinition.default : CollectionDefinition := ⟨1,ascii "bytes"⟩

structure CollectionMigration where
  from_version : UInt32
  to_version : UInt32
  codec : Bytes
  deriving DecidableEq

structure IndexDefinition where
  name : Bytes
  unique : Bool
  deriving DecidableEq

structure IndexValue where
  index : Bytes
  value : Bytes
  deriving DecidableEq

structure CollectionRecord where
  primary_key : Bytes
  value : Bytes
  indexes : List IndexValue
  deriving DecidableEq

/-- A record less its primary key, which is in its key. -/
structure StoredRecord where
  value : Bytes
  indexes : List IndexValue
  deriving DecidableEq

inductive CollectionError
  | Store (error : EngineError)
  | CollectionNotFound
  | IndexNotFound
  | EmptyName
  | EmptyPrimaryKey
  | ComponentTooLarge
  | TooManyIndexes
  | InvalidSchemaVersion
  | CorruptMetadata
  | CorruptRecord
  | UniqueIndexViolation (index : Bytes)
  deriving DecidableEq

instance : Corrupt CollectionError := ⟨.CorruptRecord⟩

namespace Collections

def META_PREFIX : Bytes := INTERNAL_KEY_PREFIX ++ ascii "col:meta:"
def MIGRATION_PREFIX : Bytes := INTERNAL_KEY_PREFIX ++ ascii "col:migration:"
def RECORD_PREFIX : Bytes := INTERNAL_KEY_PREFIX ++ ascii "col:record:"
def INDEX_META_PREFIX : Bytes := INTERNAL_KEY_PREFIX ++ ascii "col:index-meta:"
def INDEX_PREFIX : Bytes := INTERNAL_KEY_PREFIX ++ ascii "col:index:"
def FORMAT_VERSION : UInt8 := 1

/-! ## Keys -/

def component_key {ε : Type} (too_large : ε) (front : Bytes) : List Bytes → Except ε Bytes
  | [] => .ok front
  | component :: components => do
    let len ← ok_or too_large (UInt32.try_from component.length)
    component_key too_large (front ++ (len.to_be_bytes ++ component)) components

def meta_key (name : Bytes) : Except CollectionError Bytes := component_key .ComponentTooLarge META_PREFIX [name]

def migration_prefix (name : Bytes) : Except CollectionError Bytes := component_key .ComponentTooLarge MIGRATION_PREFIX [name]

def migration_key (name : Bytes) (from_version to_version : UInt32) : Except CollectionError Bytes :=
  component_key .ComponentTooLarge MIGRATION_PREFIX [name,from_version.to_be_bytes,to_version.to_be_bytes]

def record_prefix (collection : Bytes) : Except CollectionError Bytes := component_key .ComponentTooLarge RECORD_PREFIX [collection]

def record_key (collection primary_key : Bytes) : Except CollectionError Bytes :=
  component_key .ComponentTooLarge RECORD_PREFIX [collection,primary_key]

def index_meta_key (collection index : Bytes) : Except CollectionError Bytes :=
  component_key .ComponentTooLarge INDEX_META_PREFIX [collection,index]

def index_value_prefix (collection index value : Bytes) : Except CollectionError Bytes :=
  component_key .ComponentTooLarge INDEX_PREFIX [collection,index,value]

def index_entry_key (collection index value primary_key : Bytes) : Except CollectionError Bytes :=
  component_key .ComponentTooLarge INDEX_PREFIX [collection,index,value,primary_key]

def decode_record_primary_key (front key : Bytes) : Except CollectionError Bytes :=
  if !starts_with key front then .error .CorruptMetadata else
  let rest := key.drop front.length
  if rest.length < 4 then .error .CorruptMetadata else
  let len := Endian.ofBe (rest.take 4)
  if rest.length ≠ 4 + len then .error .CorruptMetadata else .ok (rest.drop 4)

/-! ## Records -/

def encode_collection_definition (definition : CollectionDefinition) : Except CollectionError Bytes := do
  let codec_len ← ok_or .ComponentTooLarge (UInt32.try_from definition.codec.length)
  return [FORMAT_VERSION] ++ (definition.schema_version.to_le_bytes ++ (codec_len.to_le_bytes ++ definition.codec))

def decode_collection_definition (encoded : Bytes) : Except CollectionError CollectionDefinition :=
  if encoded.length < 9 ∨ encoded.head? ≠ some FORMAT_VERSION then .error .CorruptMetadata else
  let schema_version := UInt32.from_le_bytes ((encoded.drop 1).take 4)
  let codec_len := (UInt32.from_le_bytes ((encoded.drop 5).take 4)).toNat
  if encoded.length ≠ 9 + codec_len then .error .CorruptMetadata else .ok ⟨schema_version,encoded.drop 9⟩

def encode_collection_migration (migration : CollectionMigration) : Except CollectionError Bytes := do
  let codec_len ← ok_or .ComponentTooLarge (UInt32.try_from migration.codec.length)
  return [FORMAT_VERSION] ++ (migration.from_version.to_le_bytes ++ (migration.to_version.to_le_bytes ++
    (codec_len.to_le_bytes ++ migration.codec)))

def decode_collection_migration (encoded : Bytes) : Except CollectionError CollectionMigration :=
  if encoded.length < 13 ∨ encoded.head? ≠ some FORMAT_VERSION then .error .CorruptMetadata else
  let from_version := UInt32.from_le_bytes ((encoded.drop 1).take 4)
  let to_version := UInt32.from_le_bytes ((encoded.drop 5).take 4)
  let codec_len := (UInt32.from_le_bytes ((encoded.drop 9).take 4)).toNat
  if encoded.length ≠ 13 + codec_len ∨ to_version ≤ from_version then .error .CorruptMetadata
  else .ok ⟨from_version,to_version,encoded.drop 13⟩

/-- The loop of `encode_record_value` over the indexes. -/
def encode_indexes : List IndexValue → Except CollectionError Bytes
  | [] => .ok []
  | index :: indexes => do
    let name_len ← ok_or .ComponentTooLarge (UInt16.try_from index.index.length)
    let value_len ← ok_or .ComponentTooLarge (UInt32.try_from index.value.length)
    let rest ← encode_indexes indexes
    return name_len.to_le_bytes ++ (index.index ++ (value_len.to_le_bytes ++ (index.value ++ rest)))

def encode_record_value (value : Bytes) (indexes : List IndexValue) : Except CollectionError Bytes := do
  let value_len ← ok_or .ComponentTooLarge (UInt32.try_from value.length)
  let index_count ← ok_or .TooManyIndexes (UInt16.try_from indexes.length)
  let entries ← encode_indexes indexes
  return [FORMAT_VERSION] ++ (value_len.to_le_bytes ++ (index_count.to_le_bytes ++ (value ++ entries)))

def u16_field : Fields CollectionError UInt16 := do return UInt16.from_le_bytes (← Fields.take 2)

def read_indexes : Nat → Fields CollectionError (List IndexValue)
  | 0 => return []
  | count + 1 => do
    let name_len ← u16_field
    let index ← Fields.take name_len.toNat
    let value_len ← Fields.u32
    let value ← Fields.take value_len.toNat
    return ⟨index,value⟩ :: (← read_indexes count)

/-- The fields one after another; whatever is wrong is reported in the same way. -/
def read_record : Fields CollectionError StoredRecord := do
  let version ← Fields.u8
  if version ≠ FORMAT_VERSION then throw .CorruptRecord else do
  let value_len ← Fields.u32
  let index_count ← u16_field
  let value ← Fields.take value_len.toNat
  let indexes ← read_indexes index_count.toNat
  return ⟨value,indexes⟩

def decode_record_value (encoded : Bytes) : Except CollectionError StoredRecord := readAll .CorruptRecord read_record encoded

def validate_name (name : Bytes) : Except CollectionError Unit := if name = [] then .error .EmptyName else .ok ()

def decode_index_definition (index encoded : Bytes) : Except CollectionError IndexDefinition :=
  match encoded with
  | [version,unique] => if version ≠ FORMAT_VERSION ∨ unique > 1 then .error .CorruptMetadata else .ok ⟨index,unique = 1⟩
  | _ => .error .CorruptMetadata

end Collections
open Collections

/-! ## Reading a store -/

def Store.collection_definition (self : Store) (name : Bytes) : Except CollectionError (Option CollectionDefinition) := do
  let key ← meta_key name
  (self.get key).mapM decode_collection_definition

/-- The sort is not stable, but no two migrations have the same versions. -/
def Store.collection_migrations (self : Store) (name : Bytes) : Except CollectionError (List CollectionMigration) := do
  let front ← migration_prefix name
  let migrations ← (Store.scan_prefix self front).mapM (fun entry => decode_collection_migration entry.2)
  return migrations.mergeSort (fun a b => a.from_version < b.from_version ∨ a.from_version = b.from_version ∧ a.to_version ≤ b.to_version)

def ensure_collection (self : Store) (name : Bytes) : Except CollectionError Unit := do
  let key ← meta_key name
  if self.get key = none then .error .CollectionNotFound else .ok ()

def index_definition (self : Store) (collection index : Bytes) : Except CollectionError IndexDefinition := do
  let key ← index_meta_key collection index
  let encoded ← ok_or .IndexNotFound (self.get key)
  decode_index_definition index encoded

def Store.get_record (self : Store) (collection primary_key : Bytes) : Except CollectionError (Option CollectionRecord) := do
  let key ← record_key collection primary_key
  (self.get key).mapM (fun encoded => do
    let decoded ← decode_record_value encoded
    return ⟨primary_key,decoded.value,decoded.indexes⟩)

def Store.scan_collection (self : Store) (collection : Bytes) : Except CollectionError (List CollectionRecord) := do
  let front ← record_prefix collection
  (Store.scan_prefix self front).mapM (fun entry => do
    let primary_key ← decode_record_primary_key front entry.1
    let decoded ← decode_record_value entry.2
    return ⟨primary_key,decoded.value,decoded.indexes⟩)

/-- The loop of `query_index_exact`. -/
def records_of (self : Store) (collection : Bytes) : List (Bytes × Bytes) → Except CollectionError (List CollectionRecord)
  | [] => .ok []
  | (_,primary_key) :: entries => do
    let record ← self.get_record collection primary_key
    let records ← records_of self collection entries
    return record.toList ++ records

def Store.query_index_exact (self : Store) (collection index value : Bytes) : Except CollectionError (List CollectionRecord) := do
  let _ ← index_definition self collection index
  let front ← index_value_prefix collection index value
  let records ← records_of self collection (Store.scan_prefix self front)
  return records.mergeSort (fun a b => (compare a.primary_key b.primary_key).isLE)

section
variable [Hashes]

/-! ## On a transaction -/

def ensure_collection_tx (self : Transaction) (name : Bytes) : Except CollectionError Unit := do
  let key ← meta_key name
  if self.get_internal key = none then .error .CollectionNotFound else .ok ()

def index_definition_tx (self : Transaction) (collection index : Bytes) : Except CollectionError IndexDefinition := do
  let key ← index_meta_key collection index
  let encoded ← ok_or .IndexNotFound (self.get_internal key)
  decode_index_definition index encoded

/-- The first loop of `upsert_record`: the indexes are there, and the unique ones are free or the record's own. -/
def check_indexes (self : Transaction) (collection primary_key : Bytes) : List IndexValue → Except CollectionError Unit
  | [] => .ok ()
  | index :: indexes => do
    let definition ← index_definition_tx self collection index.index
    if definition.unique then
      let front ← index_value_prefix collection index.index index.value
      if (self.scan_prefix_internal front).any (fun entry => entry.2 ≠ primary_key) then .error (.UniqueIndexViolation index.index)
      else check_indexes self collection primary_key indexes
    else check_indexes self collection primary_key indexes

def delete_index_entries (io : Io) (collection primary_key : Bytes) : List IndexValue → EStateM CollectionError Transaction Unit
  | [] => pure ()
  | index :: indexes => do
    let key ← lift (index_entry_key collection index.index index.value primary_key)
    rethrow .Store (delete_internal io key)
    delete_index_entries io collection primary_key indexes

def put_index_entries (io : Io) (collection primary_key : Bytes) : List IndexValue → EStateM CollectionError Transaction Unit
  | [] => pure ()
  | index :: indexes => do
    let key ← lift (index_entry_key collection index.index index.value primary_key)
    rethrow .Store (put_internal io key primary_key)
    put_index_entries io collection primary_key indexes

/-- `Transaction::upsert_record` -/
def upsert_record (io : Io) (collection primary_key value : Bytes) (indexes : List IndexValue) : EStateM CollectionError Transaction Unit := do
  lift (ensure_collection_tx (← get) collection)
  if primary_key = [] then throw .EmptyPrimaryKey else
  let key ← lift (record_key collection primary_key)
  let existing ← lift (((← get).get_internal key).mapM decode_record_value)
  lift (check_indexes (← get) collection primary_key indexes)
  delete_index_entries io collection primary_key (existing.elim [] StoredRecord.indexes)
  let encoded ← lift (encode_record_value value indexes)
  rethrow .Store (put_internal io key encoded)
  put_index_entries io collection primary_key indexes

/-- `Transaction::delete_record` -/
def delete_record (io : Io) (collection primary_key : Bytes) : EStateM CollectionError Transaction Bool := do
  let key ← lift (record_key collection primary_key)
  match ← lift (((← get).get_internal key).mapM decode_record_value) with
  | none => return false
  | some existing =>
    rethrow .Store (delete_internal io key)
    delete_index_entries io collection primary_key existing.indexes
    return true

/-! ## On a store -/

def create_collection (io : Io) (name : Bytes) (definition : CollectionDefinition) : EStateM CollectionError Store Bool := do
  lift (validate_name name)
  let key ← lift (meta_key name)
  if (← get).get key ≠ none then return false else
  let encoded ← lift (encode_collection_definition definition)
  rethrow .Store (put_alone io key encoded)
  return true

/-- What a migration of the schema stages. -/
def migrate_schema_tx (io : Io) (name key : Bytes) (migration : CollectionMigration) : EStateM CollectionError Transaction Unit := do
  let encoded ← lift (encode_collection_definition ⟨migration.to_version,migration.codec⟩)
  rethrow .Store (put_internal io key encoded)
  let entry_key ← lift (migration_key name migration.from_version migration.to_version)
  let entry ← lift (encode_collection_migration migration)
  rethrow .Store (put_internal io entry_key entry)

def migrate_collection_schema (io : Io) (name : Bytes) (expected_version next_version : UInt32) (codec : Bytes) :
    EStateM CollectionError Store Bool := do
  let key ← lift (meta_key name)
  let current ← lift (ok_or .CollectionNotFound ((← get).get key))
  let definition ← lift (decode_collection_definition current)
  if definition.schema_version ≠ expected_version then return false else
  if next_version ≤ expected_version then throw .InvalidSchemaVersion else
  within .Store io (migrate_schema_tx io name key ⟨expected_version,next_version,codec⟩)
  return true

def define_index (io : Io) (collection : Bytes) (definition : IndexDefinition) : EStateM CollectionError Store Bool := do
  lift (ensure_collection (← get) collection)
  lift (validate_name definition.name)
  let key ← lift (index_meta_key collection definition.name)
  if (← get).get key ≠ none then return false else
  rethrow .Store (put_alone io key [FORMAT_VERSION,if definition.unique then 1 else 0])
  return true

/-- `Store::upsert_record` -/
def Store.upsert_record (io : Io) (collection primary_key value : Bytes) (indexes : List IndexValue) : EStateM CollectionError Store Unit :=
  within .Store io (VoodooStore.upsert_record io collection primary_key value indexes)

/-- `Store::delete_record` -/
def Store.delete_record (io : Io) (collection primary_key : Bytes) : EStateM CollectionError Store Bool :=
  within .Store io (VoodooStore.delete_record io collection primary_key)

end

end VoodooStore
