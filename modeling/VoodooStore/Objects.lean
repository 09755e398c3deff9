import VoodooStore.Cron
import VoodooStore.TransactionDomains
import VoodooStore.Ttl

/-!
# Objects

An object is stored under the hash of its content, its metadata under the same
hash, and a reference under a namespace and a name holds the hash that it stands
for. Two collectors remove objects that no reference names: one whatever they
are, the other those that have expired.
-/
namespace VoodooStore
open Effects Reading
set_option linter.unusedSimpArgs false

abbrev MetadataEntries := List (Bytes × Bytes)

structure ObjectInfo where
  id : ObjectId
  size : UInt64
  metadata : MetadataEntries
  deriving DecidableEq

structure ObjectGcReport where
  scanned : Nat
  referenced : Nat
  removed : Nat
  deriving DecidableEq

structure ObjectRetentionReport where
  scanned : Nat
  expired : Nat
  referenced : Nat
  removed : Nat
  deriving DecidableEq

inductive ObjectError
  | Store (error : EngineError)
  | ObjectNotFound
  | ObjectTooLarge
  | CorruptObject
  | CorruptReference
  | EmptyReferenceName
  | ReferenceNameTooLong
  | MetadataTooLarge
  | DuplicateMetadata
  | CorruptMetadata
  deriving DecidableEq

/-- What goes wrong in the cursor goes wrong in metadata. -/
instance : Corrupt ObjectError := ⟨.CorruptMetadata⟩

/-- `try_into` an array of 32 bytes -/
def ObjectId.try_from (bytes : Bytes) : Option ObjectId := if size : bytes.length = 32 then some ⟨bytes,size⟩ else none

namespace Objects

def METADATA_PREFIX : Bytes := INTERNAL_KEY_PREFIX ++ ascii "obj:meta:"
def REF_PREFIX : Bytes := INTERNAL_KEY_PREFIX ++ ascii "obj:ref:"

def object_key (id : ObjectId) : Bytes := OBJECT_PREFIX ++ id.val
def metadata_key (id : ObjectId) : Bytes := METADATA_PREFIX ++ id.val

/-- The loop of `normalize_metadata`, behind the previous entry and their sizes so far. -/
def check_metadata (previous : Option Bytes) (total : Nat) : MetadataEntries → Except ObjectError Nat
  | [] => .ok total
  | (key,value) :: values =>
    if key = [] ∨ key.length > 4096 ∨ value.length > 64 * 1024 then .error .MetadataTooLarge
    else if previous = some key then .error .DuplicateMetadata
    else do
      let total ← ok_or .MetadataTooLarge (usize_checked_add total (key.length + value.length))
      check_metadata (some key) total values

/-- The sort is not stable, but entries with the same key are refused. -/
def normalize_metadata (metadata : MetadataEntries) : Except ObjectError MetadataEntries := do
  let values := metadata.mergeSort (fun left right => (compare left.1 right.1).isLE)
  let total ← check_metadata none 0 values
  if total > 256 * 1024 then .error .MetadataTooLarge else .ok values

def encode_entries : MetadataEntries → Except ObjectError Bytes
  | [] => .ok []
  | (key,value) :: metadata => do
    let key_len ← ok_or .MetadataTooLarge (UInt32.try_from key.length)
    let value_len ← ok_or .MetadataTooLarge (UInt32.try_from value.length)
    let rest ← encode_entries metadata
    return key_len.to_le_bytes ++ (value_len.to_le_bytes ++ (key ++ (value ++ rest)))

def encode_metadata (metadata : MetadataEntries) : Except ObjectError Bytes := do
  let count ← ok_or .MetadataTooLarge (UInt32.try_from metadata.length)
  let entries ← encode_entries metadata
  return [OBJECT_VERSION] ++ (count.to_le_bytes ++ entries)

def read_entries : Nat → Fields ObjectError MetadataEntries
  | 0 => return []
  | count + 1 => do
    let key_len ← Fields.u32
    let value_len ← Fields.u32
    let key ← Fields.take key_len.toNat
    let value ← Fields.take value_len.toNat
    return (key,value) :: (← read_entries count)

/-- The fields one after another; whatever is wrong is reported in the same way. -/
def read_metadata : Fields ObjectError MetadataEntries := do
  let version ← Fields.u8
  if version ≠ OBJECT_VERSION then throw .CorruptMetadata else do
  let count ← Fields.u32
  read_entries count.toNat

def decode_metadata (encoded : Bytes) : Except ObjectError MetadataEntries := do
  normalize_metadata (← readAll .CorruptMetadata read_metadata encoded)

def decode_object_key (key : Bytes) : Except ObjectError ObjectId :=
  if starts_with key OBJECT_PREFIX ∧ key.length = OBJECT_PREFIX.length + 32 then
    ok_or .CorruptObject (ObjectId.try_from (key.drop OBJECT_PREFIX.length))
  else .error .CorruptObject

def reference_namespace_prefix (ns : Bytes) : Except ObjectError Bytes :=
  if ns = [] then .error .EmptyReferenceName else do
  let namespace_len ← ok_or .ReferenceNameTooLong (UInt32.try_from ns.length)
  return REF_PREFIX ++ (namespace_len.to_be_bytes ++ ns)

def decode_reference_name (key ns : Bytes) : Except ObjectError Bytes := do
  let front ← reference_namespace_prefix ns
  if !starts_with key front then .error .CorruptReference else
  let rest := key.drop front.length
  if rest.length < 4 then .error .CorruptReference else
  let name_len := (UInt32.from_be_bytes (rest.take 4)).toNat
  if rest.length ≠ 4 + name_len then .error .CorruptReference else .ok (rest.drop 4)

def reference_key (ns name : Bytes) : Except ObjectError Bytes :=
  if ns = [] ∨ name = [] then .error .EmptyReferenceName else do
  let namespace_len ← ok_or .ReferenceNameTooLong (UInt32.try_from ns.length)
  let name_len ← ok_or .ReferenceNameTooLong (UInt32.try_from name.length)
  return REF_PREFIX ++ (namespace_len.to_be_bytes ++ (ns ++ (name_len.to_be_bytes ++ name)))

def encode_object (content : Bytes) : Except ObjectError Bytes := do
  let len ← ok_or .ObjectTooLarge (UInt64.try_from content.length)
  return [OBJECT_VERSION] ++ (len.to_le_bytes ++ content)

def decode_object (encoded : Bytes) : Except ObjectError Bytes :=
  if encoded.length < 9 ∨ encoded.head? ≠ some OBJECT_VERSION then .error .CorruptObject else
  let len := (UInt64.from_le_bytes ((encoded.drop 1).take 8)).toNat
  if encoded.length ≠ 9 + len then .error .CorruptObject else .ok (encoded.drop 9)

/-- `parse::<i64>`, which accepts both signs -/
def parse_i64 (text : Str) : Option Int64 :=
  match text with
  | '-' :: digits => (parse_digits digits).bind (fun n => if n ≤ 2 ^ 63 then some (.ofInt (-n)) else none)
  | '+' :: digits => (parse_digits digits).bind (fun n => if n < 2 ^ 63 then some (.ofNat n) else none)
  | digits => (parse_digits digits).bind (fun n => if n < 2 ^ 63 then some (.ofNat n) else none)

/-- The set of the objects that references name. -/
def collect_references (references : List ObjectId) : List (Bytes × Bytes) → Except ObjectError (List ObjectId)
  | [] => .ok references
  | (_,value) :: entries => do
    let id ← ok_or .CorruptReference (ObjectId.try_from value)
    collect_references (references.insert id) entries

/-- The loop of `gc_orphan_objects` over the objects. -/
def orphan_keys (referenced : List ObjectId) (limit : Nat) (to_remove : List Bytes) : List (Bytes × Bytes) → Except ObjectError (List Bytes)
  | [] => .ok to_remove
  | (key,_) :: objects => do
    let id ← decode_object_key key
    if id ∉ referenced then
      if (to_remove ++ [key]).length = limit then .ok (to_remove ++ [key])
      else orphan_keys referenced limit (to_remove ++ [key]) objects
    else orphan_keys referenced limit to_remove objects

/-- What `purge_expired_objects` counts and collects. -/
structure Sweep where
  expired : Nat
  referenced : Nat
  to_remove : List (Bytes × ObjectId)

end Objects

open Objects

def Store.get_object (self : Store) (id : ObjectId) : Except ObjectError (Option Bytes) :=
  (self.get (Objects.object_key id)).mapM decode_object

def Store.get_object_chunk (self : Store) (id : ObjectId) (offset limit : Nat) : Except ObjectError (Option Bytes) := do
  match ← (self.get (Objects.object_key id)).mapM decode_object with
  | none => return none
  | some content =>
    let start := min offset content.length
    let stop := min (start + limit) content.length
    return some ((content.drop start).take (stop - start))

def Store.metadata_of (self : Store) (id : ObjectId) : Except ObjectError MetadataEntries := do
  return (← (self.get (metadata_key id)).mapM decode_metadata).getD []

def Store.object_info (self : Store) (id : ObjectId) : Except ObjectError (Option ObjectInfo) := do
  match ← self.get_object id with
  | none => return none
  | some content =>
    let metadata ← self.metadata_of id
    return some ⟨id,.ofNat content.length,metadata⟩

def Store.resolve_object_ref (self : Store) (ns name : Bytes) : Except ObjectError (Option ObjectId) := do
  let key ← Objects.reference_key ns name
  (self.get key).mapM (fun bytes => ok_or .CorruptReference (ObjectId.try_from bytes))

/-- The loop of `list_object_refs`. -/
def named_references (ns name_prefix : Bytes) (refs : List (Bytes × ObjectId)) :
    List (Bytes × Bytes) → Except ObjectError (List (Bytes × ObjectId))
  | [] => .ok refs
  | (key,value) :: entries => do
    let name ← decode_reference_name key ns
    if !starts_with name name_prefix then named_references ns name_prefix refs entries else do
    let id ← ok_or .CorruptReference (ObjectId.try_from value)
    named_references ns name_prefix (refs ++ [(name,id)]) entries

/-- Names of one namespace differ, so that it does not matter that the sort is not stable. -/
def Store.list_object_refs (self : Store) (ns name_prefix : Bytes) : Except ObjectError (List (Bytes × ObjectId)) :=
  if ns = [] then .error .EmptyReferenceName else do
  let front ← reference_namespace_prefix ns
  let refs ← named_references ns name_prefix [] (Store.scan_prefix self front)
  return refs.mergeSort (fun left right => (compare left.1 right.1).isLE)

/-- The time at which metadata say that their object expires. -/
def recorded_expiry (metadata : MetadataEntries) : Except ObjectError (Option Int64) :=
  match metadata.find? (fun entry => entry.1 = ascii "expires_at_unix") with
  | none => .ok none
  | some (_,value) => do
    let expiry ← ok_or .CorruptMetadata ((from_utf8 value).bind parse_i64)
    return some expiry

/-- The loop of `purge_expired_objects` over the objects. -/
def sweep_objects (self : Store) (references : List ObjectId) (now_unix : Int64) (limit : Nat) (sweep : Sweep) :
    List (Bytes × Bytes) → Except ObjectError Sweep
  | [] => .ok sweep
  | (key,_) :: objects => do
    let id ← decode_object_key key
    let metadata ← self.metadata_of id
    match ← recorded_expiry metadata with
    | none => sweep_objects self references now_unix limit sweep objects
    | some expiry =>
      if expiry > now_unix then sweep_objects self references now_unix limit sweep objects
      else
        let sweep := { sweep with expired := sweep.expired + 1 }
        if id ∈ references then
          sweep_objects self references now_unix limit { sweep with referenced := sweep.referenced + 1 } objects
        else if limit = 0 ∨ sweep.to_remove.length < limit then
          sweep_objects self references now_unix limit { sweep with to_remove := sweep.to_remove ++ [(key,id)] } objects
        else sweep_objects self references now_unix limit sweep objects

section
variable [Hashes]

def Objects.object_id (content : Bytes) : ObjectId := Hashes.sha256 content

def Store.verify_object (self : Store) (id : ObjectId) : Except ObjectError Bool := do
  match ← self.get_object id with
  | none => return false
  | some content => return object_id content = id

/-- The object and its metadata are two transactions. -/
def Store.put_object_with_metadata (io metadata_io : Io) (content : Bytes) (metadata : MetadataEntries) :
    EStateM ObjectError Store ObjectId := do
  let metadata ← lift (normalize_metadata metadata)
  let id := object_id content
  let key := Objects.object_key id
  if ((← MonadState.get).get key).isNone then
    let encoded ← lift (Objects.encode_object content)
    rethrow .Store (put_alone io key encoded)
    if metadata ≠ [] then
      let encoded ← lift (encode_metadata metadata)
      rethrow .Store (put_alone metadata_io (metadata_key id) encoded)
      return id
    else return id
  else return id

/-- There is nothing to write in a second transaction. -/
def Store.put_object (io : Io) (content : Bytes) : EStateM ObjectError Store ObjectId :=
  Store.put_object_with_metadata io io content []

def Store.link_object (io : Io) (ns name : Bytes) (id : ObjectId) : EStateM ObjectError Store Unit := do
  let found ← lift ((← MonadState.get).get_object id)
  if found.isNone then throw .ObjectNotFound else
  let key ← lift (Objects.reference_key ns name)
  rethrow .Store (put_alone io key id.val)

def Store.unlink_object (io : Io) (ns name : Bytes) : EStateM ObjectError Store Bool := do
  let key ← lift (Objects.reference_key ns name)
  if ((← MonadState.get).get key).isNone then return false else
  rethrow .Store (delete_alone io key)
  return true

/-- Both collectors delete an object together with its metadata. -/
def remove_object (io : Io) (key : Bytes) (id : ObjectId) : EStateM ObjectError Transaction Unit := do
  rethrow .Store (delete_internal io key)
  rethrow .Store (delete_internal io (metadata_key id))

/-- The transaction of `gc_orphan_objects`. -/
def remove_orphans (io : Io) : List Bytes → EStateM ObjectError Transaction Unit
  | [] => return ()
  | key :: keys => do
    let id ← lift (decode_object_key key)
    remove_object io key id
    remove_orphans io keys

def gc_orphan_objects (io : Io) (limit : Nat) : EStateM ObjectError Store ObjectGcReport := do
  let self ← get
  let referenced ← lift (collect_references [] (Store.scan_prefix self REF_PREFIX))
  let objects := Store.scan_prefix self OBJECT_PREFIX
  if limit = 0 then return ⟨objects.length,referenced.length,0⟩ else
  let to_remove ← lift (orphan_keys referenced limit [] objects)
  if to_remove.length > 0 then
    within .Store io (remove_orphans io to_remove)
    return ⟨objects.length,referenced.length,to_remove.length⟩
  else return ⟨objects.length,referenced.length,to_remove.length⟩

/-- The transaction of `purge_expired_objects`. -/
def remove_swept (io : Io) : List (Bytes × ObjectId) → EStateM ObjectError Transaction Unit
  | [] => return ()
  | (key,id) :: objects => do
    remove_object io key id
    remove_swept io objects

def purge_expired_objects (io : Io) (now_unix : Int64) (limit : Nat) : EStateM ObjectError Store ObjectRetentionReport := do
  let self ← get
  let references ← lift (collect_references [] (Store.scan_prefix self REF_PREFIX))
  let objects := Store.scan_prefix self OBJECT_PREFIX
  let sweep ← lift (sweep_objects self references now_unix limit ⟨0,0,[]⟩ objects)
  if sweep.to_remove ≠ [] then
    within .Store io (remove_swept io sweep.to_remove)
    return ⟨objects.length,sweep.expired,sweep.referenced,sweep.to_remove.length⟩
  else return ⟨objects.length,sweep.expired,sweep.referenced,sweep.to_remove.length⟩

end

end VoodooStore
