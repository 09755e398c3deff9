import VoodooStore.Queue

/-!
# Queues, streams and objects in a transaction

These operations read through what is staged, so that several of them in one
transaction take different numbers. They write the records that the handles of
the store read.
-/
namespace VoodooStore
open Effects
set_option linter.unusedSimpArgs false

def STREAM_PREFIX : Bytes := INTERNAL_KEY_PREFIX ++ ascii "stream:"
def STREAM_ENTRY_VERSION : UInt8 := 1
def OBJECT_PREFIX : Bytes := INTERNAL_KEY_PREFIX ++ ascii "obj:data:"
def OBJECT_REF_PREFIX : Bytes := INTERNAL_KEY_PREFIX ++ ascii "obj:ref:"
def OBJECT_VERSION : UInt8 := 1

abbrev ObjectId := ByteArr 32

instance lawful_object_ids : LawfulBEq ObjectId := inferInstance

inductive DomainTransactionError
  | Store (error : EngineError)
  | EmptyName
  | NameTooLong
  | PayloadTooLarge
  | CorruptMetadata
  | CounterExhausted
  | ObjectNotFound
  | EmptyReferenceName
  | ReferenceNameTooLong
  deriving DecidableEq

def queue_namespace (name : Bytes) : Except DomainTransactionError Bytes := do
  let len ← ok_or .NameTooLong (UInt32.try_from name.length)
  return QUEUE_PREFIX ++ (len.to_be_bytes ++ name)

def encode_queue_message (id : UInt64) (payload : Bytes) (options : PushOptions) : Except DomainTransactionError Bytes := do
  let payload ← write_bytes .PayloadTooLarge payload
  return [MESSAGE_VERSION] ++ ([0] ++ (id.to_le_bytes ++ ((0 : UInt32).to_le_bytes ++
    (options.priority.to_le_bytes ++ (options.available_at_ms.to_le_bytes ++ ((0 : Int64).to_le_bytes ++ payload))))))

def tuple_key (front : Bytes) : List Bytes → Except DomainTransactionError Bytes
  | [] => .ok front
  | component :: components => do
    let len ← ok_or .NameTooLong (UInt32.try_from component.length)
    tuple_key (front ++ (len.to_be_bytes ++ component)) components

def encode_stream_entry (payload : Bytes) : Except DomainTransactionError Bytes := do
  let written ← write_bytes .PayloadTooLarge payload
  return [STREAM_ENTRY_VERSION] ++ written

def object_key (id : ObjectId) : Bytes := OBJECT_PREFIX ++ id.val

def reference_key (ns name : Bytes) : Except DomainTransactionError Bytes :=
  if ns = [] ∨ name = [] then .error .EmptyReferenceName else do
  let namespace_len ← ok_or .ReferenceNameTooLong (UInt32.try_from ns.length)
  let name_len ← ok_or .ReferenceNameTooLong (UInt32.try_from name.length)
  return OBJECT_REF_PREFIX ++ (namespace_len.to_be_bytes ++ (ns ++ (name_len.to_be_bytes ++ name)))

def encode_object (content : Bytes) : Except DomainTransactionError Bytes := do
  let len ← ok_or .PayloadTooLarge (UInt64.try_from content.length)
  return [OBJECT_VERSION] ++ (len.to_le_bytes ++ content)

def decode_u64 (bytes : Bytes) : Except DomainTransactionError UInt64 :=
  if bytes.length = 8 then .ok (UInt64.from_le_bytes bytes) else .error .CorruptMetadata

/-- The counter at a key, which starts at the given number. -/
def counter (self : Transaction) (key : Bytes) (first : UInt64) : Except DomainTransactionError UInt64 :=
  match self.get_internal key with
  | none => .ok first
  | some bytes => decode_u64 bytes

section
variable [Hashes]

/-- What `push_queue` and `append_stream` stage: first the counter behind the number, and then the entry. -/
def stage_numbered (io : Io) (next_key : Bytes) (next : UInt64) (entry_key : Bytes) (encoded : Except DomainTransactionError Bytes) :
    EStateM DomainTransactionError Transaction Unit := do
  rethrow .Store (put_internal io next_key next.to_le_bytes)
  let entry ← lift encoded
  rethrow .Store (put_internal io entry_key entry)

def push_queue (io : Io) (queue payload : Bytes) (options : PushOptions) : EStateM DomainTransactionError Transaction UInt64 := do
  if queue = [] then throw .EmptyName else
  let ns ← lift (queue_namespace queue)
  let meta_key := ns ++ ascii ":next"
  let id ← lift (counter (← get) meta_key 1)
  let next ← lift (ok_or .CounterExhausted (id.checked_add 1))
  stage_numbered io meta_key next (ns ++ ascii ":m:" ++ id.to_be_bytes) (encode_queue_message id payload options)
  return id

def append_stream (io : Io) (stream payload : Bytes) : EStateM DomainTransactionError Transaction UInt64 := do
  if stream = [] then throw .EmptyName else
  let ns ← lift (tuple_key STREAM_PREFIX [stream])
  let next_key := ns ++ ascii ":next"
  let offset ← lift (counter (← get) next_key 0)
  let next ← lift (ok_or .CounterExhausted (offset.checked_add 1))
  stage_numbered io next_key next (ns ++ ascii ":e:" ++ offset.to_be_bytes) (encode_stream_entry payload)
  return offset

def publish_topic (io : Io) (topic payload : Bytes) : EStateM DomainTransactionError Transaction UInt64 := append_stream io topic payload

def put_object (io : Io) (content : Bytes) : EStateM DomainTransactionError Transaction ObjectId := do
  let id := Hashes.sha256 content
  let key := object_key id
  if ((← get).get_internal key).isNone then
    let encoded ← lift (encode_object content)
    rethrow .Store (put_internal io key encoded)
    return id
  else return id

def link_object (io : Io) (ns name : Bytes) (id : ObjectId) : EStateM DomainTransactionError Transaction Unit := do
  if ((← get).get_internal (object_key id)).isNone then throw .ObjectNotFound else
  let key ← lift (reference_key ns name)
  rethrow .Store (put_internal io key id.val)

def unlink_object (io : Io) (ns name : Bytes) : EStateM DomainTransactionError Transaction Bool := do
  let key ← lift (reference_key ns name)
  if ((← get).get_internal key).isSome then
    rethrow .Store (delete_internal io key)
    return true
  else return false

end

end VoodooStore
