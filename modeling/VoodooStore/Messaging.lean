import VoodooStore.TransactionDomains

/-!
# Streams, topics and subscriptions

The entries of a stream lie under its name, each at its offset; the next offset
lies beside them. A topic is a stream with named cursors.
-/

def UInt64.from_be_bytes (bytes : List UInt8) : UInt64 := .ofNat (Endian.ofBe bytes)

namespace VoodooStore
open Effects
set_option linter.unusedSimpArgs false

def SUB_PREFIX : Bytes := INTERNAL_KEY_PREFIX ++ ascii "sub:"
def ENTRY_VERSION : UInt8 := 1

structure StreamEntry where
  offset : UInt64
  payload : Bytes
  deriving DecidableEq

structure SubscriptionState where
  next_offset : UInt64
  deriving DecidableEq

inductive MessagingError
  | Store (error : EngineError)
  | EmptyName
  | NameTooLong
  | PayloadTooLarge
  | OffsetExhausted
  | CorruptMetadata
  | CorruptEntry
  | CursorRegression (current requested : UInt64)
  deriving DecidableEq

/-- A handle on a stream, less the store. -/
structure Stream where
  name : Bytes
  next_key : Bytes
  entry_prefix : Bytes

namespace Messaging

def tuple_key (front : Bytes) : List Bytes → Except MessagingError Bytes
  | [] => .ok front
  | component :: components => do
    let len ← ok_or .NameTooLong (UInt32.try_from component.length)
    tuple_key (front ++ (len.to_be_bytes ++ component)) components

def validate_name (name : Bytes) : Except MessagingError Unit := if name = [] then .error .EmptyName else .ok ()

def subscription_key (topic subscription : Bytes) : Except MessagingError Bytes := do
  validate_name subscription
  tuple_key SUB_PREFIX [topic,subscription]

def encode_entry (payload : Bytes) : Except MessagingError Bytes := do
  let written ← write_bytes .PayloadTooLarge payload
  return [ENTRY_VERSION] ++ written

def decode_entry (encoded : Bytes) : Except MessagingError Bytes :=
  if encoded.length < 5 ∨ encoded.head? ≠ some ENTRY_VERSION then .error .CorruptEntry else
  let len := (UInt32.from_le_bytes ((encoded.drop 1).take 4)).toNat
  if encoded.length ≠ 5 + len then .error .CorruptEntry else .ok (encoded.drop 5)

def decode_entry_offset (front key : Bytes) : Except MessagingError UInt64 :=
  if ¬ starts_with key front ∨ key.length ≠ front.length + 8 then .error .CorruptMetadata
  else .ok (UInt64.from_be_bytes (key.drop front.length))

end Messaging
open Messaging

def Stream.new (name : Bytes) : Except MessagingError Stream := do
  validate_name name
  let ns ← Messaging.tuple_key STREAM_PREFIX [name]
  return ⟨name,ns ++ ascii ":next",ns ++ ascii ":e:"⟩

def Stream.entry_key (self : Stream) (offset : UInt64) : Bytes := Stream.entry_prefix self ++ offset.to_be_bytes

/-- Eight bytes that hold an offset, or nothing for zero. -/
def stored_offset (found : Option Bytes) : Except MessagingError UInt64 :=
  match found with
  | none => .ok 0
  | some bytes => if bytes.length = 8 then .ok (UInt64.from_le_bytes bytes) else .error .CorruptMetadata

def Stream.next_offset (self : Stream) (store : Store) : Except MessagingError UInt64 := stored_offset (store.get self.next_key)

/-- The loop of `read_from` over the entries. -/
def collect_entries (front : Bytes) (offset : UInt64) (limit : Nat) (entries : List StreamEntry) :
    List (Bytes × Bytes) → Except MessagingError (List StreamEntry)
  | [] => .ok entries
  | (key,value) :: rest => do
    let entry_offset ← decode_entry_offset front key
    if entry_offset < offset then collect_entries front offset limit entries rest else
    let entry := StreamEntry.mk entry_offset (← decode_entry value)
    if (entries ++ [entry]).length = limit then return entries ++ [entry]
    else collect_entries front offset limit (entries ++ [entry]) rest

/-- Offsets of entries differ, so that it does not matter that the sort is not stable. -/
def Stream.read_from (self : Stream) (store : Store) (offset : UInt64) (limit : Nat) : Except MessagingError (List StreamEntry) :=
  if limit = 0 then .ok [] else do
  let entries ← collect_entries (Stream.entry_prefix self) offset limit [] (Store.scan_prefix store (Stream.entry_prefix self))
  return entries.mergeSort (fun a b => a.offset ≤ b.offset)

def Stream.tail_offset (self : Stream) (store : Store) : Except MessagingError (Option UInt64) := do
  let next ← self.next_offset store
  return if next = 0 then none else some (next - 1)

/-- A topic is its stream. -/
def Topic.subscription_state (self : Stream) (store : Store) (subscription : Bytes) : Except MessagingError SubscriptionState := do
  let key ← subscription_key self.name subscription
  return ⟨← stored_offset (store.get key)⟩

def Topic.poll (self : Stream) (store : Store) (subscription : Bytes) (limit : Nat) : Except MessagingError (List StreamEntry) := do
  let state ← Topic.subscription_state self store subscription
  self.read_from store state.next_offset limit

section
variable [Hashes]

def Stream.append (self : Stream) (io : Io) (payload : Bytes) : EStateM MessagingError Store UInt64 := do
  let offset ← lift (self.next_offset (← get))
  let next ← lift (ok_or .OffsetExhausted (offset.checked_add 1))
  let value ← lift (encode_entry payload)
  within .Store io (do
    rethrow .Store (put_internal io self.next_key next.to_le_bytes)
    rethrow .Store (put_internal io (self.entry_key offset) value))
  return offset

def Topic.publish (self : Stream) (io : Io) (payload : Bytes) : EStateM MessagingError Store UInt64 := self.append io payload

def Topic.acknowledge_through (self : Stream) (io : Io) (subscription : Bytes) (offset : UInt64) :
    EStateM MessagingError Store SubscriptionState := do
  lift (validate_name subscription)
  let current ← lift (Topic.subscription_state self (← get) subscription)
  let next_offset ← lift (ok_or .OffsetExhausted (offset.checked_add 1))
  if next_offset < current.next_offset then throw (.CursorRegression current.next_offset next_offset) else
  let key ← lift (subscription_key self.name subscription)
  rethrow .Store (put_alone io key next_offset.to_le_bytes)
  return ⟨next_offset⟩

def Topic.reset_subscription (self : Stream) (io : Io) (subscription : Bytes) (next_offset : UInt64) : EStateM MessagingError Store Unit := do
  lift (validate_name subscription)
  let key ← lift (subscription_key self.name subscription)
  rethrow .Store (put_alone io key next_offset.to_le_bytes)

end

end VoodooStore
