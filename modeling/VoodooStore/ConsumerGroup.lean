import VoodooStore.Messaging

/-!
# Consumer groups

A group has one cursor on its stream and at most one lease. A claim hands out
the first entry at or behind the cursor under a new generation; only whoever
holds the lease moves the cursor on.
-/
namespace VoodooStore
open Effects Reading
set_option linter.unusedSimpArgs false

def GROUP_PREFIX : Bytes := INTERNAL_KEY_PREFIX ++ ascii "cg:state:"

structure ConsumerGroupState where
  next_offset : UInt64
  leased_offset : Option UInt64
  lease_until_ms : Int64
  lease_generation : UInt64
  owner : Bytes
  deriving DecidableEq

def ConsumerGroupState.default : ConsumerGroupState := ⟨0,none,0,0,[]⟩

structure ConsumerGroupDelivery where
  entry : StreamEntry
  lease_generation : UInt64
  lease_until_ms : Int64
  deriving DecidableEq

inductive ConsumerGroupError
  | Store (error : EngineError)
  | Messaging (error : MessagingError)
  | EmptyName
  | CorruptRecord
  | LeaseGenerationOverflow
  | TimeOverflow
  | NotLeased
  | OwnerMismatch
  | LeaseMismatch (expected provided : UInt64)
  | OffsetMismatch (expected provided : UInt64)
  deriving DecidableEq

instance : Corrupt ConsumerGroupError := ⟨.CorruptRecord⟩

namespace ConsumerGroup

def validate_names (stream group consumer : Bytes) : Except ConsumerGroupError Unit :=
  if stream = [] ∨ group = [] ∨ consumer = [] then .error .EmptyName else .ok ()

def clear_lease (state : ConsumerGroupState) : ConsumerGroupState :=
  { state with leased_offset := none, lease_until_ms := 0, owner := [] }

def validate_lease (state : ConsumerGroupState) (consumer : Bytes) (offset generation : UInt64) : Except ConsumerGroupError Unit := do
  let leased ← ok_or .NotLeased state.leased_offset
  if state.owner ≠ consumer then .error .OwnerMismatch
  else if state.lease_generation ≠ generation then .error (.LeaseMismatch state.lease_generation generation)
  else if leased ≠ offset then .error (.OffsetMismatch leased offset)
  else .ok ()

def group_key (stream group : Bytes) : Except ConsumerGroupError Bytes := do
  let stream_len ← ok_or .CorruptRecord (UInt32.try_from stream.length)
  let group_len ← ok_or .CorruptRecord (UInt32.try_from group.length)
  return GROUP_PREFIX ++ (stream_len.to_be_bytes ++ (stream ++ (group_len.to_be_bytes ++ group)))

def encode_state (state : ConsumerGroupState) : Except ConsumerGroupError Bytes := do
  let owner ← write_bytes .CorruptRecord state.owner
  return [VERSION] ++ (state.next_offset.to_le_bytes ++ (write_option (state.leased_offset.map UInt64.to_le_bytes) ++
    (state.lease_until_ms.to_le_bytes ++ (state.lease_generation.to_le_bytes ++ owner))))

/-- Whatever is wrong is reported in the same way, so that the check of the length may come last. -/
def read_state : Fields ConsumerGroupError ConsumerGroupState := do
  let version ← Fields.u8
  if version ≠ VERSION then throw .CorruptRecord else do
  let next_offset ← Fields.u64
  let leased_offset ← Fields.option Fields.u64
  let lease_until_ms ← Fields.i64
  let lease_generation ← Fields.u64
  let owner ← Fields.bytes
  return ⟨next_offset,leased_offset,lease_until_ms,lease_generation,owner⟩

def decode_state (bytes : Bytes) : Except ConsumerGroupError ConsumerGroupState := readAll .CorruptRecord read_state bytes

/-- The state of a group, if it has one. -/
def load_state (self : Store) (key : Bytes) : Except ConsumerGroupError (Option ConsumerGroupState) := (self.get key).mapM decode_state

end ConsumerGroup
open ConsumerGroup

def Store.consumer_group_state (self : Store) (stream group : Bytes) : Except ConsumerGroupError ConsumerGroupState := do
  validate_names stream group (ascii "reader")
  let key ← group_key stream group
  return (← load_state self key).getD .default

/-- The first entry of a stream at or behind an offset. -/
def first_entry (self : Store) (stream_name : Bytes) (offset : UInt64) : Except ConsumerGroupError (Option StreamEntry) :=
  Except.mapError .Messaging (do
    let stream ← Stream.new stream_name
    return (← stream.read_from self offset 1).head?)

section
variable [Hashes]

/-- The state of a group is written. -/
def store_state (io : Io) (key : Bytes) (state : ConsumerGroupState) : EStateM ConsumerGroupError Store Unit := do
  let encoded ← lift (encode_state state)
  rethrow .Store (put_alone io key encoded)

def consumer_group_claim (io : Io) (stream_name group consumer : Bytes) (now_ms : Int64) (lease_duration_ms : UInt64) :
    EStateM ConsumerGroupError Store (Option ConsumerGroupDelivery) := do
  lift (validate_names stream_name group consumer)
  let key ← lift (group_key stream_name group)
  let self ← get
  let state := (← lift (load_state self key)).getD .default
  if state.leased_offset.isSome ∧ state.lease_until_ms > now_ms then return none else
  match ← lift (first_entry self stream_name state.next_offset) with
  | none =>
    if state.leased_offset.isSome then store_state io key (clear_lease state)
    return none
  | some entry =>
    let lease_duration ← lift (ok_or .TimeOverflow (Int64.try_from lease_duration_ms))
    let lease_until_ms ← lift (ok_or .TimeOverflow (now_ms.checked_add lease_duration))
    let lease_generation ← lift (ok_or .LeaseGenerationOverflow (state.lease_generation.checked_add 1))
    store_state io key { state with lease_generation, leased_offset := some entry.offset, lease_until_ms, owner := consumer }
    return some ⟨entry,lease_generation,lease_until_ms⟩

/-- The state of the group whose lease is presented, with the key that it lies at. -/
def leased_group (stream group consumer : Bytes) (offset lease_generation : UInt64) :
    EStateM ConsumerGroupError Store (Bytes × ConsumerGroupState) := do
  lift (validate_names stream group consumer)
  let key ← lift (group_key stream group)
  let found ← lift (load_state (← get) key)
  let state ← lift (ok_or .NotLeased found)
  lift (ConsumerGroup.validate_lease state consumer offset lease_generation)
  return (key,state)

def consumer_group_ack (io : Io) (stream group consumer : Bytes) (offset lease_generation : UInt64) :
    EStateM ConsumerGroupError Store Unit := do
  let (key,state) ← leased_group stream group consumer offset lease_generation
  let next_offset ← lift (ok_or .TimeOverflow (offset.checked_add 1))
  store_state io key (clear_lease { state with next_offset })

def consumer_group_nack (io : Io) (stream group consumer : Bytes) (offset lease_generation : UInt64) :
    EStateM ConsumerGroupError Store Unit := do
  let (key,state) ← leased_group stream group consumer offset lease_generation
  store_state io key (clear_lease state)

def consumer_group_reset (io : Io) (stream group : Bytes) (next_offset : UInt64) : EStateM ConsumerGroupError Store Unit := do
  lift (validate_names stream group (ascii "reset"))
  let key ← lift (group_key stream group)
  let state := (← lift (load_state (← get) key)).getD .default
  store_state io key (clear_lease { state with next_offset })

end

end VoodooStore
