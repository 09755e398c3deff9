import VoodooStore.Fields

/-!
# Queues

The messages of a queue lie under its name, each at its number; the number of
the next message lies beside them. A claim raises the attempts of a message and
hands these out as the generation of the lease.
-/
namespace VoodooStore
open Effects Reading
set_option linter.unusedSimpArgs false

def QUEUE_PREFIX : Bytes := INTERNAL_KEY_PREFIX ++ ascii "q:"
def MESSAGE_VERSION : UInt8 := 1

inductive QueueState
  | Ready
  | Leased
  | Dead
  deriving DecidableEq

structure PushOptions where
  available_at_ms : Int64
  priority : Int32
  deriving DecidableEq

def PushOptions.default : PushOptions := ⟨0,0⟩

structure QueueMessage where
  id : UInt64
  payload : Bytes
  attempts : UInt32
  priority : Int32
  available_at_ms : Int64
  lease_until_ms : Int64
  lease_generation : UInt32
  deriving DecidableEq

structure StoredMessage where
  state : QueueState
  id : UInt64
  payload : Bytes
  attempts : UInt32
  priority : Int32
  available_at_ms : Int64
  lease_until_ms : Int64
  deriving DecidableEq

inductive QueueError
  | Store (error : EngineError)
  | EmptyName
  | NameTooLong
  | PayloadTooLarge
  | InvalidEncoding
  | IdExhausted
  | AttemptExhausted
  | TimeOverflow
  | CountOverflow
  | NotFound (id : UInt64)
  | NotLeased (id : UInt64)
  | LeaseMismatch (id : UInt64) (expected provided : UInt32)
  deriving DecidableEq

instance : Corrupt QueueError := ⟨.InvalidEncoding⟩

def QueueState.as_u8 : QueueState → UInt8
  | .Ready => 0
  | .Leased => 1
  | .Dead => 2

def QueueState.try_from (value : UInt8) : Except QueueError QueueState :=
  if value = 0 then .ok .Ready else if value = 1 then .ok .Leased else if value = 2 then .ok .Dead
  else .error .InvalidEncoding

def encode_message (message : StoredMessage) : Except QueueError Bytes := do
  let payload ← write_bytes .PayloadTooLarge message.payload
  return [MESSAGE_VERSION] ++ ([message.state.as_u8] ++ (message.id.to_le_bytes ++ (message.attempts.to_le_bytes ++
    (message.priority.to_le_bytes ++ (message.available_at_ms.to_le_bytes ++ (message.lease_until_ms.to_le_bytes ++ payload))))))

/-- The fields one after another, as their fixed offsets have them. Whatever is
    wrong is reported in the same way, so that the checks of the length may come last. -/
def read_message : Fields QueueError StoredMessage := do
  let version ← Fields.u8
  if version ≠ MESSAGE_VERSION then throw .InvalidEncoding else do
  let state ← lift (QueueState.try_from (← Fields.u8))
  let id ← Fields.u64
  let attempts ← Fields.u32
  let priority ← Fields.i32
  let available_at_ms ← Fields.i64
  let lease_until_ms ← Fields.i64
  let payload ← Fields.bytes
  return { state, id, payload, attempts, priority, available_at_ms, lease_until_ms }

def decode_message (bytes : Bytes) : Except QueueError StoredMessage := readAll .InvalidEncoding read_message bytes

/-- A handle on a queue, less the store. -/
structure Queue where
  name : Bytes
  meta_key : Bytes
  message_prefix : Bytes

def Queue.new (name : Bytes) : Except QueueError Queue :=
  if name = [] then .error .EmptyName else
  match UInt32.try_from name.length with
  | none => .error .NameTooLong
  | some name_len =>
    let ns := QUEUE_PREFIX ++ (name_len.to_be_bytes ++ name)
    .ok ⟨name,ns ++ ascii ":next",ns ++ ascii ":m:"⟩

def Queue.message_key (self : Queue) (id : UInt64) : Bytes := Queue.message_prefix self ++ id.to_be_bytes

def Queue.next_id (self : Queue) (store : Store) : Except QueueError UInt64 :=
  match store.get self.meta_key with
  | none => .ok 1
  | some value => if value.length ≠ 8 then .error .InvalidEncoding else .ok (UInt64.from_le_bytes value)

def Queue.load_message (_self : Queue) (store : Store) (key : Bytes) : Except QueueError (Option StoredMessage) :=
  (store.get key).mapM decode_message

def validate_lease (message : StoredMessage) (lease_generation : UInt32) : Except QueueError Unit :=
  if message.state ≠ .Leased then .error (.NotLeased message.id)
  else if message.attempts ≠ lease_generation then .error (.LeaseMismatch message.id message.attempts lease_generation)
  else .ok ()

def StoredMessage.eligible (message : StoredMessage) (now_ms : Int64) : Bool :=
  match message.state with
  | .Ready => message.available_at_ms ≤ now_ms
  | .Leased => message.lease_until_ms ≤ now_ms
  | .Dead => false

/-- The loop of `claim` over the messages: the highest priority, and among these the lowest number. -/
def pick_message (now_ms : Int64) (candidate : Option (Bytes × StoredMessage)) :
    List (Bytes × Bytes) → Except QueueError (Option (Bytes × StoredMessage))
  | [] => .ok candidate
  | (key,value) :: entries => do
    let message ← decode_message value
    if !message.eligible now_ms then pick_message now_ms candidate entries
    else if candidate.all (fun current => message.priority > current.2.priority ∨
        message.priority = current.2.priority ∧ message.id < current.2.id) then
      pick_message now_ms (some (key,message)) entries
    else pick_message now_ms candidate entries

/-- The loop of `purge_dead`. -/
def dead_keys (keys : List Bytes) : List (Bytes × Bytes) → Except QueueError (List Bytes)
  | [] => .ok keys
  | (key,value) :: entries => do
    let message ← decode_message value
    if message.state = .Dead then dead_keys (keys ++ [key]) entries else dead_keys keys entries

structure QueueStats where
  ready : UInt64
  leased : UInt64
  dead : UInt64
  total : UInt64
  oldest_ready_at_ms : Option Int64
  deriving DecidableEq

def QueueStats.default : QueueStats := ⟨0,0,0,0,none⟩

/-- What `Queue::stats` and `aggregate_stats` do with a message that they count. -/
def QueueStats.count (stats : QueueStats) (message : StoredMessage) : Except QueueError QueueStats := do
  let total ← ok_or .CountOverflow (stats.total.checked_add 1)
  match message.state with
  | .Ready =>
    let ready ← ok_or .CountOverflow (stats.ready.checked_add 1)
    let oldest := match stats.oldest_ready_at_ms with
      | none => message.available_at_ms
      | some oldest => min oldest message.available_at_ms
    return { stats with total, ready, oldest_ready_at_ms := some oldest }
  | .Leased =>
    let leased ← ok_or .CountOverflow (stats.leased.checked_add 1)
    return { stats with total, leased }
  | .Dead =>
    let dead ← ok_or .CountOverflow (stats.dead.checked_add 1)
    return { stats with total, dead }

/-- The loop of `Queue::stats`. -/
def count_messages (stats : QueueStats) : List (Bytes × Bytes) → Except QueueError QueueStats
  | [] => .ok stats
  | (_,value) :: entries => do
    let message ← decode_message value
    let stats ← stats.count message
    count_messages stats entries

def Queue.stats (self : Queue) (store : Store) : Except QueueError QueueStats :=
  count_messages .default (Store.scan_prefix store (Queue.message_prefix self))

/-- `slice::windows` -/
def windows (size : Nat) (bytes : Bytes) : List Bytes := (List.range (bytes.length + 1 - size)).map (fun i => (bytes.drop i).take size)

/-- The loop of `aggregate_stats`. -/
def aggregate_messages (stats : QueueStats) : List (Bytes × Bytes) → Except QueueError QueueStats
  | [] => .ok stats
  | (key,value) :: entries =>
    if !(windows 3 key).any (fun window => window = ascii ":m:") then aggregate_messages stats entries else do
    let message ← decode_message value
    let stats ← stats.count message
    aggregate_messages stats entries

def aggregate_stats (store : Store) : Except QueueError QueueStats :=
  aggregate_messages .default (Store.scan_prefix store QUEUE_PREFIX)

section
variable [Hashes]

/-- The transaction of `push_with_options`. -/
def Queue.push_message (self : Queue) (io : Io) (next_id : UInt64) (message : StoredMessage) : EStateM QueueError Transaction Unit := do
  rethrow .Store (put_internal io self.meta_key next_id.to_le_bytes)
  let encoded ← lift (encode_message message)
  rethrow .Store (put_internal io (self.message_key message.id) encoded)

def Queue.push_with_options (self : Queue) (io : Io) (payload : Bytes) (options : PushOptions) : EStateM QueueError Store UInt64 := do
  let id ← lift (self.next_id (← get))
  let next_id ← lift (ok_or .IdExhausted (id.checked_add 1))
  within .Store io (self.push_message io next_id
    { state := .Ready, id, payload, attempts := 0, priority := options.priority, available_at_ms := options.available_at_ms,
      lease_until_ms := 0 })
  return id

def Queue.push (self : Queue) (io : Io) (payload : Bytes) : EStateM QueueError Store UInt64 :=
  self.push_with_options io payload .default

def Queue.push_at (self : Queue) (io : Io) (payload : Bytes) (available_at_ms : Int64) : EStateM QueueError Store UInt64 :=
  self.push_with_options io payload ⟨available_at_ms,0⟩

def Queue.claim (self : Queue) (io : Io) (now_ms : Int64) (lease_duration_ms : UInt64) :
    EStateM QueueError Store (Option QueueMessage) := do
  let lease_duration ← lift (ok_or .TimeOverflow (Int64.try_from lease_duration_ms))
  let lease_until_ms ← lift (ok_or .TimeOverflow (now_ms.checked_add lease_duration))
  match ← lift (pick_message now_ms none (Store.scan_prefix (← get) (Queue.message_prefix self))) with
  | none => return none
  | some (key,message) =>
    let attempts ← lift (ok_or .AttemptExhausted (message.attempts.checked_add 1))
    let message := { message with attempts, state := .Leased, lease_until_ms }
    let encoded ← lift (encode_message message)
    rethrow .Store (put_alone io key encoded)
    return some ⟨message.id,message.payload,message.attempts,message.priority,message.available_at_ms,message.lease_until_ms,
      message.attempts⟩

/-- The message that a worker with this lease may settle. -/
def Queue.leased_message (self : Queue) (id : UInt64) (lease_generation : UInt32) : EStateM QueueError Store StoredMessage := do
  let found ← lift (self.load_message (← get) (self.message_key id))
  let message ← lift (ok_or (.NotFound id) found)
  lift (validate_lease message lease_generation)
  return message

def Queue.ack (self : Queue) (io : Io) (id : UInt64) (lease_generation : UInt32) : EStateM QueueError Store Unit := do
  let _ ← self.leased_message id lease_generation
  rethrow .Store (delete_alone io (self.message_key id))

def Queue.nack (self : Queue) (io : Io) (id : UInt64) (lease_generation : UInt32) (available_at_ms : Int64) :
    EStateM QueueError Store Unit := do
  let message ← self.leased_message id lease_generation
  let encoded ← lift (encode_message { message with state := .Ready, available_at_ms, lease_until_ms := 0 })
  rethrow .Store (put_alone io (self.message_key id) encoded)

def Queue.dead_letter (self : Queue) (io : Io) (id : UInt64) (lease_generation : UInt32) : EStateM QueueError Store Unit := do
  let message ← self.leased_message id lease_generation
  let encoded ← lift (encode_message { message with state := .Dead, lease_until_ms := 0 })
  rethrow .Store (put_alone io (self.message_key id) encoded)

def Queue.purge_dead (self : Queue) (io : Io) : EStateM QueueError Store UInt64 := do
  let keys ← lift (dead_keys [] (Store.scan_prefix (← get) (Queue.message_prefix self)))
  if keys = [] then return 0 else
  let count ← lift (ok_or .CountOverflow (UInt64.try_from keys.length))
  within .Store io (rethrow .Store (delete_keys io keys))
  return count

end

end VoodooStore
