import VoodooStore.Fields

/-!
# Keys that expire

The expiry of a key of a user lies under a key of its own. What a key holds and
when it expires is a law about what was done to it (`Life`): the store follows
it in every run in which no key is deleted that still has an expiry.
-/

def UInt32.from_be_bytes (bytes : List UInt8) : UInt32 := .ofNat (Endian.ofBe bytes)

namespace VoodooStore
open Effects
set_option linter.unusedSimpArgs false

def TTL_PREFIX : Bytes := INTERNAL_KEY_PREFIX ++ ascii "ttl:"
def TTL_VALUE_VERSION : UInt8 := 1

structure TtlInfo where
  expires_at_ms : Int64
  deriving DecidableEq

def TtlInfo.is_expired (self : TtlInfo) (now_ms : Int64) : Bool := self.expires_at_ms ≤ now_ms

structure TtlSweepReport where
  scanned : Nat
  expired : Nat
  removed : Nat
  deriving DecidableEq

inductive TtlError
  | Store (error : EngineError)
  | KeyTooLarge
  | CorruptMetadata
  deriving DecidableEq

def ttl_key (key : Bytes) : Except TtlError Bytes := do
  let key_len ← ok_or .KeyTooLarge (UInt32.try_from key.length)
  return TTL_PREFIX ++ (key_len.to_be_bytes ++ key)

def decode_ttl_key (encoded : Bytes) : Except TtlError Bytes :=
  if ¬ starts_with encoded TTL_PREFIX then .error .CorruptMetadata else
  let rest := encoded.drop TTL_PREFIX.length
  if rest.length < 4 then .error .CorruptMetadata else
  let key_len := (UInt32.from_be_bytes (rest.take 4)).toNat
  if rest.length ≠ 4 + key_len then .error .CorruptMetadata else .ok (rest.drop 4)

def encode_ttl (ttl : TtlInfo) : Bytes := [TTL_VALUE_VERSION] ++ ttl.expires_at_ms.to_le_bytes

def decode_ttl (encoded : Bytes) : Except TtlError TtlInfo :=
  if encoded.length ≠ 9 ∨ encoded.head? ≠ some TTL_VALUE_VERSION then .error .CorruptMetadata
  else .ok ⟨Int64.from_le_bytes (encoded.drop 1)⟩

def Store.ttl (self : Store) (key : Bytes) : Except TtlError (Option TtlInfo) := do
  let metadata_key ← ttl_key key
  (self.get metadata_key).mapM decode_ttl

def Store.get_at (self : Store) (key : Bytes) (now_ms : Int64) : Except TtlError (Option Bytes) :=
  match self.get key with
  | none => .ok none
  | some value => do
    let ttl ← self.ttl key
    if ttl.any (fun ttl => ttl.is_expired now_ms) then return none else return some value

/-- An expired entry: the key of the expiry, the key of the user and whether that exists. -/
abbrev ExpiredEntry := Bytes × Bytes × Bool

/-- The loop of `purge_expired` over the expiries. -/
def expired_entries (self : Store) (now_ms : Int64) (limit scanned : Nat) (found : List ExpiredEntry) :
    List (Bytes × Bytes) → Except TtlError (Nat × List ExpiredEntry)
  | [] => .ok (scanned,found)
  | (metadata_key,metadata_value) :: metadata => do
    let ttl ← decode_ttl metadata_value
    if ttl.is_expired now_ms then
      let user_key ← decode_ttl_key metadata_key
      let entry := (metadata_key,user_key,(self.get user_key).isSome)
      if (found ++ [entry]).length = limit then return (scanned + 1,found ++ [entry])
      else expired_entries self now_ms limit (scanned + 1) (found ++ [entry]) metadata
    else expired_entries self now_ms limit (scanned + 1) found metadata

inductive CasOutcome
  | Swapped
  | Mismatch
  deriving DecidableEq

inductive AtomicError
  | Store (error : EngineError)
  | InvalidCounter
  | Overflow
  deriving DecidableEq

section
variable [Hashes]

/-- `Store::put` -/
def Store.put (io : Io) (key value : Bytes) : EStateM EngineError Store Unit := within id io (VoodooStore.put io key value)

/-- `Store::delete` -/
def Store.delete (io : Io) (key : Bytes) : EStateM EngineError Store Unit := within id io (VoodooStore.delete io key)

def put_with_ttl (io : Io) (key value : Bytes) (expires_at_ms : Int64) : EStateM TtlError Store Unit := do
  let metadata_key ← lift (ttl_key key)
  within .Store io (do
    rethrow .Store (put io key value)
    rethrow .Store (put_internal io metadata_key (encode_ttl ⟨expires_at_ms⟩)))

def clear_ttl (io : Io) (key : Bytes) : EStateM TtlError Store Bool := do
  let metadata_key ← lift (ttl_key key)
  if ((← get).get metadata_key).isNone then return false else
  rethrow .Store (delete_alone io metadata_key)
  return true

/-- The loop of `purge_expired` over what it has found. -/
def remove_expired (io : Io) : List ExpiredEntry → EStateM EngineError Transaction Unit
  | [] => return
  | (metadata_key,user_key,present) :: entries => do
    if present then delete io user_key
    delete_internal io metadata_key
    remove_expired io entries

def purge_expired (io : Io) (now_ms : Int64) (limit : Nat) : EStateM TtlError Store TtlSweepReport := do
  if limit = 0 then return ⟨0,0,0⟩ else
  let self ← get
  let (scanned,entries) ← lift (expired_entries self now_ms limit 0 [] (Store.scan_prefix self TTL_PREFIX))
  if entries.length = 0 then return ⟨scanned,0,0⟩ else
  let removed := (entries.filter (fun entry => entry.2.2)).length
  within .Store io (rethrow .Store (remove_expired io entries))
  return ⟨scanned,entries.length,removed⟩

def compare_and_swap (io : Io) (key : Bytes) (expected replacement : Option Bytes) : EStateM EngineError Store CasOutcome := do
  if (← get).get key ≠ expected then return .Mismatch else
  within id io (match replacement with
    | some value => put io key value
    | none => delete io key)
  return .Swapped

/-- The number that a counter holds; one that is missing starts at zero. -/
def current_i64 (self : Store) (key : Bytes) : Except AtomicError Int64 :=
  match self.get key with
  | some bytes => if bytes.length = 8 then .ok (Int64.from_le_bytes bytes) else .error .InvalidCounter
  | none => .ok 0

def increment_i64 (io : Io) (key : Bytes) (delta : Int64) : EStateM AtomicError Store Int64 := do
  let current ← lift (current_i64 (← get) key)
  let next ← lift (ok_or .Overflow (current.checked_add delta))
  rethrow .Store (Store.put io key next.to_le_bytes)
  return next

end

end VoodooStore
