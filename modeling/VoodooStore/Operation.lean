import VoodooStore.Header
import VoodooStore.Log

/-!
# Operations, their payloads and the errors of the engine

A transaction stages puts and deletes; each travels as the payload of one log
record. Committing applies them, in order, to the key/value map.
-/
namespace VoodooStore
set_option linter.unusedSimpArgs false

/-- The kinds of `std::io::Error` that the engine tells apart or makes. -/
inductive ErrorKind
  | StorageFull
  | QuotaExceeded
  | WouldBlock
  | InvalidInput
  | AlreadyExists
  | InvalidData
  | Other
  deriving DecidableEq, Repr

structure IoError where
  kind : ErrorKind
  message : String
  deriving DecidableEq, Repr

inductive EngineError
  | Io (error : IoError)
  | Header (error : HeaderError)
  | Log (error : StoreError)
  | AlreadyOpen
  | StorageQuotaExceeded (max_bytes : UInt64)
  | DiskFull
  | NamespaceQuotaExceeded (ns : String) (max_bytes : UInt64)
  | NamespaceQuotaOverflow
  | KeyTooLarge
  | ReservedKey
  | Randomness (message : String)
  | InvalidOperationPayload
  | TransactionFinished
  | CounterExhausted
  | ClockBeforeUnixEpoch
  | TimestampOverflow
  | BackupDestinationIsSource
  | NonMonotonicSequence (previous current : UInt64)
  | RecordAfterCommit (tx_id : UInt64)
  | Panic
  deriving DecidableEq, Repr

instance : Panics EngineError := ⟨.Panic⟩

inductive Operation
  | Put (key value : Bytes)
  | Delete (key : Bytes)
  deriving DecidableEq, Repr

/-- The key/value map of a store, `HashMap<Vec<u8>, Vec<u8>>`. Iterating it in
    key order loses nothing: no modelled function depends on the hash order of it. -/
abbrev State := Std.ExtTreeMap Bytes Bytes compare

def apply_operation (state : State) : Operation → State
  | .Put key value => state.insert key value
  | .Delete key => state.erase key

def apply_operations (state : State) (operations : List Operation) : State :=
  operations.foldl apply_operation state

def encode_put (key value : Bytes) : Except EngineError Bytes :=
  match UInt32.try_from key.length with
  | none => .error .KeyTooLarge
  | some key_len => .ok (key_len.to_le_bytes ++ (key ++ value))

def decode_put (payload : Bytes) : Except EngineError Operation :=
  if payload.length < 4 then .error .InvalidOperationPayload else do
  let key_len := (UInt32.from_le_bytes (← slice payload 0 4)).toNat
  match usize_checked_add 4 key_len with
  | none => .error .InvalidOperationPayload
  | some key_end =>
    if key_end > payload.length then .error .InvalidOperationPayload else do
    return .Put (← slice payload 4 key_end) (← slice payload key_end payload.length)

def encode_delete (key : Bytes) : Except EngineError Bytes :=
  match UInt32.try_from key.length with
  | none => .error .KeyTooLarge
  | some key_len => .ok (key_len.to_le_bytes ++ key)

def decode_delete (payload : Bytes) : Except EngineError Operation :=
  if payload.length < 4 then .error .InvalidOperationPayload else do
  let key_len := (UInt32.from_le_bytes (← slice payload 0 4)).toNat
  if payload.length ≠ 4 + key_len then .error .InvalidOperationPayload else do
  return .Delete (← slice payload 4 payload.length)

/-- A payload starts with a length, and its key lies inside it. -/
theorem key_len_cut {payload lenBytes : Bytes} (sliced : (slice payload 0 4 : Except EngineError Bytes) = .ok lenBytes) :
    payload = (UInt32.from_le_bytes lenBytes).to_le_bytes ++ payload.drop 4 := by
  obtain ⟨cut,size⟩ := slice_splits sliced
  rw [List.drop_zero] at cut
  rw [u32_to_from_le (by omega)]
  exact cut

/-- A key as long as its length field says spells that field. -/
theorem key_len_of {key : Bytes} {len : UInt32} (size : key.length = len.toNat) :
    UInt32.try_from key.length = some len := by
  have small := len.toNat_lt
  rw [size,u32_try_from_some small]
  congr 1
  exact UInt32.ofNat_toNat

theorem decode_put_encode {key value payload : Bytes} (encoded : encode_put key value = .ok payload) :
    decode_put payload = .ok (.Put key value) := by
  unfold encode_put at encoded
  by_cases fits : key.length < 2 ^ 32
  · rw [u32_try_from_some fits] at encoded
    cases encoded
    have long : ¬ ((UInt32.ofNat key.length).to_le_bytes ++ (key ++ value)).length < 4 := by simp
    have length : (slice ((UInt32.ofNat key.length).to_le_bytes ++ (key ++ value)) 0 4 : Except EngineError Bytes) =
        .ok (UInt32.ofNat key.length).to_le_bytes := slice_part [] (UInt32.ofNat key.length).to_le_bytes _ rfl (by simp)
    have room : usize_checked_add 4 key.length = some (4 + key.length) := if_pos (by omega)
    have inside : ¬ 4 + key.length > ((UInt32.ofNat key.length).to_le_bytes ++ (key ++ value)).length := by
      simp
    have keySlice : (slice ((UInt32.ofNat key.length).to_le_bytes ++ (key ++ value)) 4 (4 + key.length) :
        Except EngineError Bytes) = .ok key := slice_part _ key value (by simp) rfl
    have valueSlice : (slice ((UInt32.ofNat key.length).to_le_bytes ++ (key ++ value)) (4 + key.length)
        ((UInt32.ofNat key.length).to_le_bytes ++ (key ++ value)).length : Except EngineError Bytes) = .ok value := by
      have parts := slice_part (ε := EngineError) ((UInt32.ofNat key.length).to_le_bytes ++ key) value [] rfl rfl
      simpa [Nat.add_assoc] using parts
    simp only [decode_put,long,if_false,length,ok_bind,u32_from_to_le,u32_of_length fits,room,inside,keySlice,
      valueSlice,pure_is_ok]
  · have refused : UInt32.try_from key.length = none := if_neg fits
    rw [refused] at encoded
    cases encoded

theorem encode_put_decode {payload key value : Bytes} (decoded : decode_put payload = .ok (.Put key value)) :
    encode_put key value = .ok payload := by
  rw [decode_put,refuse_ok_iff] at decoded
  obtain ⟨lenBytes,lenSlice,decoded⟩ := bind_ok_iff.mp decoded.2
  dsimp only at decoded
  split at decoded
  · cases decoded
  · rename_i key_end added
    obtain ⟨-,decoded⟩ := refuse_ok_iff.mp decoded
    obtain ⟨keyBytes,keySlice,decoded⟩ := bind_ok_iff.mp decoded
    obtain ⟨valueBytes,valueSlice,decoded⟩ := bind_ok_iff.mp decoded
    cases decoded
    unfold usize_checked_add at added
    split at added
    · cases added
      obtain ⟨keyCut,keySize⟩ := slice_splits keySlice
      obtain ⟨valueCut,-⟩ := slice_splits valueSlice
      have length := key_len_cut lenSlice
      rw [List.drop_length,List.append_nil] at valueCut
      have keyLen : key.length = (UInt32.from_le_bytes lenBytes).toNat := by omega
      rw [encode_put,key_len_of keyLen,← valueCut,← keyCut]
      exact congrArg Except.ok length.symm
    · cases added

theorem decode_delete_encode {key payload : Bytes} (encoded : encode_delete key = .ok payload) :
    decode_delete payload = .ok (.Delete key) := by
  unfold encode_delete at encoded
  by_cases fits : key.length < 2 ^ 32
  · rw [u32_try_from_some fits] at encoded
    cases encoded
    have long : ¬ ((UInt32.ofNat key.length).to_le_bytes ++ key).length < 4 := by simp
    have length : (slice ((UInt32.ofNat key.length).to_le_bytes ++ key) 0 4 : Except EngineError Bytes) =
        .ok (UInt32.ofNat key.length).to_le_bytes := slice_part [] (UInt32.ofNat key.length).to_le_bytes _ rfl (by simp)
    have exact_length : ((UInt32.ofNat key.length).to_le_bytes ++ key).length = 4 + key.length := by simp
    have keySlice : (slice ((UInt32.ofNat key.length).to_le_bytes ++ key) 4 (4 + key.length) :
        Except EngineError Bytes) = .ok key := by
      have parts := slice_part (ε := EngineError) (UInt32.ofNat key.length).to_le_bytes key [] rfl rfl
      simpa using parts
    simp only [decode_delete,exact_length,length,ok_bind,u32_from_to_le,u32_of_length fits,keySlice,ne_eq,
      not_true_eq_false,if_false,pure_is_ok]
    simp
  · have refused : UInt32.try_from key.length = none := if_neg fits
    rw [refused] at encoded
    cases encoded

theorem encode_delete_decode {payload key : Bytes} (decoded : decode_delete payload = .ok (.Delete key)) :
    encode_delete key = .ok payload := by
  rw [decode_delete,refuse_ok_iff] at decoded
  obtain ⟨lenBytes,lenSlice,decoded⟩ := bind_ok_iff.mp decoded.2
  dsimp only at decoded
  obtain ⟨lengthIs,decoded⟩ := refuse_ok_iff.mp decoded
  obtain ⟨keyBytes,keySlice,decoded⟩ := bind_ok_iff.mp decoded
  cases decoded
  rw [not_not] at lengthIs
  obtain ⟨keyCut,keySize⟩ := slice_splits keySlice
  have length := key_len_cut lenSlice
  rw [List.drop_length,List.append_nil] at keyCut
  have keyLen : key.length = (UInt32.from_le_bytes lenBytes).toNat := by omega
  rw [encode_delete,key_len_of keyLen,← keyCut]
  exact congrArg Except.ok length.symm

/-- Puts decode from put payloads alone. -/
theorem decode_put_is_put {payload : Bytes} {operation : Operation} (decoded : decode_put payload = .ok operation) :
    ∃ key value, operation = .Put key value := by
  rw [decode_put,refuse_ok_iff] at decoded
  obtain ⟨lenBytes,-,decoded⟩ := bind_ok_iff.mp decoded.2
  dsimp only at decoded
  split at decoded
  · cases decoded
  · obtain ⟨-,decoded⟩ := refuse_ok_iff.mp decoded
    obtain ⟨key,-,decoded⟩ := bind_ok_iff.mp decoded
    obtain ⟨value,-,decoded⟩ := bind_ok_iff.mp decoded
    cases decoded
    exact ⟨key,value,rfl⟩

theorem decode_delete_is_delete {payload : Bytes} {operation : Operation}
    (decoded : decode_delete payload = .ok operation) : ∃ key, operation = .Delete key := by
  rw [decode_delete,refuse_ok_iff] at decoded
  obtain ⟨lenBytes,-,decoded⟩ := bind_ok_iff.mp decoded.2
  dsimp only at decoded
  obtain ⟨-,decoded⟩ := refuse_ok_iff.mp decoded
  obtain ⟨key,-,decoded⟩ := bind_ok_iff.mp decoded
  cases decoded
  exact ⟨key,rfl⟩

/-- A key that fits its length field has a payload. -/
theorem encode_put_fits {key : Bytes} (value : Bytes) (fits : key.length < 2 ^ 32) :
    encode_put key value = .ok ((UInt32.ofNat key.length).to_le_bytes ++ (key ++ value)) := by
  rw [encode_put,u32_try_from_some fits]

theorem encode_delete_fits {key : Bytes} (fits : key.length < 2 ^ 32) :
    encode_delete key = .ok ((UInt32.ofNat key.length).to_le_bytes ++ key) := by
  rw [encode_delete,u32_try_from_some fits]

/-- The format of records and of their payloads: what is written is read back,
    nothing else is read, and a record shows where it ends. -/
theorem format_faithful [Hashes] :
    (∀ r : LogRecord, r.payload.length < 2 ^ 32 → ∃ bytes, r.encode = .ok bytes ∧
      LogRecord.decode bytes = .ok r ∧
      (∀ rest, encoded_record_len_from_prefix (bytes ++ rest) = .ok bytes.length) ∧
      ∀ piece, piece <+: bytes → piece ≠ bytes → ∃ error, LogRecord.decode piece = .error error) ∧
    (∀ bytes r, LogRecord.decode bytes = .ok r → r.encode = .ok bytes) ∧
    (∀ key value, key.length < 2 ^ 32 → ∃ payload, encode_put key value = .ok payload ∧
      decode_put payload = .ok (.Put key value)) ∧
    (∀ payload operation, decode_put payload = .ok operation →
      ∃ key value, operation = .Put key value ∧ encode_put key value = .ok payload) ∧
    (∀ key, key.length < 2 ^ 32 → ∃ payload, encode_delete key = .ok payload ∧
      decode_delete payload = .ok (.Delete key)) ∧
    ∀ payload operation, decode_delete payload = .ok operation →
      ∃ key, operation = .Delete key ∧ encode_delete key = .ok payload := by
  refine ⟨?_,?_,?_,?_,?_,?_⟩
  · intro r fits
    refine ⟨r.frame,encode_fits fits,decode_frame fits,?_,?_⟩
    · intro rest
      exact record_len_frame fits rest
    · intro piece cut proper
      exact decode_cut fits cut proper
  · intro bytes r decoded
    obtain ⟨fits,spelled⟩ := decode_canonical decoded
    rw [spelled]
    exact encode_fits fits
  · intro key value fits
    have encoded := encode_put_fits value fits
    exact ⟨_,encoded,decode_put_encode encoded⟩
  · intro payload operation decoded
    obtain ⟨key,value,rfl⟩ := decode_put_is_put decoded
    exact ⟨key,value,rfl,encode_put_decode decoded⟩
  · intro key fits
    have encoded := encode_delete_fits fits
    exact ⟨_,encoded,decode_delete_encode encoded⟩
  · intro payload operation decoded
    obtain ⟨key,rfl⟩ := decode_delete_is_delete decoded
    exact ⟨key,rfl,encode_delete_decode decoded⟩

end VoodooStore
