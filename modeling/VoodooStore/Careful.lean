import VoodooStore.Recover
import VoodooStore.Lib.Faults

/-!
# The log, with every panic

The decoders of the log once more, with every way in which the source could
panic: slices, sums of `usize` in a build that checks them, and conversions to
arrays that are unwrapped. A slice of the source has at most `isize::MAX` bytes,
and so nothing panics: the decoders return what those of the model return. Every
turn of the loop of recovery consumes at least 29 bytes.
-/
namespace VoodooStore
open Faults
set_option linter.unusedSimpArgs false

instance {ε : Type} : Panics (Fault ε) := ⟨.Panicked⟩

/-- `isize::MAX` and one: no slice has as many bytes. -/
abbrev ISIZE : Nat := 2 ^ 63

/-- `+` on `usize` -/
def usize_add {ε : Type} (a b : Nat) : Careful ε Nat := add (2 ^ 64) a b

/-- `try_into` to an array, with `unwrap` or `expect` -/
def to_array {ε : Type} (n : Nat) (bytes : Bytes) : Careful ε (ByteArr n) :=
  if size : bytes.length = n then .ok ⟨bytes,size⟩ else .error .Panicked

theorem usize_add_fits {ε : Type} {a b : Nat} (fits : a + b < 2 ^ 64) : (usize_add a b : Careful ε Nat) = .ok (a + b) := if_pos fits

theorem to_array_fits {ε : Type} {n : Nat} {bytes : Bytes} (size : bytes.length = n) :
    (to_array n bytes : Careful ε (ByteArr n)) = .ok ⟨bytes,size⟩ := dif_pos size

namespace Careful

def encoded_record_len_from_prefix (bytes : Bytes) : Careful StoreError Nat :=
  if bytes.length < HEADER_LEN then refuse .TruncatedRecord else do
  let magic ← slice bytes 0 4
  if magic ≠ MAGIC then refuse .InvalidMagic else do
  let payload_len := (UInt32.from_le_bytes (← to_array 4 (← slice bytes 21 25)).val).toNat
  match (usize_checked_add HEADER_LEN payload_len).bind (usize_checked_add · 4) with
  | none => refuse .PayloadTooLarge
  | some len => .ok len

def decode_put (payload : Bytes) : Careful EngineError Operation :=
  if payload.length < 4 then refuse .InvalidOperationPayload else do
  let key_len := (UInt32.from_le_bytes (← to_array 4 (← slice payload 0 4)).val).toNat
  match usize_checked_add 4 key_len with
  | none => refuse .InvalidOperationPayload
  | some key_end =>
    if key_end > payload.length then refuse .InvalidOperationPayload else do
    return .Put (← slice payload 4 key_end) (← slice payload key_end payload.length)

def decode_delete (payload : Bytes) : Careful EngineError Operation :=
  if payload.length < 4 then refuse .InvalidOperationPayload else do
  let key_len := (UInt32.from_le_bytes (← to_array 4 (← slice payload 0 4)).val).toNat
  let expected ← usize_add 4 key_len
  if payload.length ≠ expected then refuse .InvalidOperationPayload else do
  return .Delete (← slice payload 4 payload.length)

section
variable [Hashes]

def decode (bytes : Bytes) : Careful StoreError LogRecord :=
  if bytes.length < HEADER_LEN + 4 then refuse .TruncatedRecord else do
  let magic ← slice bytes 0 4
  if magic ≠ MAGIC then refuse .InvalidMagic else do
  let kind ← pass (RecordKind.try_from (← index bytes 4))
  let tx_id := UInt64.from_le_bytes (← to_array 8 (← slice bytes 5 13)).val
  let sequence := UInt64.from_le_bytes (← to_array 8 (← slice bytes 13 21)).val
  let payload_len := (UInt32.from_le_bytes (← to_array 4 (← slice bytes 21 25)).val).toNat
  match (usize_checked_add HEADER_LEN payload_len).bind (usize_checked_add · 4) with
  | none => refuse .PayloadTooLarge
  | some expected_len =>
    if bytes.length ≠ expected_len then refuse .TruncatedRecord else do
    let checksum_offset ← usize_add HEADER_LEN payload_len
    let checksum_end ← usize_add checksum_offset 4
    let expected := UInt32.from_le_bytes (← to_array 4 (← slice bytes checksum_offset checksum_end)).val
    let actual := checksum (← slice bytes 0 checksum_offset)
    if expected ≠ actual then refuse (.ChecksumMismatch expected actual) else do
    return { kind, tx_id, sequence, payload := ← slice bytes HEADER_LEN checksum_offset }

end

/-- The part of the loop body that follows the decoding of a record. -/
def recover_record (acc : Progress) (record : LogRecord) : Careful EngineError Progress :=
  if record.sequence ≤ acc.max_sequence ∧ acc.max_sequence ≠ 0 then
    refuse (.NonMonotonicSequence acc.max_sequence record.sequence)
  else if record.tx_id ∈ acc.committed then refuse (.RecordAfterCommit record.tx_id)
  else match acc.records.checked_add 1 with
  | none => refuse .CounterExhausted
  | some records =>
    let acc := { acc with
      max_sequence := record.sequence
      max_tx_id := max acc.max_tx_id record.tx_id
      records := records }
    match record.kind with
    | .Put => do return acc.push record.tx_id (← decode_put record.payload)
    | .Delete => do return acc.push record.tx_id (← decode_delete record.payload)
    | .Commit =>
      .ok { acc with
        state := match acc.pending[record.tx_id]? with
          | some operations => apply_operations acc.state operations
          | none => acc.state
        pending := acc.pending.erase record.tx_id
        committed := acc.committed.insert record.tx_id }

section
variable [Hashes]

/-- One turn of the loop of `recover`: where it goes on, or that it stops. -/
def recover_turn (bytes : Bytes) (offset : Nat) (acc : Progress) : Careful EngineError (Option (Nat × Progress)) := do
  let remaining ← slice bytes offset bytes.length
  if remaining.length < HEADER_LEN then return none else
  match Careful.encoded_record_len_from_prefix remaining with
  | .error (.Returned .TruncatedRecord) => return none
  | .error (.Returned error) => refuse (.Log error)
  | .error .Panicked => .error .Panicked
  | .ok record_len =>
    if remaining.length < record_len then return none else do
    let record ← rethrown .Log (Careful.decode (← slice remaining 0 record_len))
    let acc ← Careful.recover_record acc record
    let offset ← usize_add offset record_len
    return some (offset,acc)

/-- The loop of `recover`, or nothing if it needs more turns than these. -/
def recover_turns (bytes : Bytes) : Nat → Nat → Progress → Careful EngineError (Option (Progress × Nat))
  | 0, _, _ => .ok none
  | turns + 1, offset, acc =>
    if offset < bytes.length then do
      match ← recover_turn bytes offset acc with
      | none => return some (acc,offset)
      | some (offset,acc) => recover_turns bytes turns offset acc
    else return some (acc,offset)

/-- `recover`, with as many turns as the file has 29 bytes, and one more. -/
def recover (file : Bytes) : Careful EngineError (Option Recovery) := do
  let bytes := file.drop STORE_HEADER_LEN
  match ← recover_turns bytes (bytes.length / 29 + 1) 0 .start with
  | none => return none
  | some (acc,offset) =>
    let valid_end ← usize_add STORE_HEADER_LEN offset
    return some {
      state := acc.state
      max_tx_id := acc.max_tx_id
      max_sequence := acc.max_sequence
      valid_end := valid_end
      records := acc.records
      committed_transactions := acc.committed.size
      pending_transactions := acc.pending.size }

end

end Careful

/-! ## Nothing panics -/

section
variable {ε α : Type} [Panics ε] {bytes : Bytes} {start stop : Nat}

/-- A slice in range. -/
theorem returns_slice {f : Bytes → Careful ε α} {g : Bytes → Except ε α} (order : start ≤ stop) (inside : stop ≤ bytes.length)
    (rest : ∀ part : Bytes, part.length = stop - start → Returns (f part) (g part)) :
    Returns (slice bytes start stop >>= f) (slice bytes start stop >>= g) := by
  rw [slice_ok order inside,slice_ok order inside]
  apply rest
  rw [List.length_take,List.length_drop]
  omega

/-- A slice in range, converted to an array of its length. -/
theorem returns_array {n : Nat} {f : ByteArr n → Careful ε α} {g : Bytes → Except ε α} (order : start ≤ stop)
    (inside : stop ≤ bytes.length) (size : stop - start = n) (rest : ∀ part : ByteArr n, Returns (f part) (g part.val)) :
    Returns (slice bytes start stop >>= fun part => to_array n part >>= f) (slice bytes start stop >>= g) := by
  apply returns_slice order inside
  intro part is
  rw [to_array_fits (is.trans size)]
  exact rest ⟨part,is.trans size⟩

theorem returns_index {i : Nat} {f : UInt8 → Careful ε α} {g : UInt8 → Except ε α} (inside : i < bytes.length)
    (rest : ∀ byte, Returns (f byte) (g byte)) : Returns (index bytes i >>= f) (index bytes i >>= g) := by
  rw [index_ok inside,index_ok inside]
  exact rest _

end

theorem usize_checked_add_is {a b c : Nat} (summed : usize_checked_add a b = some c) : c = a + b := by
  rw [usize_checked_add] at summed
  split at summed
  · cases summed
    rfl
  · cases summed

theorem decode_put_returns (payload : Bytes) : Returns (Careful.decode_put payload) (decode_put payload) := by
  apply Returns.ite
  · exact fun _ => returns_refuse _
  intro long
  apply returns_array (by omega) (by omega) rfl
  intro len
  dsimp only
  cases summed : usize_checked_add 4 (UInt32.from_le_bytes len.val).toNat with
  | none => exact returns_refuse _
  | some key_end =>
    have least := usize_checked_add_is summed
    apply Returns.ite
    · exact fun _ => returns_refuse _
    intro inside
    apply returns_slice (by omega) (by omega)
    intro key _
    apply returns_slice (by omega) (by omega)
    exact fun _ _ => returns_ok _

theorem decode_delete_returns (payload : Bytes) : Returns (Careful.decode_delete payload) (decode_delete payload) := by
  apply Returns.ite
  · exact fun _ => returns_refuse _
  intro long
  apply returns_array (by omega) (by omega) rfl
  intro len
  have small := (UInt32.from_le_bytes len.val).toNat_lt
  dsimp only
  rw [usize_add_fits (by omega),ok_bind]
  apply Returns.ite
  · exact fun _ => returns_refuse _
  intro _
  apply returns_slice (by omega) (by omega)
  exact fun _ _ => returns_ok _

theorem record_len_returns (bytes : Bytes) :
    Returns (Careful.encoded_record_len_from_prefix bytes) (VoodooStore.encoded_record_len_from_prefix bytes) := by
  have header : HEADER_LEN = 25 := rfl
  apply Returns.ite
  · exact fun _ => returns_refuse _
  intro long
  apply returns_slice (by omega) (by omega)
  intro magic _
  apply Returns.ite
  · exact fun _ => returns_refuse _
  intro _
  apply returns_array (by omega) (by omega) rfl
  intro len
  dsimp only
  rw [expected_len]
  exact returns_ok _

theorem decode_returns [Hashes] (bytes : Bytes) : Returns (Careful.decode bytes) (LogRecord.decode bytes) := by
  have header : HEADER_LEN = 25 := rfl
  apply Returns.ite
  · exact fun _ => returns_refuse _
  intro long
  apply returns_slice (by omega) (by omega)
  intro magic _
  apply Returns.ite
  · exact fun _ => returns_refuse _
  intro _
  apply returns_index (by omega)
  intro byte
  apply (returns_pass _).bind
  intro kind _
  apply returns_array (by omega) (by omega) rfl
  intro tx_id
  apply returns_array (by omega) (by omega) rfl
  intro sequence
  apply returns_array (by omega) (by omega) rfl
  intro len
  have small := (UInt32.from_le_bytes len.val).toNat_lt
  dsimp only
  rw [expected_len]
  apply Returns.ite
  · exact fun _ => returns_refuse _
  intro size
  rw [usize_add_fits (by omega),ok_bind,usize_add_fits (by omega),ok_bind]
  apply returns_array (by omega) (by omega) (by omega)
  intro expected
  apply returns_slice (by omega) (by omega)
  intro covered _
  apply Returns.ite
  · exact fun _ => returns_refuse _
  intro _
  apply returns_slice (by omega) (by omega)
  exact fun _ _ => returns_ok _

theorem recover_record_returns (acc : Progress) (record : LogRecord) :
    Returns (Careful.recover_record acc record) (recover_record acc record) := by
  apply Returns.ite
  · exact fun _ => returns_refuse _
  intro _
  apply Returns.ite
  · exact fun _ => returns_refuse _
  intro _
  cases acc.records.checked_add 1 with
  | none => exact returns_refuse _
  | some count =>
    dsimp only
    cases record.kind with
    | Put => exact (decode_put_returns _).bind (fun _ _ => returns_ok _)
    | Delete => exact (decode_delete_returns _).bind (fun _ _ => returns_ok _)
    | Commit => exact returns_ok _

/-! ## The loop of recovery -/

section
variable [Hashes]

/-- What one turn does, in terms of the front of the bytes that remain. -/
theorem recover_turn_is {bytes : Bytes} {offset : Nat} (inside : offset ≤ bytes.length) (short : bytes.length < ISIZE) (acc : Progress) :
    Careful.recover_turn bytes offset acc = match recordHead (bytes.drop offset) with
      | .torn => .ok none
      | .bad error => refuse error
      | .frame record => pass (recover_record acc record) >>= fun next => .ok (some (offset + record.frame.length,next)) := by
  have remaining : (slice bytes offset bytes.length : Careful EngineError Bytes) = .ok (bytes.drop offset) := by
    rw [slice_ok inside le_rfl]
    simp
  have size : (bytes.drop offset).length = bytes.length - offset := List.length_drop
  have limit : ISIZE = 2 ^ 63 := rfl
  unfold Careful.recover_turn recordHead
  rw [remaining,ok_bind]
  by_cases header : (bytes.drop offset).length < HEADER_LEN
  · rw [if_pos header,if_pos header]
    rfl
  rw [if_neg header,if_neg header,record_len_returns]
  cases found : encoded_record_len_from_prefix (bytes.drop offset) with
  | error error => cases error <;> rfl
  | ok record_len =>
    dsimp only [Faults.pass]
    by_cases torn : (bytes.drop offset).length < record_len
    · rw [if_pos torn,if_pos torn]
      rfl
    rw [if_neg torn,if_neg torn,slice_ok (by omega) (by omega),ok_bind,List.drop_zero,Nat.sub_zero]
    have decoded := (decode_returns ((bytes.drop offset).take record_len)).rethrown EngineError.Log
    rw [decoded]
    cases read : LogRecord.decode ((bytes.drop offset).take record_len) with
    | error error => rfl
    | ok record =>
      obtain ⟨-,spelled⟩ := decode_canonical read
      have length : record.frame.length = record_len := by
        rw [← spelled,List.length_take]
        omega
      dsimp only [Except.mapError,Faults.pass]
      rw [ok_bind,recover_record_returns,length,usize_add_fits (by omega)]
      rfl

/-- A turn after which the loop goes on consumes at least the bytes of an empty record. -/
theorem recover_turn_consumes {bytes : Bytes} {offset next : Nat} {acc after : Progress} (inside : offset ≤ bytes.length)
    (short : bytes.length < ISIZE) (turned : Careful.recover_turn bytes offset acc = .ok (some (next,after))) :
    offset + 29 ≤ next ∧ next ≤ bytes.length := by
  rw [recover_turn_is inside short] at turned
  cases front : recordHead (bytes.drop offset) with
  | torn =>
    rw [front] at turned
    cases turned
  | bad error =>
    rw [front] at turned
    cases turned
  | frame record =>
    rw [front] at turned
    obtain ⟨reached,-,same⟩ := bind_ok_iff.mp turned
    cases same
    obtain ⟨-,follows,split⟩ := of_recordHead front
    have size := congrArg List.length split
    rw [List.length_append,List.length_drop] at size
    have least := frame_length record
    omega

theorem recover_turns_returns {bytes : Bytes} (short : bytes.length < ISIZE) {turns offset : Nat} (inside : offset ≤ bytes.length)
    (enough : bytes.length - offset < 29 * turns) (acc : Progress) :
    Returns (Careful.recover_turns bytes turns offset acc) (some <$> recover_loop bytes offset acc) := by
  induction turns generalizing offset acc with
  | zero => omega
  | succ turns ih =>
    rw [Careful.recover_turns]
    by_cases ended : offset < bytes.length
    · rw [if_pos ended,recover_turn_is inside short,recover_loop_step]
      cases front : recordHead (bytes.drop offset) with
      | torn => exact returns_ok _
      | bad error => exact returns_refuse _
      | frame record =>
        dsimp only
        obtain ⟨-,follows,split⟩ := of_recordHead front
        have size := congrArg List.length split
        rw [List.length_append,List.length_drop] at size
        have least := frame_length record
        cases recover_record acc record with
        | error error => exact returns_refuse _
        | ok next => exact @ih (offset + record.frame.length) (by omega) (by omega) next
    · rw [if_neg ended,recover_loop,dif_neg ended]
      exact returns_ok _

theorem recover_loop_inside {bytes : Bytes} {acc last : Progress} {stop : Nat} (done : recover_loop bytes 0 acc = .ok (last,stop)) :
    stop ≤ bytes.length := by
  rw [recover_loop_eq _ 0 _ (by omega)] at done
  cases scanned : logFraming.scan recover_record acc (bytes.drop 0) with
  | error error =>
    rw [scanned] at done
    cases done
  | ok reached =>
    rw [scanned] at done
    cases done
    omega

/-- Recovery has turns enough, and returns what the model says. -/
theorem recover_returns {file : Bytes} (short : file.length < ISIZE) : Returns (Careful.recover file) (some <$> recover file) := by
  have size : (file.drop STORE_HEADER_LEN).length ≤ file.length := by
    rw [List.length_drop]
    omega
  have turned := @recover_turns_returns _ (file.drop STORE_HEADER_LEN) (by omega) ((file.drop STORE_HEADER_LEN).length / 29 + 1) 0
    (by omega) (by omega) .start
  unfold Careful.recover recover
  dsimp only
  rw [turned]
  cases done : recover_loop (file.drop STORE_HEADER_LEN) 0 .start with
  | error error => exact returns_refuse _
  | ok reached =>
    obtain ⟨acc,offset⟩ := reached
    have inside := recover_loop_inside done
    have header : STORE_HEADER_LEN = 64 := rfl
    have limit : ISIZE = 2 ^ 63 := rfl
    show Returns (usize_add STORE_HEADER_LEN offset >>= _) _
    rw [usize_add_fits (by omega)]
    exact returns_ok _

end

end VoodooStore
