import VoodooStore.Careful
import VoodooStore.Codecs

/-!
# Jobs and schedules, with every panic

The decoders of jobs look at fixed offsets behind one check of the length, and
then move a cursor that never leaves the bytes.
-/
namespace VoodooStore
open Faults
set_option linter.unusedSimpArgs false

namespace Careful

/-- `read_len`, and `read_bytes` of workflows; they differ in the error for a corrupt record. -/
def read_len {ε : Type} (corrupt : ε) (bytes : Bytes) (cursor : Nat) : Careful ε (Bytes × Nat) := do
  let len_end ← usize_add cursor 4
  if len_end > bytes.length then refuse corrupt else do
  let len := (UInt32.from_le_bytes (← slice bytes cursor len_end)).toNat
  match usize_checked_add len_end len with
  | none => refuse corrupt
  | some stop =>
    if stop > bytes.length then refuse corrupt else do
    return (← slice bytes len_end stop,stop)

/-- The key at the cursor, and the cursor behind it. -/
def decode_idempotency_key (bytes : Bytes) (cursor : Nat) : Careful JobError (Option Bytes × Nat) := do
  let tag ← index bytes cursor
  if tag = 0 then do
    return (none,← usize_add cursor 1)
  else if tag = 1 then do
    let cursor ← usize_add cursor 1
    let (key,cursor) ← Careful.read_len .CorruptRecord bytes cursor
    return (some key,cursor)
  else refuse .CorruptRecord

def decode_job (bytes : Bytes) : Careful JobError DurableJob :=
  if bytes.length < JOB_FIXED then refuse .CorruptRecord else do
  if (← index bytes 0) ≠ VERSION then refuse .CorruptRecord else do
  let state ← pass (DurableJobState.try_from (← index bytes 1))
  let id ← slice_array 16 bytes 2
  let available_at_ms := Int64.from_le_bytes (← to_array 8 (← slice bytes 18 26)).val
  let deadline_raw := Int64.from_le_bytes (← to_array 8 (← slice bytes 26 34)).val
  let priority := Int32.from_le_bytes (← to_array 4 (← slice bytes 34 38)).val
  let attempts := UInt32.from_le_bytes (← to_array 4 (← slice bytes 38 42)).val
  let max_attempts := UInt32.from_le_bytes (← to_array 4 (← slice bytes 42 46)).val
  let retry_backoff_ms := UInt64.from_le_bytes (← to_array 8 (← slice bytes 46 54)).val
  let lease_until_ms := Int64.from_le_bytes (← to_array 8 (← slice bytes 54 62)).val
  let lease_generation := UInt32.from_le_bytes (← to_array 4 (← slice bytes 62 66)).val
  let (handler,cursor) ← Careful.read_len .CorruptRecord bytes JOB_FIXED
  let (payload,cursor) ← Careful.read_len .CorruptRecord bytes cursor
  if cursor ≥ bytes.length then refuse .CorruptRecord else do
  let (idempotency_key,cursor) ← Careful.decode_idempotency_key bytes cursor
  if cursor ≠ bytes.length then refuse .CorruptRecord else do
  let deadline_ms := if deadline_raw ≠ Int64.minValue then some deadline_raw else none
  return ⟨id,state,handler,payload,available_at_ms,deadline_ms,priority,attempts,max_attempts,retry_backoff_ms,lease_until_ms,
    lease_generation,idempotency_key⟩

def decode_history (bytes : Bytes) : Careful JobError JobHistoryEntry :=
  if bytes.length < 18 then refuse .CorruptRecord else do
  if (← index bytes 0) ≠ VERSION then refuse .CorruptRecord else do
  let sequence := UInt64.from_le_bytes (← to_array 8 (← slice bytes 1 9)).val
  let at_ms := Int64.from_le_bytes (← to_array 8 (← slice bytes 9 17)).val
  let kind ← pass (JobHistoryKind.try_from (← index bytes 17))
  let (detail,cursor) ← Careful.read_len .CorruptRecord bytes 18
  if cursor ≠ bytes.length then refuse .CorruptRecord else do
  return ⟨sequence,at_ms,kind,detail⟩

/-- The mode behind its tag, and the cursor behind it. -/
def decode_mode (bytes : Bytes) (tag : UInt8) (cursor : Nat) : Careful JobError (ScheduleMode × Nat) :=
  if tag = 0 then .ok (.Once,cursor)
  else if tag = 1 then do
    let stop ← usize_add cursor 8
    if stop > bytes.length then refuse .CorruptRecord else do
    let every_ms := UInt64.from_le_bytes (← to_array 8 (← slice bytes cursor stop)).val
    if every_ms = 0 then refuse .CorruptRecord else return (.Interval every_ms,stop)
  else refuse .CorruptRecord

def decode_schedule (bytes : Bytes) : Careful JobError DurableSchedule :=
  if bytes.length < 27 then refuse .CorruptRecord else do
  if (← index bytes 0) ≠ VERSION then refuse .CorruptRecord else do
  let id ← slice_array 16 bytes 1
  let flag ← index bytes 17
  let enabled ← if flag = 0 then .ok false else if flag = 1 then .ok true else refuse .CorruptRecord
  let next_run_ms := Int64.from_le_bytes (← to_array 8 (← slice bytes 18 26)).val
  let mode_tag ← index bytes 26
  let (mode,cursor) ← Careful.decode_mode bytes mode_tag 27
  let (encoded_job,cursor) ← Careful.read_len .CorruptRecord bytes cursor
  if cursor ≠ bytes.length then refuse .CorruptRecord else do
  let template ← Careful.decode_job encoded_job
  let job := JobSpec.mk template.handler template.payload template.available_at_ms template.deadline_ms template.priority
    template.max_attempts template.retry_backoff_ms template.idempotency_key
  return ⟨id,job,mode,next_run_ms,enabled⟩

end Careful

/-! ## Nothing panics -/

theorem read_len_returns {bytes : Bytes} {cursor : Nat} (short : bytes.length < ISIZE) (inside : cursor ≤ bytes.length) :
    Returns (Careful.read_len .CorruptRecord bytes cursor) (read_len bytes cursor) := by
  have limit : ISIZE = 2 ^ 63 := rfl
  unfold Careful.read_len read_len
  rw [usize_add_fits (by omega),ok_bind]
  apply Returns.ite
  · exact fun _ => returns_refuse _
  intro header
  apply returns_slice (by omega) (by omega)
  intro len _
  dsimp only
  cases summed : usize_checked_add (cursor + 4) (UInt32.from_le_bytes len).toNat with
  | none => exact returns_refuse _
  | some stop =>
    have is := usize_checked_add_is summed
    apply Returns.ite
    · exact fun _ => returns_refuse _
    intro _
    apply returns_slice (by omega) (by omega)
    exact fun _ _ => returns_ok _

/-- A cursor that has read something is still in the bytes. -/
theorem read_len_inside {bytes part : Bytes} {cursor stop : Nat} (read : read_len bytes cursor = .ok (part,stop)) :
    stop ≤ bytes.length := by
  unfold read_len at read
  obtain ⟨-,read⟩ := refuse_ok_iff.mp read
  obtain ⟨len,-,read⟩ := bind_ok_iff.mp read
  dsimp only at read
  split at read
  · cases read
  · obtain ⟨inside,read⟩ := refuse_ok_iff.mp read
    obtain ⟨value,-,same⟩ := bind_ok_iff.mp read
    cases same
    omega

theorem returns_slice_array {ε α : Type} [Panics ε] {bytes : Bytes} {n start : Nat} {f : ByteArr n → Careful ε α} {g : ByteArr n → Except ε α}
    (inside : start + n ≤ bytes.length) (rest : ∀ part, Returns (f part) (g part)) :
    Returns (slice_array n bytes start >>= f) (slice_array n bytes start >>= g) := by
  unfold slice_array
  rw [dif_pos inside,dif_pos inside]
  exact rest _

theorem decode_key_returns {bytes : Bytes} {cursor : Nat} (short : bytes.length < ISIZE) (inside : cursor < bytes.length) :
    Returns (Careful.decode_idempotency_key bytes cursor) (decode_idempotency_key bytes cursor) := by
  have limit : ISIZE = 2 ^ 63 := rfl
  unfold Careful.decode_idempotency_key decode_idempotency_key
  apply returns_index inside
  intro tag
  apply Returns.ite
  · intro _
    rw [usize_add_fits (by omega)]
    exact returns_ok _
  intro _
  apply Returns.ite
  · intro _
    rw [usize_add_fits (by omega)]
    exact (read_len_returns short (by omega)).bind (fun _ _ => returns_ok _)
  · exact fun _ => returns_refuse _

theorem decode_job_returns {bytes : Bytes} (short : bytes.length < ISIZE) : Returns (Careful.decode_job bytes) (decode_job bytes) := by
  have fixed : JOB_FIXED = 66 := rfl
  apply Returns.ite
  · exact fun _ => returns_refuse _
  intro long
  apply returns_index (by omega)
  intro version
  apply Returns.ite
  · exact fun _ => returns_refuse _
  intro _
  apply returns_index (by omega)
  intro tag
  apply (returns_pass _).bind
  intro state _
  apply returns_slice_array (by omega)
  intro id
  apply returns_array (by omega) (by omega) rfl
  intro available_at_ms
  apply returns_array (by omega) (by omega) rfl
  intro deadline_raw
  apply returns_array (by omega) (by omega) rfl
  intro priority
  apply returns_array (by omega) (by omega) rfl
  intro attempts
  apply returns_array (by omega) (by omega) rfl
  intro max_attempts
  apply returns_array (by omega) (by omega) rfl
  intro retry_backoff_ms
  apply returns_array (by omega) (by omega) rfl
  intro lease_until_ms
  apply returns_array (by omega) (by omega) rfl
  intro lease_generation
  apply (read_len_returns short (by omega)).bind
  rintro ⟨handler,cursor⟩ first
  apply (read_len_returns short (read_len_inside first)).bind
  rintro ⟨payload,cursor⟩ second
  apply Returns.ite
  · exact fun _ => returns_refuse _
  intro more
  apply (decode_key_returns short (by omega)).bind
  rintro ⟨key,cursor⟩ _
  apply Returns.ite
  · exact fun _ => returns_refuse _
  · exact fun _ => returns_ok _

theorem decode_history_returns {bytes : Bytes} (short : bytes.length < ISIZE) :
    Returns (Careful.decode_history bytes) (decode_history bytes) := by
  apply Returns.ite
  · exact fun _ => returns_refuse _
  intro long
  apply returns_index (by omega)
  intro version
  apply Returns.ite
  · exact fun _ => returns_refuse _
  intro _
  apply returns_array (by omega) (by omega) rfl
  intro sequence
  apply returns_array (by omega) (by omega) rfl
  intro at_ms
  apply returns_index (by omega)
  intro tag
  apply (returns_pass _).bind
  intro kind _
  apply (read_len_returns short (by omega)).bind
  rintro ⟨detail,cursor⟩ _
  apply Returns.ite
  · exact fun _ => returns_refuse _
  · exact fun _ => returns_ok _

theorem decode_mode_returns {bytes : Bytes} {cursor : Nat} (short : bytes.length < ISIZE) (inside : cursor ≤ bytes.length) (tag : UInt8) :
    Returns (Careful.decode_mode bytes tag cursor) (decode_mode bytes tag cursor) := by
  have limit : ISIZE = 2 ^ 63 := rfl
  apply Returns.ite
  · exact fun _ => returns_ok _
  intro _
  apply Returns.ite
  · intro _
    rw [usize_add_fits (by omega),ok_bind]
    apply Returns.ite
    · exact fun _ => returns_refuse _
    intro _
    apply returns_array (by omega) (by omega) (by omega)
    intro every_ms
    apply Returns.ite
    · exact fun _ => returns_refuse _
    · exact fun _ => returns_ok _
  · exact fun _ => returns_refuse _

theorem decode_mode_inside {bytes : Bytes} {tag : UInt8} {cursor stop : Nat} {mode : ScheduleMode} (inside : cursor ≤ bytes.length)
    (read : decode_mode bytes tag cursor = .ok (mode,stop)) : stop ≤ bytes.length := by
  unfold decode_mode at read
  split at read
  · cases read
    exact inside
  · split at read
    · obtain ⟨fits,read⟩ := refuse_ok_iff.mp read
      obtain ⟨every,-,read⟩ := bind_ok_iff.mp read
      obtain ⟨-,same⟩ := refuse_ok_iff.mp read
      cases same
      omega
    · cases read

/-- A byte that has to be zero or one. -/
theorem returns_flag {ε α : Type} {flag : UInt8} {error : ε} {f : Bool → Careful ε α} {g : Bool → Except ε α}
    (rest : ∀ enabled, Returns (f enabled) (g enabled)) :
    Returns (if flag = 0 then Except.ok false >>= f else if flag = 1 then Except.ok true >>= f else refuse error >>= f)
      (if flag = 0 then Except.ok false >>= g else if flag = 1 then Except.ok true >>= g else Except.error error >>= g) := by
  apply Returns.ite
  · exact fun _ => rest false
  intro _
  apply Returns.ite
  · exact fun _ => rest true
  · exact fun _ => returns_refuse error

theorem decode_schedule_returns {bytes : Bytes} (short : bytes.length < ISIZE) :
    Returns (Careful.decode_schedule bytes) (decode_schedule bytes) := by
  apply Returns.ite
  · exact fun _ => returns_refuse _
  intro long
  apply returns_index (by omega)
  intro version
  apply Returns.ite
  · exact fun _ => returns_refuse _
  intro _
  apply returns_slice_array (by omega)
  intro id
  apply returns_index (by omega)
  intro flag
  dsimp only
  apply returns_flag
  intro enabled
  apply returns_array (by omega) (by omega) rfl
  intro next_run_ms
  apply returns_index (by omega)
  intro mode_tag
  apply (decode_mode_returns short (by omega) _).bind
  rintro ⟨mode,cursor⟩ moded
  apply (read_len_returns short (decode_mode_inside (by omega) moded)).bind
  rintro ⟨encoded_job,stop⟩ read
  apply Returns.ite
  · exact fun _ => returns_refuse _
  intro _
  have whole : encoded_job.length < ISIZE := by
    obtain ⟨-,split⟩ := read_len_ok read
    have size := congrArg List.length split
    rw [List.length_append,counted,List.length_append,List.length_drop] at size
    omega
  exact (decode_job_returns whole).bind (fun _ _ => returns_ok _)

end VoodooStore
