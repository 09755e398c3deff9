import VoodooStore.CarefulJobs
import VoodooStore.Lib.Cursors
import VoodooStore.CronTimes
import VoodooStore.CronScheduler
import VoodooStore.ConsumerGroup
import VoodooStore.Query
import VoodooStore.Workflow
import VoodooStore.Objects

/-!
# The other records, with every panic

The source takes these records apart at fixed offsets or with a cursor, and the
model with a reader. The cursor follows the reader (`Follows`), so that the
decoders return what those of the model return, and none of them panics. Two of
them make a vector for as many elements as the bytes announce, before they have
seen any of them: those end the program where the allocator refuses the vector.
-/
namespace VoodooStore
open Effects Reading Faults
set_option linter.unusedSimpArgs false

/-- `slice::get` with a range -/
def get_range (bytes : Bytes) (start stop : Nat) : Option Bytes :=
  if start ≤ stop ∧ stop ≤ bytes.length then some ((bytes.drop start).take (stop - start)) else none

/-- `Vec::with_capacity` for elements of this size, where the allocator grants at most
    so many bytes at once. It panics if the elements do not fit in memory that can be
    addressed, and aborts the program if the allocator refuses them. -/
def with_capacity {ε : Type} (granted size count : Nat) : Careful ε Unit :=
  if size * count < ISIZE ∧ size * count ≤ granted then .ok () else .error .Panicked

/-- An element of a vector, which panics if there is none -/
def element {ε α : Type} (values : List α) (position : Nat) : Careful ε α :=
  match values[position]? with
  | some value => .ok value
  | none => .error .Panicked

namespace Careful

/-- What cursors with checked sums share: the next bytes, if there are as many. -/
def take {ε : Type} (corrupt : ε) (len : Nat) (bytes : Bytes) (pos : Nat) : Careful ε (Bytes × Nat) :=
  match usize_checked_add pos len with
  | none => refuse corrupt
  | some stop =>
    match get_range bytes pos stop with
    | none => refuse corrupt
    | some value => .ok (value,stop)

/-! ### Workflows -/

def decode_parent (input : Bytes) (cursor : Nat) : Careful WorkflowError (Option WorkflowId × Nat) := do
  let tag ← index input cursor
  if tag = 0 then do
    return (none,← usize_add cursor 1)
  else if tag = 1 then do
    let cursor ← usize_add cursor 1
    let stop ← usize_add cursor 16
    if stop > input.length then refuse .CorruptRecord else do
    let parent ← to_array 16 (← slice input cursor stop)
    return (some parent,stop)
  else refuse .CorruptRecord

def decode_wait (input : Bytes) (cursor : Nat) : Careful WorkflowError (Option WorkflowWait × Nat) := do
  let tag ← index input cursor
  if tag = 0 then do
    return (none,← usize_add cursor 1)
  else if tag = 1 then do
    let cursor ← usize_add cursor 1
    let (name,cursor) ← Careful.read_len .CorruptRecord input cursor
    return (some (.Signal name),cursor)
  else if tag = 2 then do
    let cursor ← usize_add cursor 1
    let stop ← usize_add cursor 8
    if stop > input.length then refuse .CorruptRecord else do
    let resume_at_ms := Int64.from_le_bytes (← to_array 8 (← slice input cursor stop)).val
    return (some (.Timer resume_at_ms),stop)
  else refuse .CorruptRecord

def decode_instance (input : Bytes) : Careful WorkflowError WorkflowInstance :=
  if input.length < 35 then refuse .CorruptRecord else do
  if (← index input 0) ≠ VERSION then refuse .CorruptRecord else do
  let id ← to_array 16 (← slice input 1 17)
  let status ← pass (Workflow.status_try_from (← index input 17))
  let created_at_ms := Int64.from_le_bytes (← to_array 8 (← slice input 18 26)).val
  let updated_at_ms := Int64.from_le_bytes (← to_array 8 (← slice input 26 34)).val
  let (parent_id,cursor) ← Careful.decode_parent input 34
  let (workflow_type,cursor) ← Careful.read_len .CorruptRecord input cursor
  let (current_step,cursor) ← Careful.read_len .CorruptRecord input cursor
  let (state,cursor) ← Careful.read_len .CorruptRecord input cursor
  if cursor ≥ input.length then refuse .CorruptRecord else do
  let (wait,cursor) ← Careful.decode_wait input cursor
  if cursor ≠ input.length then refuse .CorruptRecord else
  .ok { id, workflow_type, status, current_step, state, parent_id, wait, created_at_ms, updated_at_ms }

def decode_workflow_history (input : Bytes) : Careful WorkflowError WorkflowHistoryEntry :=
  if input.length < 18 then refuse .CorruptRecord else do
  if (← index input 0) ≠ VERSION then refuse .CorruptRecord else do
  let sequence := UInt64.from_le_bytes (← to_array 8 (← slice input 1 9)).val
  let at_ms := Int64.from_le_bytes (← to_array 8 (← slice input 9 17)).val
  let kind ← pass (Workflow.kind_try_from (← index input 17))
  let (detail,cursor) ← Careful.read_len .CorruptRecord input 18
  if cursor ≠ input.length then refuse .CorruptRecord else .ok { sequence, at_ms, kind, detail }

/-! ### Collections -/

/-- The loop over the indexes. -/
def decode_indexes (encoded : Bytes) : Nat → Nat → Careful CollectionError (List IndexValue × Nat)
  | 0, cursor => .ok ([],cursor)
  | count + 1, cursor => do
    let name_start ← usize_add cursor 2
    if name_start > encoded.length then refuse .CorruptRecord else do
    let name_len := (UInt16.from_le_bytes (← to_array 2 (← slice encoded cursor name_start)).val).toNat
    match usize_checked_add name_start name_len with
    | none => refuse .CorruptRecord
    | some name_end => do
      let value_start ← usize_add name_end 4
      if value_start > encoded.length then refuse .CorruptRecord else do
      let name ← slice encoded name_start name_end
      let index_value_len := (UInt32.from_le_bytes (← to_array 4 (← slice encoded name_end value_start)).val).toNat
      match usize_checked_add value_start index_value_len with
      | none => refuse .CorruptRecord
      | some index_value_end =>
        if index_value_end > encoded.length then refuse .CorruptRecord else do
        let value ← slice encoded value_start index_value_end
        let (indexes,cursor) ← Careful.decode_indexes encoded count index_value_end
        return (⟨name,value⟩ :: indexes,cursor)

def decode_record_value (granted : Nat) (encoded : Bytes) : Careful CollectionError StoredRecord :=
  if encoded.length < 7 then refuse .CorruptRecord else do
  if (← index encoded 0) ≠ Collections.FORMAT_VERSION then refuse .CorruptRecord else do
  let value_len := (UInt32.from_le_bytes (← to_array 4 (← slice encoded 1 5)).val).toNat
  let index_count := (UInt16.from_le_bytes (← to_array 2 (← slice encoded 5 7)).val).toNat
  match usize_checked_add 7 value_len with
  | none => refuse .CorruptRecord
  | some value_end =>
    if value_end > encoded.length then refuse .CorruptRecord else do
    let value ← slice encoded 7 value_end
    -- An `IndexValue` is two vectors.
    with_capacity granted 48 index_count
    let (indexes,cursor) ← Careful.decode_indexes encoded index_count value_end
    if cursor ≠ encoded.length then refuse .CorruptRecord else .ok ⟨value,indexes⟩

/-! ### Objects -/

/-- The loop over the entries. -/
def decode_entries (encoded : Bytes) : Nat → Nat → Careful ObjectError (MetadataEntries × Nat)
  | 0, offset => .ok ([],offset)
  | count + 1, offset => do
    let key_start ← usize_add offset 8
    if encoded.length < key_start then refuse .CorruptMetadata else do
    let middle ← usize_add offset 4
    let key_len := (UInt32.from_le_bytes (← to_array 4 (← slice encoded offset middle)).val).toNat
    let value_len := (UInt32.from_le_bytes (← to_array 4 (← slice encoded middle key_start)).val).toNat
    match (usize_checked_add key_start key_len).bind (usize_checked_add · value_len) with
    | none => refuse .CorruptMetadata
    | some stop =>
      if stop > encoded.length then refuse .CorruptMetadata else do
      let key_end ← usize_add key_start key_len
      let key ← slice encoded key_start key_end
      let value ← slice encoded key_end stop
      let (metadata,offset) ← Careful.decode_entries encoded count stop
      return ((key,value) :: metadata,offset)

/-- Does the value before this index have the same key? -/
def repeats (values : MetadataEntries) (position : Nat) (key : Bytes) : Careful ObjectError Bool :=
  if position > 0 then do return (← element values (position - 1)).1 = key else .ok false

/-- The loop of `normalize_metadata` from this index on, over the values behind it and the sizes of those before. -/
def check_metadata (values : MetadataEntries) (position total : Nat) : MetadataEntries → Careful ObjectError Nat
  | [] => .ok total
  | (key,value) :: rest =>
    if key = [] ∨ key.length > 4096 ∨ value.length > 64 * 1024 then refuse .MetadataTooLarge else do
    if (← Careful.repeats values position key) then refuse .DuplicateMetadata else do
    let size ← usize_add key.length value.length
    let total ← pass (ok_or .MetadataTooLarge (usize_checked_add total size))
    Careful.check_metadata values (position + 1) total rest

def normalize_metadata (metadata : MetadataEntries) : Careful ObjectError MetadataEntries := do
  let values := metadata.mergeSort (fun left right => (compare left.1 right.1).isLE)
  let total ← Careful.check_metadata values 0 0 values
  if total > 256 * 1024 then refuse .MetadataTooLarge else .ok values

def decode_metadata (granted : Nat) (encoded : Bytes) : Careful ObjectError MetadataEntries :=
  if encoded.length < 5 then refuse .CorruptMetadata else do
  if (← index encoded 0) ≠ OBJECT_VERSION then refuse .CorruptMetadata else do
  let count := (UInt32.from_le_bytes (← to_array 4 (← slice encoded 1 5)).val).toNat
  -- An entry is two vectors.
  with_capacity granted 48 count
  let (metadata,offset) ← Careful.decode_entries encoded count 5
  if offset ≠ encoded.length then refuse .CorruptMetadata else
  Careful.normalize_metadata metadata

/-! ### Consumer groups -/

def read_u8 (bytes : Bytes) (pos : Nat) : Careful ConsumerGroupError (UInt8 × Nat) :=
  match bytes[pos]? with
  | none => refuse .CorruptRecord
  | some value => do return (value,← usize_add pos 1)

def read_u32 (bytes : Bytes) (pos : Nat) : Careful ConsumerGroupError (UInt32 × Nat) := do
  let (value,stop) ← Careful.take .CorruptRecord 4 bytes pos
  return (UInt32.from_le_bytes value,stop)

def read_u64 (bytes : Bytes) (pos : Nat) : Careful ConsumerGroupError (UInt64 × Nat) := do
  let (value,stop) ← Careful.take .CorruptRecord 8 bytes pos
  return (UInt64.from_le_bytes value,stop)

def read_i64 (bytes : Bytes) (pos : Nat) : Careful ConsumerGroupError (Int64 × Nat) := do
  let (value,stop) ← Careful.take .CorruptRecord 8 bytes pos
  return (Int64.from_le_bytes value,stop)

def read_leased (bytes : Bytes) (pos : Nat) : Careful ConsumerGroupError (Option UInt64 × Nat) := do
  let (tag,pos) ← Careful.read_u8 bytes pos
  if tag = 0 then return (none,pos)
  else if tag = 1 then do
    let (offset,pos) ← Careful.read_u64 bytes pos
    return (some offset,pos)
  else refuse .CorruptRecord

def decode_state (bytes : Bytes) : Careful ConsumerGroupError ConsumerGroupState :=
  if bytes.length < 1 + 8 + 1 + 8 + 8 + 4 then refuse .CorruptRecord else do
  if (← index bytes 0) ≠ VERSION then refuse .CorruptRecord else do
  let (next_offset,pos) ← Careful.read_u64 bytes 1
  let (leased_offset,pos) ← Careful.read_leased bytes pos
  let (lease_until_ms,pos) ← Careful.read_i64 bytes pos
  let (lease_generation,pos) ← Careful.read_u64 bytes pos
  let (owner_len,pos) ← Careful.read_u32 bytes pos
  let (owner,stop) ← Careful.take .CorruptRecord owner_len.toNat bytes pos
  if stop ≠ bytes.length then refuse .CorruptRecord else
  .ok ⟨next_offset,leased_offset,lease_until_ms,lease_generation,owner⟩

/-! ### Index entries -/

def read_component (input : Bytes) (cursor : Nat) : Careful QueryError (Bytes × Nat) := do
  let (len_bytes,len_end) ← Careful.take .CorruptIndexEntry 4 input cursor
  Careful.take .CorruptIndexEntry (Endian.ofBe len_bytes) input len_end

def decode_index_entry (front key : Bytes) : Careful QueryError (Bytes × Bytes) :=
  if !starts_with key front then refuse .CorruptIndexEntry else do
  let (index_value,cursor) ← Careful.read_component key front.length
  let (primary_key,cursor) ← Careful.read_component key cursor
  if cursor ≠ key.length then refuse .CorruptIndexEntry else .ok (index_value,primary_key)

end Careful

/-! ## Fields at fixed offsets -/

section
variable {ε α β : Type} [Corrupt ε] {bytes : Bytes} {cursor stop n : Nat}

/-- The reader takes so many bytes and makes this of them. -/
def Fixed (y : Fields ε β) (n : Nat) (value : ByteArr n → β) : Prop :=
  ∀ (bytes : Bytes) (cursor : Nat) (part : ByteArr n), part.val = (bytes.drop cursor).take n → bytes.length < ISIZE →
    cursor + n ≤ bytes.length → y ⟨bytes,cursor⟩ = .ok (value part) ⟨bytes,cursor + n⟩

theorem fixed_of_take (value : Bytes → β) : Fixed (do return value (← Fields.take n) : Fields ε β) n (fun part => value part.val) := by
  intro bytes cursor part is limit inside
  have small : ISIZE < USIZE := by decide
  refine (bind_of_ok (take_inside (Corrupt.corrupt : ε) (by omega) inside)).trans ?_
  exact congrArg (fun b => EStateM.Result.ok (value b) _) is.symm

theorem fixed_u16 : Fixed (Collections.u16_field) 2 (fun part => UInt16.from_le_bytes part.val) := fixed_of_take _
theorem fixed_u32 : Fixed (Fields.u32 : Fields ε UInt32) 4 (fun part => UInt32.from_le_bytes part.val) := fixed_of_take _
theorem fixed_u64 : Fixed (Fields.u64 : Fields ε UInt64) 8 (fun part => UInt64.from_le_bytes part.val) := fixed_of_take _
theorem fixed_i64 : Fixed (Fields.i64 : Fields ε Int64) 8 (fun part => Int64.from_le_bytes part.val) := fixed_of_take _

theorem fixed_array_16 : Fixed (Fields.array_16 : Fields ε (ByteArr 16)) 16 id := by
  intro bytes cursor part is limit inside
  have small : ISIZE < USIZE := by decide
  have size : ((bytes.drop cursor).take 16).length = 16 := is ▸ part.property
  refine (bind_of_ok (take_inside (Corrupt.corrupt : ε) (by omega) inside)).trans ?_
  rw [dif_pos size]
  exact congrArg (fun a => EStateM.Result.ok a _) (Subtype.ext is.symm)

theorem byte_at (limit : bytes.length < ISIZE) (inside : cursor < bytes.length) :
    (Fields.u8 : Fields ε UInt8) ⟨bytes,cursor⟩ = .ok bytes[cursor] ⟨bytes,cursor + 1⟩ := by
  have small : ISIZE < USIZE := by decide
  refine (bind_of_ok (take_inside (Corrupt.corrupt : ε) (by omega) inside)).trans ?_
  rw [List.drop_eq_getElem_cons inside]
  rfl

omit [Corrupt ε] in
theorem slice_at {f : ByteArr n → Careful ε α} (size : cursor + n = stop) (inside : stop ≤ bytes.length) :
    ∃ part : ByteArr n, part.val = (bytes.drop cursor).take n ∧
      (slice bytes cursor stop >>= fun part => to_array n part >>= f : Careful ε α) = f part := by
  have long : ((bytes.drop cursor).take n).length = n := by
    rw [List.length_take,List.length_drop]
    omega
  refine ⟨⟨_,long⟩,rfl,?_⟩
  have width : stop - cursor = n := by omega
  rw [slice_ok (by omega) inside,ok_bind,width,to_array_fits long,ok_bind]

omit [Corrupt ε] in
/-- A field, together with the bytes that it is made of. -/
theorem ends_field {corrupt : ε} {y : Fields ε β} {value : ByteArr n → β} {f : ByteArr n → Careful ε α} {g : β → Fields ε α}
    (fixed : Fixed y n value) (limit : bytes.length < ISIZE) (size : cursor + n = stop) (inside : stop ≤ bytes.length)
    (rest : ∀ part : ByteArr n, part.val = (bytes.drop cursor).take n → Ends corrupt bytes (f part) (g (value part)) stop) :
    Ends corrupt bytes (slice bytes cursor stop >>= fun part => to_array n part >>= f) (y >>= g) cursor := by
  obtain ⟨part,is,sliced⟩ := @slice_at ε α bytes cursor stop n f size inside
  rw [sliced]
  unfold Ends
  rw [bind_of_ok (fixed bytes cursor part is limit (by omega)),size]
  exact rest part is

omit [Corrupt ε] in
theorem ends_fixed {corrupt : ε} {y : Fields ε β} {value : ByteArr n → β} {f : ByteArr n → Careful ε α} {g : β → Fields ε α}
    (fixed : Fixed y n value) (limit : bytes.length < ISIZE) (size : cursor + n = stop) (inside : stop ≤ bytes.length)
    (rest : ∀ part : ByteArr n, Ends corrupt bytes (f part) (g (value part)) stop) :
    Ends corrupt bytes (slice bytes cursor stop >>= fun part => to_array n part >>= f) (y >>= g) cursor :=
  ends_field fixed limit size inside (fun part _ => rest part)

omit [Corrupt ε] in
theorem follows_fixed {y : Fields ε β} {value : ByteArr n → β} {f : ByteArr n → Careful ε (α × Nat)} {g : β → Fields ε α}
    (fixed : Fixed y n value) (limit : bytes.length < ISIZE) (size : cursor + n = stop) (inside : stop ≤ bytes.length)
    (rest : ∀ part : ByteArr n, Follows bytes (f part) (g (value part)) stop) :
    Follows bytes (slice bytes cursor stop >>= fun part => to_array n part >>= f) (y >>= g) cursor := by
  obtain ⟨part,is,sliced⟩ := @slice_at ε (α × Nat) bytes cursor stop n f size inside
  rw [sliced]
  unfold Follows
  rw [bind_of_ok (fixed bytes cursor part is limit (by omega)),size]
  exact rest part

/-- A byte, and where it stands. -/
theorem ends_byte {corrupt : ε} {f : UInt8 → Careful ε α} {g : UInt8 → Fields ε α} (limit : bytes.length < ISIZE)
    (inside : cursor < bytes.length)
    (rest : ∀ byte, bytes[cursor]? = some byte → Ends corrupt bytes (f byte) (g byte) (cursor + 1)) :
    Ends corrupt bytes (index bytes cursor >>= f) (Fields.u8 >>= g) cursor := by
  rw [index_ok inside]
  unfold Ends
  rw [bind_of_ok (byte_at limit inside)]
  exact rest _ (List.getElem?_eq_getElem inside)

theorem ends_index {corrupt : ε} {f : UInt8 → Careful ε α} {g : UInt8 → Fields ε α} (limit : bytes.length < ISIZE)
    (inside : cursor < bytes.length) (rest : ∀ byte, Ends corrupt bytes (f byte) (g byte) (cursor + 1)) :
    Ends corrupt bytes (index bytes cursor >>= f) (Fields.u8 >>= g) cursor :=
  ends_byte limit inside (fun byte _ => rest byte)

theorem follows_index {f : UInt8 → Careful ε (α × Nat)} {g : UInt8 → Fields ε α} (limit : bytes.length < ISIZE)
    (inside : cursor < bytes.length) (rest : ∀ byte, Follows bytes (f byte) (g byte) (cursor + 1)) :
    Follows bytes (index bytes cursor >>= f) (Fields.u8 >>= g) cursor := by
  rw [index_ok inside]
  unfold Follows
  rw [bind_of_ok (byte_at limit inside)]
  exact rest _

theorem ends_slice {corrupt : ε} {f : Bytes → Careful ε α} {g : Bytes → Fields ε α} (limit : bytes.length < ISIZE)
    (size : cursor + n = stop) (inside : stop ≤ bytes.length) (rest : ∀ part, Ends corrupt bytes (f part) (g part) stop) :
    Ends corrupt bytes (slice bytes cursor stop >>= f) (Fields.take n >>= g) cursor := by
  have small : ISIZE < USIZE := by decide
  have width : stop - cursor = n := by omega
  rw [slice_ok (by omega) inside,ok_bind,width]
  apply ends_take (by omega) (by omega)
  rw [size]
  exact rest _

theorem follows_slice {f : Bytes → Careful ε (α × Nat)} {g : Bytes → Fields ε α} (limit : bytes.length < ISIZE)
    (size : cursor + n = stop) (inside : stop ≤ bytes.length) (rest : ∀ part, Follows bytes (f part) (g part) stop) :
    Follows bytes (slice bytes cursor stop >>= f) (Fields.take n >>= g) cursor := by
  have small : ISIZE < USIZE := by decide
  have width : stop - cursor = n := by omega
  rw [slice_ok (by omega) inside,ok_bind,width]
  apply follows_taken (by omega) (by omega)
  rw [size]
  exact rest _

omit [Corrupt ε] in
theorem ends_pass {corrupt : ε} {z : Except ε β} {f : β → Careful ε α} {g : β → Fields ε α}
    (rest : ∀ b, Ends corrupt bytes (f b) (g b) cursor) : Ends corrupt bytes (pass z >>= f) (lift z >>= g) cursor := by
  cases z with
  | ok b => exact rest b
  | error e => exact returns_refuse _

/-! ## Bytes behind their length -/

theorem usize_checked_add_none {a b : Nat} (failed : usize_checked_add a b = none) : 2 ^ 64 ≤ a + b := by
  rw [usize_checked_add] at failed
  split at failed
  · cases failed
  · omega

theorem read_len_follows (limit : bytes.length < ISIZE) (inside : cursor ≤ bytes.length) :
    Follows bytes (Careful.read_len Corrupt.corrupt bytes cursor) (Fields.bytes : Fields ε Bytes) cursor := by
  have small : ISIZE = 2 ^ 63 := rfl
  have word : USIZE = 2 ^ 64 := rfl
  unfold Careful.read_len
  rw [usize_add_fits (by omega),ok_bind]
  by_cases header : cursor + 4 > bytes.length
  · have failed : (Fields.bytes : Fields ε Bytes) ⟨bytes,cursor⟩ = .error Corrupt.corrupt ⟨bytes,cursor⟩ :=
      bind_of_error (bind_of_error (take_past _ header))
    rw [if_pos header]
    unfold Follows
    rw [failed]
  · have width : cursor + 4 - cursor = 4 := by omega
    have len_read : (Fields.u32 : Fields ε UInt32) ⟨bytes,cursor⟩ =
        .ok (UInt32.from_le_bytes ((bytes.drop cursor).take 4)) ⟨bytes,cursor + 4⟩ := by
      refine fixed_u32 bytes cursor ⟨(bytes.drop cursor).take 4,?_⟩ rfl limit (by omega)
      rw [List.length_take,List.length_drop]
      omega
    have moved : (Fields.bytes : Fields ε Bytes) ⟨bytes,cursor⟩ =
        Fields.take (UInt32.from_le_bytes ((bytes.drop cursor).take 4)).toNat ⟨bytes,cursor + 4⟩ := bind_of_ok len_read
    rw [if_neg header,slice_ok (by omega) (by omega),ok_bind,width]
    unfold Follows
    rw [moved]
    dsimp only
    refine follows_take (show bytes.length < USIZE by omega) ?_ ?_
    · intro enough
      cases summed : usize_checked_add (cursor + 4) (UInt32.from_le_bytes ((bytes.drop cursor).take 4)).toNat with
      | none =>
        have := usize_checked_add_none summed
        omega
      | some stop =>
        have is := usize_checked_add_is summed
        dsimp only
        rw [if_neg (by omega),slice_ok (by omega) (by omega),is,Nat.add_sub_cancel_left]
        rfl
    · intro short
      cases summed : usize_checked_add (cursor + 4) (UInt32.from_le_bytes ((bytes.drop cursor).take 4)).toNat with
      | none => rfl
      | some stop =>
        have is := usize_checked_add_is summed
        exact if_pos (by omega)

/-- The bytes that a cursor with checked sums takes. -/
theorem take_follows (limit : bytes.length < ISIZE) (len : Nat) :
    Follows bytes (Careful.take Corrupt.corrupt len bytes cursor) (Fields.take len : Fields ε Bytes) cursor := by
  have small : ISIZE = 2 ^ 63 := rfl
  have word : USIZE = 2 ^ 64 := rfl
  unfold Careful.take
  refine follows_take (show bytes.length < USIZE by omega) ?_ ?_
  · intro enough
    cases summed : usize_checked_add cursor len with
    | none =>
      have := usize_checked_add_none summed
      omega
    | some stop =>
      have is := usize_checked_add_is summed
      dsimp only
      rw [get_range,if_pos (by omega),is,Nat.add_sub_cancel_left]
  · intro short
    cases summed : usize_checked_add cursor len with
    | none => rfl
    | some stop =>
      have is := usize_checked_add_is summed
      dsimp only
      rw [get_range,if_neg (by omega)]

/-! ## How many bytes the readers need -/

abbrev Consumes (least : Nat) (y : Fields ε α) : Prop := Needs Corrupt.corrupt least y

theorem takes_take (len : Nat) : Consumes len (Fields.take len : Fields ε Bytes) := needs_take _ _ _

theorem takes_made (value : Bytes → β) : Consumes n (do return value (← Fields.take n) : Fields ε β) :=
  (takes_take n).bind (fun _ => needs_pure _ _)

theorem takes_u8 : Consumes 1 (Fields.u8 : Fields ε UInt8) := by
  refine Needs.bind (takes_take 1) (fun part => needs_lift ?_)
  intro e failed
  cases part with
  | nil =>
    cases failed
    rfl
  | cons => cases failed

theorem takes_u32 : Consumes 4 (Fields.u32 : Fields ε UInt32) := takes_made _
theorem takes_u64 : Consumes 8 (Fields.u64 : Fields ε UInt64) := takes_made _
theorem takes_i64 : Consumes 8 (Fields.i64 : Fields ε Int64) := takes_made _

theorem takes_array_16 : Consumes 16 (Fields.array_16 : Fields ε (ByteArr 16)) := by
  have sized : ∀ part : Bytes, Consumes 0 (if size : part.length = 16 then pure ⟨part,size⟩ else throw Corrupt.corrupt :
      Fields ε (ByteArr 16)) := by
    intro part
    by_cases size : part.length = 16
    · rw [dif_pos size]
      exact needs_pure _ _
    · rw [dif_neg size]
      exact needs_throw _ _
  exact (takes_take 16).bind sized

theorem takes_bytes : Consumes 4 (Fields.bytes : Fields ε Bytes) :=
  takes_u32.bind (fun len => (takes_take len.toNat).mono (Nat.zero_le _))

theorem takes_option {y : Fields ε α} {least : Nat} (takes : Consumes least y) : Consumes 1 (Fields.option y) := by
  refine takes_u8.bind (fun tag => Needs.ite (needs_pure _ _) (Needs.ite ?_ (needs_throw _ _)))
  exact (takes.bind (fun _ => needs_pure _ _)).mono (Nat.zero_le _)

end

/-! ## Workflows -/

theorem decode_parent_follows {input : Bytes} {cursor : Nat} (limit : input.length < ISIZE) (inside : cursor < input.length) :
    Follows input (Careful.decode_parent input cursor) (Fields.option Fields.array_16) cursor := by
  have small : ISIZE = 2 ^ 63 := rfl
  apply follows_index limit inside
  intro tag
  apply Follows.ite
  · intro _
    rw [usize_add_fits (by omega)]
    exact follows_pure _ (by omega)
  intro _
  apply Follows.ite
  · intro _
    rw [usize_add_fits (by omega),ok_bind,usize_add_fits (by omega),ok_bind]
    by_cases past : cursor + 1 + 16 > input.length
    · have failed : (Fields.array_16 : Fields WorkflowError (ByteArr 16)) ⟨input,cursor + 1⟩ =
          .error .CorruptRecord ⟨input,cursor + 1⟩ := bind_of_error (take_past _ past)
      rw [if_pos past]
      unfold Follows
      rw [bind_of_error failed]
    · rw [if_neg past]
      apply follows_fixed fixed_array_16 limit rfl (by omega)
      exact fun _ => follows_pure _ (by omega)
  · exact fun _ => follows_throw _

theorem decode_wait_follows {input : Bytes} {cursor : Nat} (limit : input.length < ISIZE) (inside : cursor < input.length) :
    Follows input (Careful.decode_wait input cursor) Workflow.read_wait cursor := by
  have small : ISIZE = 2 ^ 63 := rfl
  apply follows_index limit inside
  intro tag
  apply Follows.ite
  · intro _
    rw [usize_add_fits (by omega)]
    exact follows_pure _ (by omega)
  intro _
  apply Follows.ite
  · intro _
    rw [usize_add_fits (by omega),ok_bind]
    apply (read_len_follows limit (by omega)).bind
    exact fun name stop within => follows_pure _ within
  intro _
  apply Follows.ite
  · intro _
    rw [usize_add_fits (by omega),ok_bind,usize_add_fits (by omega),ok_bind]
    by_cases past : cursor + 1 + 8 > input.length
    · have failed : (Fields.i64 : Fields WorkflowError Int64) ⟨input,cursor + 1⟩ =
          .error .CorruptRecord ⟨input,cursor + 1⟩ := bind_of_error (take_past _ past)
      rw [if_pos past]
      unfold Follows
      rw [bind_of_error failed]
    · rw [if_neg past]
      apply follows_fixed fixed_i64 limit rfl (by omega)
      exact fun _ => follows_pure _ (by omega)
  · exact fun _ => follows_throw _

theorem takes_wait : Consumes 1 Workflow.read_wait := by
  refine takes_u8.bind (fun tag => Needs.ite (needs_pure _ _) (Needs.ite ?_ (Needs.ite ?_ (needs_throw _ _))))
  · exact (takes_bytes.bind (fun _ => needs_pure _ _)).mono (Nat.zero_le _)
  · exact (takes_i64.bind (fun _ => needs_pure _ _)).mono (Nat.zero_le _)

theorem status_corrupt {tag : UInt8} {e : WorkflowError} (failed : Workflow.status_try_from tag = .error e) : e = .CorruptRecord := by
  unfold Workflow.status_try_from at failed
  split_ifs at failed
  cases failed
  rfl

theorem kind_corrupt {tag : UInt8} {e : WorkflowError} (failed : Workflow.kind_try_from tag = .error e) : e = .CorruptRecord := by
  unfold Workflow.kind_try_from at failed
  split_ifs at failed
  cases failed
  rfl

theorem takes_instance : Consumes 35 Workflow.read_instance := by
  have strings : ∀ (id : WorkflowId) status created updated parent, Consumes 13 (do
      let workflow_type ← Fields.bytes
      let current_step ← Fields.bytes
      let state ← Fields.bytes
      let wait ← Workflow.read_wait
      return WorkflowInstance.mk id workflow_type status current_step state parent wait created updated) :=
    fun id status created updated parent => takes_bytes.bind (fun workflow_type => takes_bytes.bind (fun current_step =>
      takes_bytes.bind (fun state => takes_wait.bind (fun wait => needs_pure _ _))))
  have fixed : Consumes 48 Workflow.read_instance :=
    takes_u8.bind (fun version => Needs.ite (needs_throw _ 47) (takes_array_16.bind (fun id => takes_u8.bind (fun tag =>
      (needs_lift (fun e failed => status_corrupt failed)).bind (fun status => takes_i64.bind (fun created => takes_i64.bind
        (fun updated => (takes_option takes_array_16).bind (fun parent => strings id status created updated parent))))))))
  exact fixed.mono (by omega)

theorem decode_instance_returns {input : Bytes} (limit : input.length < ISIZE) :
    Returns (Careful.decode_instance input) (Workflow.decode_instance input) := by
  apply Ends.readAll
  by_cases short : input.length < 35
  · unfold Careful.decode_instance
    rw [if_pos short]
    exact Ends.short takes_instance (by omega)
  unfold Careful.decode_instance
  rw [if_neg short]
  apply ends_index limit (by omega)
  intro version
  apply Ends.ite
  · exact fun _ => ends_throw _
  intro _
  apply ends_fixed fixed_array_16 limit rfl (by omega)
  intro id
  apply ends_index limit (by omega)
  intro tag
  apply ends_pass
  intro status
  apply ends_fixed fixed_i64 limit rfl (by omega)
  intro created_at_ms
  apply ends_fixed fixed_i64 limit rfl (by omega)
  intro updated_at_ms
  apply (decode_parent_follows limit (by omega)).ends
  intro parent_id cursor within
  apply (read_len_follows limit within).ends
  intro workflow_type cursor within
  apply (read_len_follows limit within).ends
  intro current_step cursor within
  apply (read_len_follows limit within).ends
  intro state cursor within
  by_cases ended : cursor ≥ input.length
  · dsimp only
    rw [if_pos ended]
    exact Ends.short (takes_wait.bind (fun _ => needs_pure _ _)) (by omega)
  dsimp only
  rw [if_neg ended]
  apply (decode_wait_follows limit (by omega)).ends
  exact fun wait cursor _ => ends_pure _

theorem takes_history : Consumes 22 Workflow.read_history :=
  takes_u8.bind (fun _ => Needs.ite (needs_throw _ 21) (takes_u64.bind (fun _ => takes_i64.bind (fun _ => takes_u8.bind (fun _ =>
    (needs_lift (fun _ failed => kind_corrupt failed)).bind (fun _ => takes_bytes.bind (fun _ => needs_pure _ _)))))))

theorem decode_workflow_history_returns {input : Bytes} (limit : input.length < ISIZE) :
    Returns (Careful.decode_workflow_history input) (Workflow.decode_history input) := by
  apply Ends.readAll
  unfold Careful.decode_workflow_history
  by_cases short : input.length < 18
  · rw [if_pos short]
    exact Ends.short takes_history (by omega)
  rw [if_neg short]
  apply ends_index limit (by omega)
  intro version
  apply Ends.ite
  · exact fun _ => ends_throw _
  intro _
  apply ends_fixed fixed_u64 limit rfl (by omega)
  intro sequence
  apply ends_fixed fixed_i64 limit rfl (by omega)
  intro at_ms
  apply ends_index limit (by omega)
  intro tag
  apply ends_pass
  intro kind
  apply (read_len_follows limit (by omega)).ends
  exact fun detail cursor _ => ends_pure _

/-! ## Consumer groups -/

theorem read_u8_follows {bytes : Bytes} {pos : Nat} (limit : bytes.length < ISIZE) (inside : pos ≤ bytes.length) :
    Follows bytes (Careful.read_u8 bytes pos) Fields.u8 pos := by
  have small : ISIZE = 2 ^ 63 := rfl
  unfold Careful.read_u8
  by_cases more : pos < bytes.length
  · rw [List.getElem?_eq_getElem more]
    dsimp only
    rw [usize_add_fits (by omega)]
    unfold Follows
    rw [byte_at limit more]
    exact ⟨rfl,rfl,more⟩
  · have failed : (Fields.u8 : Fields ConsumerGroupError UInt8) ⟨bytes,pos⟩ = .error .CorruptRecord ⟨bytes,pos⟩ :=
      bind_of_error (take_past _ (by omega))
    rw [List.getElem?_eq_none (by omega)]
    unfold Follows
    rw [failed]

theorem read_leased_follows {bytes : Bytes} {pos : Nat} (limit : bytes.length < ISIZE) (inside : pos ≤ bytes.length) :
    Follows bytes (Careful.read_leased bytes pos) (Fields.option Fields.u64) pos := by
  apply (read_u8_follows limit inside).bind
  intro tag stop within
  apply Follows.ite
  · exact fun _ => follows_pure _ within
  intro _
  apply Follows.ite
  · intro _
    apply Follows.bind
    · exact (take_follows limit 8).bind (fun value stop within => follows_pure _ within)
    · exact fun offset stop within => follows_pure _ within
  · exact fun _ => follows_throw _

theorem takes_state : Consumes 30 ConsumerGroup.read_state :=
  takes_u8.bind (fun _ => Needs.ite (needs_throw _ 29) (takes_u64.bind (fun _ => (takes_option takes_u64).bind (fun _ =>
    takes_i64.bind (fun _ => takes_u64.bind (fun _ => takes_bytes.bind (fun _ => needs_pure _ _)))))))

theorem decode_state_returns {bytes : Bytes} (limit : bytes.length < ISIZE) :
    Returns (Careful.decode_state bytes) (ConsumerGroup.decode_state bytes) := by
  apply Ends.readAll
  unfold Careful.decode_state
  by_cases short : bytes.length < 1 + 8 + 1 + 8 + 8 + 4
  · rw [if_pos short]
    exact Ends.short takes_state (by omega)
  rw [if_neg short]
  apply ends_index limit (by omega)
  intro version
  apply Ends.ite
  · exact fun _ => ends_throw _
  intro _
  have number : ∀ pos, Follows bytes (Careful.read_u64 bytes pos) (Fields.u64 : Fields ConsumerGroupError UInt64) pos :=
    fun pos => (take_follows limit 8).bind (fun value stop within => follows_pure _ within)
  have time : ∀ pos, Follows bytes (Careful.read_i64 bytes pos) (Fields.i64 : Fields ConsumerGroupError Int64) pos :=
    fun pos => (take_follows limit 8).bind (fun value stop within => follows_pure _ within)
  have len : ∀ pos, Follows bytes (Careful.read_u32 bytes pos) (Fields.u32 : Fields ConsumerGroupError UInt32) pos :=
    fun pos => (take_follows limit 4).bind (fun value stop within => follows_pure _ within)
  apply (number 1).ends
  intro next_offset pos within
  apply (read_leased_follows limit within).ends
  intro leased_offset pos within
  apply (time pos).ends
  intro lease_until_ms pos within
  apply (number pos).ends
  intro lease_generation pos within
  rw [Fields.bytes,bind_assoc]
  apply (len pos).ends
  intro owner_len pos within
  apply (take_follows limit owner_len.toNat).ends
  exact fun owner stop _ => ends_pure _

/-! ## Collections -/

theorem takes_u16 : Consumes 2 Collections.u16_field := takes_made _

section
variable {rest : Fields CollectionError (List IndexValue)} (takes : Consumes 0 rest)
include takes

/-- What is left of an entry behind the length of its value. -/
theorem takes_index_value (name : Bytes) (len : Nat) : Consumes len (do
    let value ← Fields.take len
    return (⟨name,value⟩ : IndexValue) :: (← rest)) :=
  (takes_take len).bind (fun _ => takes.bind (fun _ => needs_pure _ _))

/-- What is left of an entry behind the length of its name. -/
theorem takes_index_name (len : Nat) : Consumes (len + 4) (do
    let name ← Fields.take len
    let value_len ← Fields.u32
    let value ← Fields.take value_len.toNat
    return (⟨name,value⟩ : IndexValue) :: (← rest)) :=
  (takes_take len).bind (fun name => takes_u32.bind (fun _ => (takes_index_value takes name _).mono (Nat.zero_le _)))

end

theorem takes_indexes (count : Nat) : Consumes 0 (Collections.read_indexes count) := by
  induction count with
  | zero => exact needs_pure _ _
  | succ count ih =>
    have entry : Consumes (2 + 0) (Collections.read_indexes (count + 1)) :=
      takes_u16.bind (fun name_len => (takes_index_name ih name_len.toNat).mono (Nat.zero_le _))
    exact entry.mono (Nat.zero_le _)

/-- Both checks of an entry come before the bytes that they are about. -/
theorem decode_indexes_follows {encoded : Bytes} (limit : encoded.length < ISIZE) (count : Nat) : ∀ cursor, cursor ≤ encoded.length →
    Follows encoded (Careful.decode_indexes encoded count cursor) (Collections.read_indexes count) cursor := by
  have small : ISIZE = 2 ^ 63 := rfl
  induction count with
  | zero => exact fun cursor inside => follows_pure _ inside
  | succ count ih =>
    intro cursor inside
    have takes := takes_indexes count
    unfold Careful.decode_indexes Collections.read_indexes
    rw [usize_add_fits (by omega),ok_bind]
    by_cases header : cursor + 2 > encoded.length
    · rw [if_pos header]
      exact Follows.short (takes_u16.bind (fun name_len => (takes_index_name takes name_len.toNat).mono (Nat.zero_le _))) inside (by omega)
    rw [if_neg header]
    apply follows_fixed fixed_u16 limit rfl (by omega)
    intro name_len
    dsimp only
    generalize lengthed : (UInt16.from_le_bytes name_len.val).toNat = len
    have len_small : len < 2 ^ 16 := lengthed ▸ UInt16.toNat_lt _
    cases summed : usize_checked_add (cursor + 2) len with
    | none =>
      have := usize_checked_add_none summed
      omega
    | some name_end =>
    have is := usize_checked_add_is summed
    dsimp only
    rw [usize_add_fits (by omega),ok_bind]
    by_cases past : name_end + 4 > encoded.length
    · rw [if_pos past]
      exact Follows.short (takes_index_name takes len) (by omega) (by omega)
    rw [if_neg past]
    apply follows_slice limit is.symm (by omega)
    intro name
    apply follows_fixed fixed_u32 limit rfl (by omega)
    intro value_len
    cases summed : usize_checked_add (name_end + 4) (UInt32.from_le_bytes value_len.val).toNat with
    | none =>
      have := usize_checked_add_none summed
      exact Follows.short (takes_index_value takes name _) (by omega) (by omega)
    | some value_end =>
    have is := usize_checked_add_is summed
    dsimp only
    by_cases past : value_end > encoded.length
    · rw [if_pos past]
      exact Follows.short (takes_index_value takes name _) (by omega) (by omega)
    rw [if_neg past]
    apply follows_slice limit is.symm (by omega)
    intro value
    apply (ih value_end (by omega)).bind
    exact fun rest stop within => follows_pure _ within

section
variable {ε : Type} {granted size count : Nat}

theorem with_capacity_fits (addressed : size * count < ISIZE) (room : size * count ≤ granted) :
    (with_capacity granted size count : Careful ε Unit) = .ok () := if_pos ⟨addressed,room⟩

theorem with_capacity_refused (refused : granted < size * count) :
    (with_capacity granted size count : Careful ε Unit) = .error .Panicked := if_neg (by omega)

end

/-- The length of the value that a record announces. -/
def announced_value (encoded : Bytes) : Nat := (UInt32.from_le_bytes ((encoded.drop 1).take 4)).toNat

/-- The number of indexes that a record announces. -/
def announced_indexes (encoded : Bytes) : Nat := (UInt16.from_le_bytes ((encoded.drop 5).take 2)).toNat

/-- A record that is refused before the vector of its indexes is made, or the vector is granted. -/
def RecordGranted (granted : Nat) (encoded : Bytes) : Prop :=
  encoded.length < 7 + announced_value encoded ∨ encoded.head? ≠ some Collections.FORMAT_VERSION ∨
    48 * announced_indexes encoded ≤ granted

theorem decode_record_value_returns {granted : Nat} {encoded : Bytes} (limit : encoded.length < ISIZE)
    (room : RecordGranted granted encoded) :
    Returns (Careful.decode_record_value granted encoded) (Collections.decode_record_value encoded) := by
  have small : ISIZE = 2 ^ 63 := rfl
  have value_left : ∀ count len : Nat, Consumes len (do
      let value ← Fields.take len
      let indexes ← Collections.read_indexes count
      return (⟨value,indexes⟩ : StoredRecord)) := fun count len =>
    (takes_take len).bind (fun value => (takes_indexes count).bind (fun indexes => needs_pure _ _))
  have takes_record : Consumes 7 Collections.read_record := takes_u8.bind (fun _ => Needs.ite (needs_throw _ 6) (takes_u32.bind
    (fun value_len => takes_u16.bind (fun index_count => (value_left _ _).mono (Nat.zero_le _)))))
  apply Ends.readAll
  unfold Careful.decode_record_value
  by_cases short : encoded.length < 7
  · rw [if_pos short]
    exact Ends.short takes_record (by omega)
  rw [if_neg short]
  apply ends_byte limit (by omega)
  intro version first
  apply Ends.ite
  · exact fun _ => ends_throw _
  intro current
  apply ends_field fixed_u32 limit rfl (by omega)
  intro value_len value_field
  apply ends_field fixed_u16 limit rfl (by omega)
  intro index_count count_field
  have value_is : announced_value encoded = (UInt32.from_le_bytes value_len.val).toNat :=
    congrArg (fun field => (UInt32.from_le_bytes field).toNat) value_field.symm
  have count_is : announced_indexes encoded = (UInt16.from_le_bytes index_count.val).toNat :=
    congrArg (fun field => (UInt16.from_le_bytes field).toNat) count_field.symm
  dsimp only
  have count_small := UInt16.toNat_lt (UInt16.from_le_bytes index_count.val)
  cases summed : usize_checked_add 7 (UInt32.from_le_bytes value_len.val).toNat with
  | none =>
    have := usize_checked_add_none summed
    exact Ends.short (value_left _ _) (by omega)
  | some value_end =>
  have is := usize_checked_add_is summed
  dsimp only
  by_cases past : value_end > encoded.length
  · rw [if_pos past]
    exact Ends.short (value_left _ _) (by omega)
  rw [if_neg past]
  apply ends_slice limit is.symm (by omega)
  intro value
  have granted_here : 48 * (UInt16.from_le_bytes index_count.val).toNat ≤ granted := by
    rcases room with short | other | room
    · omega
    · rw [List.head?_eq_getElem?,first] at other
      exact absurd (congrArg some (not_not.mp current)) other
    · omega
  rw [with_capacity_fits (by omega) granted_here,ok_bind]
  apply (decode_indexes_follows limit _ value_end (by omega)).ends
  exact fun indexes cursor _ => ends_pure _

/-- The program ends where the vector of the indexes is refused. -/
theorem decode_record_value_aborts {granted : Nat} {encoded : Bytes} (limit : encoded.length < ISIZE)
    (refused : ¬ RecordGranted granted encoded) : Careful.decode_record_value granted encoded = .error .Panicked := by
  have small : ISIZE = 2 ^ 63 := rfl
  have long : 7 + announced_value encoded ≤ encoded.length := by
    by_contra short
    exact refused (.inl (by omega))
  have current : encoded.head? = some Collections.FORMAT_VERSION := by
    by_contra other
    exact refused (.inr (.inl other))
  have wanted : granted < 48 * announced_indexes encoded := by
    by_contra enough
    exact refused (.inr (.inr (by omega)))
  have first : encoded[0] = Collections.FORMAT_VERSION := by
    rw [List.head?_eq_getElem?,List.getElem?_eq_getElem (by omega)] at current
    exact Option.some.inj current
  unfold Careful.decode_record_value
  rw [if_neg (by omega),index_ok (by omega),ok_bind,if_neg (not_not.mpr first)]
  obtain ⟨value_len,value_field,here⟩ := @slice_at CollectionError StoredRecord encoded 1 5 4 _ rfl (by omega)
  rw [here]
  obtain ⟨index_count,count_field,here⟩ := @slice_at CollectionError StoredRecord encoded 5 7 2 _ rfl (by omega)
  rw [here]
  have value_is : (UInt32.from_le_bytes value_len.val).toNat = announced_value encoded :=
    congrArg (fun field => (UInt32.from_le_bytes field).toNat) value_field
  have count_is : (UInt16.from_le_bytes index_count.val).toNat = announced_indexes encoded :=
    congrArg (fun field => (UInt16.from_le_bytes field).toNat) count_field
  have summed : usize_checked_add 7 (announced_value encoded) = some (7 + announced_value encoded) := if_pos (by omega)
  dsimp only
  rw [value_is,count_is,summed]
  dsimp only
  rw [if_neg (by omega),slice_ok (by omega) (by omega),ok_bind,with_capacity_refused wanted]
  rfl

theorem decode_record_value_returns_iff {granted : Nat} {encoded : Bytes} (limit : encoded.length < ISIZE) :
    Returns (Careful.decode_record_value granted encoded) (Collections.decode_record_value encoded) ↔ RecordGranted granted encoded := by
  constructor
  · intro returns
    by_contra refused
    exact returns.calm (decode_record_value_aborts limit refused)
  · exact decode_record_value_returns limit

/-! ## Objects -/

section
variable {rest : Fields ObjectError MetadataEntries} (takes : Consumes 0 rest)
include takes

/-- What is left of an entry behind the two lengths. -/
theorem takes_entry (key_len value_len : Nat) : Consumes (key_len + value_len) (do
    let key ← Fields.take key_len
    let value ← Fields.take value_len
    return (key,value) :: (← rest)) :=
  (takes_take key_len).bind (fun _ => (takes_take value_len).bind (fun _ => takes.bind (fun _ => needs_pure _ _)))

theorem takes_entry_lens : Consumes 8 (do
    let key_len ← Fields.u32
    let value_len ← Fields.u32
    let key ← Fields.take key_len.toNat
    let value ← Fields.take value_len.toNat
    return (key,value) :: (← rest)) :=
  takes_u32.bind (fun key_len => takes_u32.bind (fun value_len => (takes_entry takes key_len.toNat value_len.toNat).mono (Nat.zero_le _)))

end

theorem takes_entries (count : Nat) : Consumes 0 (Objects.read_entries count) := by
  induction count with
  | zero => exact needs_pure _ _
  | succ count ih => exact (takes_entry_lens ih).mono (Nat.zero_le _)

theorem decode_entries_follows {encoded : Bytes} (limit : encoded.length < ISIZE) (count : Nat) : ∀ offset, offset ≤ encoded.length →
    Follows encoded (Careful.decode_entries encoded count offset) (Objects.read_entries count) offset := by
  have small : ISIZE = 2 ^ 63 := rfl
  induction count with
  | zero => exact fun offset inside => follows_pure _ inside
  | succ count ih =>
    intro offset inside
    have takes := takes_entries count
    unfold Careful.decode_entries Objects.read_entries
    rw [usize_add_fits (by omega),ok_bind]
    by_cases header : encoded.length < offset + 8
    · rw [if_pos header]
      exact Follows.short (takes_entry_lens takes) inside header
    rw [if_neg header,usize_add_fits (by omega),ok_bind]
    apply follows_fixed fixed_u32 limit rfl (by omega)
    intro key_len
    apply follows_fixed fixed_u32 limit rfl (by omega)
    intro value_len
    generalize lengthed : (UInt32.from_le_bytes key_len.val).toNat = len
    have len_small : len < 2 ^ 32 := lengthed ▸ UInt32.toNat_lt _
    cases summed : usize_checked_add (offset + 8) len with
    | none =>
      have := usize_checked_add_none summed
      omega
    | some key_end =>
    have key_is := usize_checked_add_is summed
    simp only [Option.bind_some]
    cases summed : usize_checked_add key_end (UInt32.from_le_bytes value_len.val).toNat with
    | none =>
      have := usize_checked_add_none summed
      exact Follows.short (takes_entry takes len _) (by omega) (by omega)
    | some stop =>
    have stop_is := usize_checked_add_is summed
    dsimp only
    by_cases past : stop > encoded.length
    · rw [if_pos past]
      exact Follows.short (takes_entry takes len _) (by omega) (by omega)
    rw [if_neg past,usize_add_fits (by omega),ok_bind]
    apply follows_slice limit rfl (by omega)
    intro key
    apply follows_slice limit (by omega) (by omega)
    intro value
    apply (ih stop (by omega)).bind
    exact fun metadata offset within => follows_pure _ within

/-- The value before is the one that was seen last. -/
theorem repeats_is (before rest : MetadataEntries) (key : Bytes) :
    Careful.repeats (before ++ rest) before.length key = .ok (decide (before.getLast?.map Prod.fst = some key)) := by
  unfold Careful.repeats
  cases before using List.reverseRecOn with
  | nil => rfl
  | append_singleton before last =>
    have here : (before ++ [last] ++ rest)[before.length]? = some last := by simp
    simp [element,here]

theorem check_metadata_returns (rest : MetadataEntries) : ∀ (before : MetadataEntries) (total : Nat),
    Returns (Careful.check_metadata (before ++ rest) before.length total rest)
      (Objects.check_metadata (before.getLast?.map Prod.fst) total rest) := by
  induction rest with
  | nil => exact fun before total => returns_ok total
  | cons entry rest ih =>
    obtain ⟨key,value⟩ := entry
    intro before total
    unfold Careful.check_metadata Objects.check_metadata
    apply Returns.ite
    · exact fun _ => returns_refuse _
    intro sizes
    have fits : key.length + value.length < 2 ^ 64 := by omega
    rw [repeats_is,ok_bind,usize_add_fits fits]
    simp only [decide_eq_true_eq]
    apply Returns.ite
    · exact fun _ => returns_refuse _
    intro _
    apply (returns_pass _).bind
    intro total _
    have further := ih (before ++ [(key,value)]) total
    rw [List.append_assoc,List.length_append] at further
    simpa using further

theorem normalize_metadata_returns (metadata : MetadataEntries) :
    Returns (Careful.normalize_metadata metadata) (Objects.normalize_metadata metadata) := by
  apply (check_metadata_returns _ [] 0).bind
  intro total _
  apply Returns.ite
  · exact fun _ => returns_refuse _
  · exact fun _ => returns_ok _

/-- The number of entries that the metadata of an object announce. -/
def announced_entries (encoded : Bytes) : Nat := (UInt32.from_le_bytes ((encoded.drop 1).take 4)).toNat

/-- Metadata that are refused before the vector of their entries is made, or the vector is granted. -/
def MetadataGranted (granted : Nat) (encoded : Bytes) : Prop :=
  encoded.length < 5 ∨ encoded.head? ≠ some OBJECT_VERSION ∨ 48 * announced_entries encoded ≤ granted

/-- An entry has eight bytes at least. Metadata that announce no more entries than they
    have room for ask for six times their own bytes at most. -/
theorem metadata_granted {granted : Nat} {encoded : Bytes} (room : 5 + 8 * announced_entries encoded ≤ encoded.length)
    (enough : 6 * encoded.length ≤ granted) : MetadataGranted granted encoded := .inr (.inr (by omega))

theorem decode_metadata_returns {granted : Nat} {encoded : Bytes} (limit : encoded.length < ISIZE)
    (room : MetadataGranted granted encoded) :
    Returns (Careful.decode_metadata granted encoded) (Objects.decode_metadata encoded) := by
  have small : ISIZE = 2 ^ 63 := rfl
  have takes_metadata : Consumes 5 Objects.read_metadata := takes_u8.bind (fun _ => Needs.ite (needs_throw _ 4) (takes_u32.bind
    (fun count => takes_entries count.toNat)))
  -- the cursor is at the end before the entries are sorted
  have taken : Careful.decode_metadata granted encoded = (do
      let metadata ← (if encoded.length < 5 then refuse .CorruptMetadata else do
        if (← index encoded 0) ≠ OBJECT_VERSION then refuse .CorruptMetadata else do
        let count := (UInt32.from_le_bytes (← to_array 4 (← slice encoded 1 5)).val).toNat
        with_capacity granted 48 count
        let (metadata,offset) ← Careful.decode_entries encoded count 5
        if offset ≠ encoded.length then refuse .CorruptMetadata else .ok metadata)
      Careful.normalize_metadata metadata) := by
    simp only [refused_bind,bind_assoc]
    rfl
  rw [taken]
  apply Returns.bind
  · apply Ends.readAll
    by_cases short : encoded.length < 5
    · rw [if_pos short]
      exact Ends.short takes_metadata (by omega)
    rw [if_neg short]
    apply ends_byte limit (by omega)
    intro version first
    apply Ends.ite
    · exact fun _ => ends_throw _
    intro current
    apply ends_field fixed_u32 limit rfl (by omega)
    intro count field
    have count_is : announced_entries encoded = (UInt32.from_le_bytes count.val).toNat :=
      congrArg (fun field => (UInt32.from_le_bytes field).toNat) field.symm
    have count_small := UInt32.toNat_lt (UInt32.from_le_bytes count.val)
    have granted_here : 48 * (UInt32.from_le_bytes count.val).toNat ≤ granted := by
      rcases room with short | other | room
      · omega
      · rw [List.head?_eq_getElem?,first] at other
        exact absurd (congrArg some (not_not.mp current)) other
      · omega
    dsimp only
    rw [with_capacity_fits (by omega) granted_here,ok_bind,← bind_pure (Objects.read_entries _)]
    apply (decode_entries_follows limit _ 5 (by omega)).ends
    exact fun metadata offset _ => ends_pure _
  · exact fun metadata _ => normalize_metadata_returns metadata

/-- The program ends where the vector of the entries is refused, whatever follows the number of them. -/
theorem decode_metadata_aborts {granted : Nat} {encoded : Bytes} (refused : ¬ MetadataGranted granted encoded) :
    Careful.decode_metadata granted encoded = .error .Panicked := by
  have long : 5 ≤ encoded.length := by
    by_contra short
    exact refused (.inl (by omega))
  have current : encoded.head? = some OBJECT_VERSION := by
    by_contra other
    exact refused (.inr (.inl other))
  have wanted : granted < 48 * announced_entries encoded := by
    by_contra enough
    exact refused (.inr (.inr (by omega)))
  have first : encoded[0] = OBJECT_VERSION := by
    rw [List.head?_eq_getElem?,List.getElem?_eq_getElem (by omega)] at current
    exact Option.some.inj current
  unfold Careful.decode_metadata
  rw [if_neg (by omega),index_ok (by omega),ok_bind,if_neg (not_not.mpr first)]
  obtain ⟨count,field,here⟩ := @slice_at ObjectError MetadataEntries encoded 1 5 4 _ rfl (by omega)
  rw [here]
  have count_is : (UInt32.from_le_bytes count.val).toNat = announced_entries encoded :=
    congrArg (fun field => (UInt32.from_le_bytes field).toNat) field
  dsimp only
  rw [count_is,with_capacity_refused wanted]
  rfl

theorem decode_metadata_returns_iff {granted : Nat} {encoded : Bytes} (limit : encoded.length < ISIZE) :
    Returns (Careful.decode_metadata granted encoded) (Objects.decode_metadata encoded) ↔ MetadataGranted granted encoded := by
  constructor
  · intro returns
    by_contra refused
    exact returns.calm (decode_metadata_aborts refused)
  · exact decode_metadata_returns limit

/-! ## Index entries -/

theorem read_component_follows {input : Bytes} {cursor : Nat} (limit : input.length < ISIZE) :
    Follows input (Careful.read_component input cursor) Query.read_component cursor := by
  apply (take_follows limit 4).bind
  exact fun len_bytes stop _ => take_follows limit _

theorem decode_index_entry_returns {front key : Bytes} (limit : key.length < ISIZE) :
    Returns (Careful.decode_index_entry front key) (Query.decode_index_entry front key) := by
  unfold Careful.decode_index_entry Query.decode_index_entry
  apply Returns.ite
  · exact fun _ => returns_refuse _
  intro starts
  have begins : front <+: key := by simpa using starts
  have here : Position.at front (key.drop front.length) = ⟨key,front.length⟩ :=
    congrArg (Position.mk · _) (List.prefix_iff_eq_append.mp begins)
  have ends : Ends .CorruptIndexEntry key (do
      let (index_value,cursor) ← Careful.read_component key front.length
      let (primary_key,cursor) ← Careful.read_component key cursor
      if cursor ≠ key.length then refuse .CorruptIndexEntry else .ok (index_value,primary_key))
      (do return (← Query.read_component,← Query.read_component)) front.length := by
    apply (read_component_follows limit).ends
    intro index_value cursor _
    apply (read_component_follows limit).ends
    exact fun primary_key cursor _ => ends_pure _
  rw [here]
  refine ends.trans (congrArg pass ?_)
  split
  · rename_i result
    rw [result]
    rfl
  · rename_i result
    rw [result]
    rfl

end VoodooStore
