import VoodooStore.Lib.Crc32
import VoodooStore.Lib.Sha256

/-!
# Bytes, machine integers and slices

What the modules of the store share: byte strings, the fixed-width integers
with their checked operations and their byte spellings, and slicing. A slice
out of range panics; the model gives every error type one more value for that
(`Panics`), so that a function that never panics is one that never returns it.
The two hash functions come from other crates and stay parameters (`Hashes`);
`crates` is what they are in a running store.
-/

/-- `to_le_bytes` and `from_le_bytes` of `u64`; the other widths follow. -/
def UInt64.to_le_bytes (x : UInt64) : List UInt8 := Endian.toLe 8 x.toNat
def UInt32.to_le_bytes (x : UInt32) : List UInt8 := Endian.toLe 4 x.toNat
def UInt16.to_le_bytes (x : UInt16) : List UInt8 := Endian.toLe 2 x.toNat
def UInt64.from_le_bytes (bytes : List UInt8) : UInt64 := .ofNat (Endian.ofLe bytes)
def UInt32.from_le_bytes (bytes : List UInt8) : UInt32 := .ofNat (Endian.ofLe bytes)
def UInt16.from_le_bytes (bytes : List UInt8) : UInt16 := .ofNat (Endian.ofLe bytes)
-- Signed numbers are spelled in two's complement.
def Int64.to_le_bytes (x : Int64) : List UInt8 := x.toUInt64.to_le_bytes
def Int64.from_le_bytes (bytes : List UInt8) : Int64 := (UInt64.from_le_bytes bytes).toInt64
def UInt64.to_be_bytes (x : UInt64) : List UInt8 := Endian.toBe 8 x.toNat
def UInt32.to_be_bytes (x : UInt32) : List UInt8 := Endian.toBe 4 x.toNat

def UInt64.checked_add (a b : UInt64) : Option UInt64 :=
  if a.toNat + b.toNat < 2 ^ 64 then some (a + b) else none
def UInt64.saturating_add (a b : UInt64) : UInt64 :=
  if a.toNat + b.toNat < 2 ^ 64 then a + b else .ofNat (2 ^ 64 - 1)
def UInt64.saturating_sub (a b : UInt64) : UInt64 := if b ≤ a then a - b else 0
def UInt32.checked_add (a b : UInt32) : Option UInt32 :=
  if a.toNat + b.toNat < 2 ^ 32 then some (a + b) else none
/-- `u32::try_from` on a length -/
def UInt32.try_from (n : Nat) : Option UInt32 :=
  if n < 2 ^ 32 then some (.ofNat n) else none

namespace VoodooStore

/-- `Vec<u8>` and `&[u8]` -/
abbrev Bytes := List UInt8

/-- `[u8; n]` -/
abbrev ByteArr (n : Nat) := {bytes : Bytes // bytes.length = n}

/-- One byte, over and over. -/
abbrev ByteArr.filled {n : Nat} (byte : UInt8) : ByteArr n := ⟨List.replicate n byte,List.length_replicate⟩

instance lawful_bytes : LawfulBEq Bytes := inferInstance

/-- The hash functions of the crates `crc32fast` and `sha2`. -/
class Hashes where
  crc32 : Bytes → UInt32
  sha256 : Bytes → ByteArr 32

/-- The functions that these crates compute. -/
@[reducible] def crates : Hashes where
  crc32 := Crc32.crc32
  sha256 := fun bytes => ⟨Sha256.digest bytes,Sha256.digest_length bytes⟩

/-- The same functions, with the checksum on numbers, for runs that are evaluated. -/
@[reducible] def quickCrates : Hashes := { crates with crc32 := Crc32.crc32Nat }

theorem crates_eq_quick : crates = quickCrates := congrArg (Hashes.mk · crates.sha256) (funext Crc32.crc32_eq_nat)

/-- An error type with a value that stands for a panic. -/
class Panics (ε : Type) where
  panic : ε

/-- `usize::checked_add`, with a 64-bit `usize` -/
def usize_checked_add (a b : Nat) : Option Nat := if a + b < 2 ^ 64 then some (a + b) else none

/-- `bytes[start..stop]` -/
def slice {ε : Type} [Panics ε] (bytes : Bytes) (start stop : Nat) : Except ε Bytes :=
  if start ≤ stop ∧ stop ≤ bytes.length then .ok ((bytes.drop start).take (stop - start))
  else .error Panics.panic

/-- `bytes[i]` -/
def index {ε : Type} [Panics ε] (bytes : Bytes) (i : Nat) : Except ε UInt8 :=
  match bytes[i]? with
  | some byte => .ok byte
  | none => .error Panics.panic

/-- `bytes[start..start + n].try_into()` to an array -/
def slice_array {ε : Type} [Panics ε] (n : Nat) (bytes : Bytes) (start : Nat) : Except ε (ByteArr n) :=
  if inside : start + n ≤ bytes.length then .ok ⟨(bytes.drop start).take n,by simp; omega⟩
  else .error Panics.panic

/-- `slice::starts_with` -/
def starts_with (bytes front : Bytes) : Bool := front.isPrefixOf bytes

@[simp] theorem starts_with_iff (bytes front : Bytes) : starts_with bytes front = true ↔ front <+: bytes := by
  simp [starts_with]

section
variable {ε : Type} [Panics ε]

theorem slice_ok {bytes : Bytes} {start stop : Nat} (order : start ≤ stop) (inside : stop ≤ bytes.length) :
    (slice bytes start stop : Except ε Bytes) = .ok ((bytes.drop start).take (stop - start)) := by
  simp [slice,order,inside]

/-- A slice that starts where one part begins and stops where it ends is that part. -/
theorem slice_part (before part after : Bytes) {start stop : Nat} (starts : before.length = start)
    (stops : start + part.length = stop) :
    (slice (before ++ (part ++ after)) start stop : Except ε Bytes) = .ok part := by
  subst starts stops
  rw [slice_ok (by omega) (by simp)]
  simp

/-- A slice that succeeds is the part between its bounds. -/
theorem slice_splits {bytes part : Bytes} {start stop : Nat}
    (sliced : (slice bytes start stop : Except ε Bytes) = .ok part) :
    bytes.drop start = part ++ bytes.drop stop ∧ start + part.length = stop := by
  unfold slice at sliced
  split at sliced
  · rename_i range
    cases sliced
    constructor
    · have rejoined := List.take_append_drop (stop - start) (bytes.drop start)
      rw [List.drop_drop,show start + (stop - start) = stop by omega] at rejoined
      exact rejoined.symm
    · simp only [List.length_take,List.length_drop]
      omega
  · cases sliced

theorem index_splits {bytes : Bytes} {i : Nat} {byte : UInt8}
    (found : (index bytes i : Except ε UInt8) = .ok byte) : bytes.drop i = byte :: bytes.drop (i+1) := by
  unfold index at found
  split at found
  · rename_i present
    cases found
    obtain ⟨inside,rfl⟩ := List.getElem?_eq_some_iff.mp present
    exact List.drop_eq_getElem_cons inside
  · cases found

theorem slice_array_part {n : Nat} (before : Bytes) (part : ByteArr n) (after : Bytes) {start : Nat}
    (starts : before.length = start) :
    (slice_array n (before ++ (part.val ++ after)) start : Except ε (ByteArr n)) = .ok part := by
  subst starts
  have size := part.property
  have inside : before.length + n ≤ (before ++ (part.val ++ after)).length := by simp; omega
  rw [slice_array,dif_pos inside]
  congr 1
  apply Subtype.ext
  simp [← size]

theorem index_ok {bytes : Bytes} {i : Nat} (inside : i < bytes.length) :
    (index bytes i : Except ε UInt8) = .ok bytes[i] := by
  simp [index,inside]

end

/-! ## How results are chained -/

@[simp] theorem ok_bind {ε α β : Type} (a : α) (f : α → Except ε β) : (Except.ok a >>= f) = f a := rfl
@[simp] theorem error_bind {ε α β : Type} (e : ε) (f : α → Except ε β) : (Except.error e >>= f) = .error e := rfl
@[simp] theorem throw_is_error {ε α : Type} (e : ε) : (throw e : Except ε α) = .error e := rfl
@[simp] theorem pure_is_ok {ε α : Type} (a : α) : (pure a : Except ε α) = .ok a := rfl

@[simp] theorem mapError_ok {ε φ α : Type} (a : α) (f : ε → φ) : (Except.ok a).mapError f = .ok a := rfl
@[simp] theorem mapError_error {ε φ α : Type} (e : ε) (f : ε → φ) :
    (Except.error e : Except ε α).mapError f = .error (f e) := rfl

theorem mapError_eq_ok {ε φ α : Type} {x : Except ε α} {f : ε → φ} {a : α} : x.mapError f = .ok a ↔ x = .ok a := by
  cases x with
  | ok b => simp
  | error e => simp

/-- A chain succeeds when its first part does and its second does after it. -/
theorem bind_ok_iff {ε α β : Type} {x : Except ε α} {f : α → Except ε β} {b : β} :
    x >>= f = .ok b ↔ ∃ a, x = .ok a ∧ f a = .ok b := by
  cases x <;> simp

/-- A check that refuses lets through what fails its condition. -/
theorem any_ok_iff {ε α : Type} {x : Except ε α} {check : α → Bool} :
    x.toOption.any check = true ↔ ∃ a, x = .ok a ∧ check a = true := by
  cases x with
  | ok b => simp [Except.toOption]
  | error e => simp [Except.toOption]

theorem any_eq_iff {ε α : Type} [DecidableEq α] {x : Except ε α} {a : α} :
    x.toOption.any (fun b => decide (b = a)) = true ↔ x = .ok a := by
  rw [any_ok_iff]
  simp

theorem refuse_ok_iff {ε α : Type} {c : Prop} [Decidable c] {e : ε} {x : Except ε α} {a : α} :
    (if c then .error e else x) = .ok a ↔ ¬ c ∧ x = .ok a := by
  split <;> simp_all

/-! ## Spellings of integers -/

@[simp] theorem u64_to_le_length (x : UInt64) : x.to_le_bytes.length = 8 := by simp [UInt64.to_le_bytes]
@[simp] theorem u32_to_le_length (x : UInt32) : x.to_le_bytes.length = 4 := by simp [UInt32.to_le_bytes]
@[simp] theorem u16_to_le_length (x : UInt16) : x.to_le_bytes.length = 2 := by simp [UInt16.to_le_bytes]
@[simp] theorem i64_to_le_length (x : Int64) : x.to_le_bytes.length = 8 := by simp [Int64.to_le_bytes]
@[simp] theorem u64_to_be_length (x : UInt64) : x.to_be_bytes.length = 8 := by simp [UInt64.to_be_bytes]
@[simp] theorem u32_to_be_length (x : UInt32) : x.to_be_bytes.length = 4 := by simp [UInt32.to_be_bytes]

@[simp] theorem u64_from_to_le (x : UInt64) : UInt64.from_le_bytes x.to_le_bytes = x := by
  have fits : x.toNat < 256 ^ 8 := x.toNat_lt
  simp [UInt64.from_le_bytes,UInt64.to_le_bytes,Endian.ofLe_toLe fits]
@[simp] theorem u32_from_to_le (x : UInt32) : UInt32.from_le_bytes x.to_le_bytes = x := by
  have fits : x.toNat < 256 ^ 4 := x.toNat_lt
  simp [UInt32.from_le_bytes,UInt32.to_le_bytes,Endian.ofLe_toLe fits]
@[simp] theorem u16_from_to_le (x : UInt16) : UInt16.from_le_bytes x.to_le_bytes = x := by
  have fits : x.toNat < 256 ^ 2 := x.toNat_lt
  simp [UInt16.from_le_bytes,UInt16.to_le_bytes,Endian.ofLe_toLe fits]
@[simp] theorem i64_from_to_le (x : Int64) : Int64.from_le_bytes x.to_le_bytes = x := by
  simp [Int64.from_le_bytes,Int64.to_le_bytes]

theorem u64_to_from_le {bytes : Bytes} (size : bytes.length = 8) :
    (UInt64.from_le_bytes bytes).to_le_bytes = bytes := by
  have fits : Endian.ofLe bytes < 2 ^ 64 := by simpa [size] using Endian.ofLe_lt bytes
  rw [UInt64.to_le_bytes,UInt64.from_le_bytes,UInt64.toNat_ofNat',Nat.mod_eq_of_lt fits]
  exact Endian.toLe_ofLe size
theorem u32_to_from_le {bytes : Bytes} (size : bytes.length = 4) :
    (UInt32.from_le_bytes bytes).to_le_bytes = bytes := by
  have fits : Endian.ofLe bytes < 2 ^ 32 := by simpa [size] using Endian.ofLe_lt bytes
  rw [UInt32.to_le_bytes,UInt32.from_le_bytes,UInt32.toNat_ofNat',Nat.mod_eq_of_lt fits]
  exact Endian.toLe_ofLe size

theorem u64_checked_add_some {a b c : UInt64} (added : a.checked_add b = some c) :
    c.toNat = a.toNat + b.toNat := by
  unfold UInt64.checked_add at added
  split at added
  · rename_i fits
    cases added
    rw [UInt64.toNat_add,Nat.mod_eq_of_lt fits]
  · cases added

theorem u32_checked_add_some {a b c : UInt32} (added : a.checked_add b = some c) :
    c.toNat = a.toNat + b.toNat := by
  unfold UInt32.checked_add at added
  split at added
  · rename_i fits
    cases added
    rw [UInt32.toNat_add,Nat.mod_eq_of_lt fits]
  · cases added

theorem u32_try_from_some {n : Nat} (fits : n < 2 ^ 32) : UInt32.try_from n = some (.ofNat n) := by
  rw [UInt32.try_from,if_pos fits]

theorem u32_of_length {n : Nat} (fits : n < 2 ^ 32) : (UInt32.ofNat n).toNat = n := by
  rw [UInt32.toNat_ofNat',Nat.mod_eq_of_lt fits]

end VoodooStore
