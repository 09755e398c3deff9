import VoodooStore.Interleaving
import VoodooStore.Lib.Reading
import VoodooStore.Lib.Tuples

/-!
# Fields of stored records

The domains spell their records as sequences of fields. Each of their modules
has the same cursor, which reports whatever it cannot read as a corrupt record
of its own error type (`Corrupt`), and the same way to write a length and bytes.
-/

def Int32.to_le_bytes (x : Int32) : List UInt8 := x.toUInt32.to_le_bytes
def Int32.from_le_bytes (bytes : List UInt8) : Int32 := (UInt32.from_le_bytes bytes).toInt32
def Int64.to_be_bytes (x : Int64) : List UInt8 := x.toUInt64.to_be_bytes

def UInt64.checked_mul (a b : UInt64) : Option UInt64 :=
  if a.toNat * b.toNat < 2 ^ 64 then some (a * b) else none
def Int64.checked_add (a b : Int64) : Option Int64 :=
  if -2 ^ 63 ≤ a.toInt + b.toInt ∧ a.toInt + b.toInt < 2 ^ 63 then some (a + b) else none
/-- `i64::try_from` on a `u64` -/
def Int64.try_from (x : UInt64) : Option Int64 :=
  if x.toNat < 2 ^ 63 then some (.ofNat x.toNat) else none
/-- `u64::try_from` on a length -/
def UInt64.try_from (n : Nat) : Option UInt64 :=
  if n < 2 ^ 64 then some (.ofNat n) else none
/-- `u16::try_from` on a length -/
def UInt16.try_from (n : Nat) : Option UInt16 :=
  if n < 2 ^ 16 then some (.ofNat n) else none

namespace VoodooStore
open Effects Reading
set_option linter.unusedSimpArgs false

/-- How the cursor of a module reports a record that it cannot read. -/
class Corrupt (ε : Type) where
  corrupt : ε

/-- A cursor over the bytes of a record; a `usize` has 64 bits. -/
abbrev Fields (ε : Type) := EStateM ε Position

abbrev USIZE : Nat := 2 ^ 64

/-- `ok_or` and `map_err` on an absent value -/
def ok_or {ε α : Type} (error : ε) : Option α → Except ε α
  | some a => .ok a
  | none => .error error

theorem ok_or_ok {ε α : Type} {error : ε} {x : Option α} {a : α} : ok_or error x = .ok a ↔ x = some a := by
  cases x with
  | none => simp [ok_or]
  | some b => simp [ok_or]

theorem u32_length_ok {ε : Type} {error : ε} {n : Nat} {len : UInt32} :
    ok_or error (UInt32.try_from n) = .ok len ↔ n < 2 ^ 32 ∧ len = UInt32.ofNat n := by
  rw [ok_or_ok,UInt32.try_from]
  by_cases fits : n < 2 ^ 32
  · rw [if_pos fits,Option.some.injEq,eq_comm]
    simp only [fits,true_and]
  · rw [if_neg fits]
    simp only [fits,false_and,reduceCtorEq]

theorem u64_length_ok {ε : Type} {error : ε} {n : Nat} {len : UInt64} :
    ok_or error (UInt64.try_from n) = .ok len ↔ n < 2 ^ 64 ∧ len = UInt64.ofNat n := by
  rw [ok_or_ok,UInt64.try_from]
  by_cases fits : n < 2 ^ 64
  · rw [if_pos fits,Option.some.injEq,eq_comm]
    simp only [fits,true_and]
  · rw [if_neg fits]
    simp only [fits,false_and,reduceCtorEq]

section
variable {ε : Type} [Corrupt ε]

def Fields.take (len : Nat) : Fields ε Bytes := Reading.take USIZE Corrupt.corrupt len

def Fields.u8 : Fields ε UInt8 := do
  let bytes ← Fields.take 1
  lift (ok_or Corrupt.corrupt bytes.head?)

def Fields.u32 : Fields ε UInt32 := do return UInt32.from_le_bytes (← Fields.take 4)
def Fields.u64 : Fields ε UInt64 := do return UInt64.from_le_bytes (← Fields.take 8)
def Fields.i32 : Fields ε Int32 := do return Int32.from_le_bytes (← Fields.take 4)
def Fields.i64 : Fields ε Int64 := do return Int64.from_le_bytes (← Fields.take 8)

def Fields.array_16 : Fields ε (ByteArr 16) := do
  let bytes ← Fields.take 16
  if size : bytes.length = 16 then return ⟨bytes,size⟩ else throw Corrupt.corrupt

def Fields.bytes : Fields ε Bytes := do Fields.take (← Fields.u32).toNat

/-- A tag, and the value behind it if there is one. -/
def Fields.option {α : Type} (value : Fields ε α) : Fields ε (Option α) := do
  let tag ← Fields.u8
  if tag = 0 then return none
  else if tag = 1 then return some (← value)
  else throw Corrupt.corrupt

def Fields.bool : Fields ε Bool := do
  let tag ← Fields.u8
  if tag = 0 then return false
  else if tag = 1 then return true
  else throw Corrupt.corrupt

end

def write_option : Option Bytes → Bytes
  | some value => [1] ++ value
  | none => [0]

def write_bool (value : Bool) : Bytes := [if value then 1 else 0]

/-- `write_bytes` and `append_len`: the length and then the bytes -/
def write_bytes {ε : Type} (too_large : ε) (value : Bytes) : Except ε Bytes :=
  match UInt32.try_from value.length with
  | none => .error too_large
  | some len => .ok (len.to_le_bytes ++ value)

/-! ## Keys and entries -/

theorem u32_to_be_injective {a b : UInt32} (same : a.to_be_bytes = b.to_be_bytes) : a = b := by
  have bound (x : UInt32) : x.toNat < 256 ^ 4 := x.toNat_lt
  exact UInt32.toNat_inj.mp (Endian.toBe_injective (bound a) (bound b) same)

theorem u64_to_be_injective {a b : UInt64} (same : a.to_be_bytes = b.to_be_bytes) : a = b := by
  have bound (x : UInt64) : x.toNat < 256 ^ 8 := x.toNat_lt
  exact UInt64.toNat_inj.mp (Endian.toBe_injective (bound a) (bound b) same)

/-- A component behind its length, as the modules write it. -/
theorem component_eq {bytes : Bytes} (fits : bytes.length < 2 ^ 32) :
    (UInt32.ofNat bytes.length).to_be_bytes ++ bytes = Tuples.component 4 bytes := by
  rw [UInt32.to_be_bytes,u32_of_length fits,Tuples.component]

theorem mapM_some {α β ε : Type} {f : α → Except ε β} {a : α} {r : Option β} (done : (some a).mapM f = .ok r) :
    ∃ b, f a = .ok b ∧ r = some b := by
  cases result : f a with
  | error e =>
    rw [Option.mapM_some,result] at done
    cases done
  | ok b =>
    rw [Option.mapM_some,result] at done
    cases done
    exact ⟨b,rfl,rfl⟩

theorem mapM_entries {ε α : Type} {decode : Bytes → Except ε α} {entry : α → Bytes × Bytes} {feed : List α}
    (reads : ∀ item ∈ feed, decode (entry item).2 = .ok item) : (feed.map entry).mapM (fun e => decode e.2) = .ok feed := by
  induction feed with
  | nil => rfl
  | cons item feed ih =>
    rw [List.map_cons,List.mapM_cons,reads item (by simp),ok_bind,ih (fun other member => reads other (by simp [member])),ok_bind]
    rfl

/-! ## What lies under a prefix -/

/-- The entries under a prefix spell items at their own keys. -/
def Holding {α : Type} (front : Bytes) (entry : α → Bytes × Bytes) (fits : α → Prop) (state : State) : Prop :=
  ∀ key value, starts_with key front = true → state[key]? = some value → ∃ item, fits item ∧ entry item = (key,value)

theorem Holding.insert {α : Type} {front : Bytes} {entry : α → Bytes × Bytes} {fits : α → Prop} {state : State}
    (holding : Holding front entry fits state) {item : α} (fit : fits item) :
    Holding front entry fits (state.insert (entry item).1 (entry item).2) := by
  intro key value own found
  rw [get_insert] at found
  split at found
  · rename_i here
    cases found
    exact ⟨item,fit,by rw [← here]⟩
  · exact holding key value own found

theorem Holding.erase {α : Type} {front : Bytes} {entry : α → Bytes × Bytes} {fits : α → Prop} {state : State}
    (holding : Holding front entry fits state) (gone : Bytes) : Holding front entry fits (state.erase gone) := by
  intro key value own found
  rw [get_erase] at found
  split at found
  · cases found
  · exact holding key value own found

/-- Only the entries under the prefix matter. -/
theorem Holding.congr {α : Type} {front : Bytes} {entry : α → Bytes × Bytes} {fits : α → Prop} {s t : State}
    (holding : Holding front entry fits s) (same : ∀ key, starts_with key front = true → t[key]? = s[key]?) :
    Holding front entry fits t := by
  intro key value own found
  rw [same key own] at found
  exact holding key value own found

theorem holding_empty {α : Type} (front : Bytes) (entry : α → Bytes × Bytes) (fits : α → Prop) : Holding front entry fits ∅ := by
  intro key value _ found
  simp at found

/-- What the scan of a prefix finds is what it holds. -/
theorem Holding.scan {α : Type} {front : Bytes} {entry : α → Bytes × Bytes} {fits : α → Prop} {state : State}
    (holding : Holding front entry fits state) : ∃ items : List α, scan state front = items.map entry ∧ ∀ item ∈ items, fits item := by
  have general : ∀ entries : List (Bytes × Bytes), (∀ e ∈ entries, ∃ item, fits item ∧ entry item = e) →
      ∃ items : List α, entries = items.map entry ∧ ∀ item ∈ items, fits item := by
    intro entries each
    induction entries with
    | nil => exact ⟨[],rfl,by simp⟩
    | cons e entries ih =>
      obtain ⟨item,fit,same⟩ := each e (by simp)
      obtain ⟨items,rest,fine⟩ := ih (fun e member => each e (by simp [member]))
      refine ⟨item :: items,by rw [rest,List.map_cons,same],?_⟩
      intro other member
      rcases List.mem_cons.mp member with rfl | later
      · exact fit
      · exact fine other later
  refine general _ ?_
  rintro ⟨key,value⟩ member
  obtain ⟨own,found⟩ := mem_scan.mp member
  exact holding key value own found

/-! ## Numbered entries -/

/-- The entries under a prefix are these items at their numbers. -/
structure Lined {α : Type} (front : Bytes) (number : α → UInt64) (spelled : α → Bytes) (items : List α) (state : State) : Prop where
  rises : items.Pairwise (fun a b => number a < number b)
  stored : ∀ key value, starts_with key front = true →
    (state[key]? = some value ↔ ∃ item ∈ items, key = front ++ (number item).to_be_bytes ∧ value = spelled item)

section
variable {α : Type} {front : Bytes} {number : α → UInt64} {spelled : α → Bytes} {items : List α}

theorem lined_empty : Lined front number spelled [] ∅ := by
  refine ⟨.nil,?_⟩
  intro key value _
  simp

/-- Only the entries under the prefix matter. -/
theorem Lined.congr {s t : State} (lined : Lined front number spelled items s)
    (same : ∀ key, starts_with key front = true → t[key]? = s[key]?) : Lined front number spelled items t := by
  refine ⟨lined.rises,?_⟩
  intro key value own
  rw [same key own]
  exact lined.stored key value own

theorem compare_numbered (front : Bytes) {a b : UInt64} : compare (front ++ a.to_be_bytes) (front ++ b.to_be_bytes) = compare a.toNat b.toNat := by
  have size (x : UInt64) : x.toNat < 256 ^ 8 := x.toNat_lt
  have plain := Endian.compare_toBe_append (size a) (size b) [] []
  rw [List.append_nil,List.append_nil] at plain
  rw [compare_front,UInt64.to_be_bytes,UInt64.to_be_bytes,plain]
  simp

/-- A scan lists the items in the order of their numbers. -/
theorem Lined.scan {state : State} (lined : Lined front number spelled items state) :
    scan state front = items.map (fun item => (front ++ (number item).to_be_bytes,spelled item)) := by
  refine sorted_entries_eq (Std.ExtTreeMap.ordered_keys_toList.filter _) ?_ ?_
  · rw [List.pairwise_map]
    refine lined.rises.imp ?_
    intro a b less
    rw [compare_numbered,Nat.compare_eq_lt]
    exact UInt64.lt_iff_toNat_lt.mp less
  · rintro ⟨key,value⟩
    show (key,value) ∈ VoodooStore.scan state front ↔ _
    rw [mem_scan,List.mem_map]
    constructor
    · rintro ⟨own,found⟩
      obtain ⟨item,member,rfl,rfl⟩ := (lined.stored key value own).mp found
      exact ⟨item,member,rfl⟩
    · rintro ⟨item,member,same⟩
      cases same
      have own : starts_with (front ++ (number item).to_be_bytes) front = true := (starts_with_iff _ _).mpr (List.prefix_append _ _)
      exact ⟨own,(lined.stored _ _ own).mpr ⟨item,member,rfl,rfl⟩⟩

/-- An item with a number behind all the others is written. -/
theorem Lined.snoc {state : State} (lined : Lined front number spelled items state) {item : α}
    (last : ∀ other ∈ items, number other < number item) :
    Lined front number spelled (items ++ [item]) (state.insert (front ++ (number item).to_be_bytes) (spelled item)) := by
  refine ⟨?_,?_⟩
  · rw [List.pairwise_append]
    refine ⟨lined.rises,List.pairwise_singleton _ _,?_⟩
    intro other member new is
    rw [List.mem_singleton.mp is]
    exact last other member
  · intro key value own
    rw [get_insert]
    by_cases here : front ++ (number item).to_be_bytes = key
    · rw [if_pos here]
      constructor
      · intro same
        cases same
        exact ⟨item,by simp,here.symm,rfl⟩
      · rintro ⟨other,member,keyed,rfl⟩
        have same : number other = number item := u64_to_be_injective (List.append_cancel_left (keyed.symm.trans here.symm))
        rcases List.mem_append.mp member with early | new
        · have less := last other early
          rw [same] at less
          exact absurd less (UInt64.lt_irrefl _)
        · rw [List.mem_singleton.mp new]
    · rw [if_neg here,lined.stored key value own]
      constructor
      · rintro ⟨other,member,keyed,spelledSo⟩
        exact ⟨other,by simp [member],keyed,spelledSo⟩
      · rintro ⟨other,member,keyed,spelledSo⟩
        rcases List.mem_append.mp member with early | new
        · exact ⟨other,early,keyed,spelledSo⟩
        · rw [List.mem_singleton.mp new] at keyed
          exact absurd keyed.symm here

end

/-! ## What was written is read -/

theorem write_bytes_fits {ε : Type} {too_large : ε} {value : Bytes} (fits : value.length < 2 ^ 32) :
    write_bytes too_large value = .ok ((UInt32.ofNat value.length).to_le_bytes ++ value) := by
  unfold write_bytes UInt32.try_from
  rw [if_pos fits]

theorem write_bytes_ok {ε : Type} {too_large : ε} {value written : Bytes} (done : write_bytes too_large value = .ok written) :
    value.length < 2 ^ 32 ∧ written = (UInt32.ofNat value.length).to_le_bytes ++ value := by
  unfold write_bytes UInt32.try_from at done
  by_cases fits : value.length < 2 ^ 32
  · rw [if_pos fits] at done
    cases done
    exact ⟨fits,rfl⟩
  · rw [if_neg fits] at done
    cases done

@[simp] theorem i32_to_le_length (x : Int32) : x.to_le_bytes.length = 4 := by simp [Int32.to_le_bytes]

@[simp] theorem i32_from_to_le (x : Int32) : Int32.from_le_bytes x.to_le_bytes = x := by
  simp [Int32.from_le_bytes,Int32.to_le_bytes]

section
variable {ε : Type} [Corrupt ε]

theorem parses_u8 (byte : UInt8) : Parses USIZE (Fields.u8 : Fields ε UInt8) [byte] byte :=
  (parses_take _ [byte]).ends (parses_lift rfl)

/-- A field of a fixed size, and how it is read. -/
theorem parses_fixed {α : Type} {bytes : Bytes} {len : Nat} {a : α} (size : bytes.length = len) (from_bytes : Bytes → α)
    (read : from_bytes bytes = a) : Parses USIZE (do return from_bytes (← Fields.take len) : Fields ε α) bytes a := by
  subst size read
  exact (parses_take _ bytes).ends (parses_pure _)

theorem parses_u32 (x : UInt32) : Parses USIZE (Fields.u32 : Fields ε UInt32) x.to_le_bytes x :=
  parses_fixed (u32_to_le_length x) _ (u32_from_to_le x)

theorem parses_u64 (x : UInt64) : Parses USIZE (Fields.u64 : Fields ε UInt64) x.to_le_bytes x :=
  parses_fixed (u64_to_le_length x) _ (u64_from_to_le x)

theorem parses_i32 (x : Int32) : Parses USIZE (Fields.i32 : Fields ε Int32) x.to_le_bytes x :=
  parses_fixed (i32_to_le_length x) _ (i32_from_to_le x)

theorem parses_i64 (x : Int64) : Parses USIZE (Fields.i64 : Fields ε Int64) x.to_le_bytes x :=
  parses_fixed (i64_to_le_length x) _ (i64_from_to_le x)

theorem parses_array_16 (id : ByteArr 16) : Parses USIZE (Fields.array_16 : Fields ε (ByteArr 16)) id.val id := by
  obtain ⟨bytes,size⟩ := id
  have taken : Parses USIZE (Fields.take bytes.length : Fields ε Bytes) bytes bytes := parses_take _ bytes
  rw [size] at taken
  refine taken.ends ?_
  rw [dif_pos size]
  exact parses_pure _

theorem parses_bytes {value : Bytes} (fits : value.length < 2 ^ 32) :
    Parses USIZE (Fields.bytes : Fields ε Bytes) ((UInt32.ofNat value.length).to_le_bytes ++ value) value := by
  refine (parses_u32 _).bind ?_
  rw [u32_of_length fits]
  exact parses_take _ value

theorem parses_option {α : Type} {value : Fields ε α} {written : α → Bytes} (x : Option α)
    (parses : ∀ a, x = some a → Parses USIZE value (written a) a) :
    Parses USIZE (Fields.option value) (write_option (x.map written)) x := by
  cases x with
  | none => exact (parses_u8 0).ends (parses_pure _)
  | some a => exact (parses_u8 1).bind ((parses a rfl).ends (parses_pure _))

theorem parses_bool (x : Bool) : Parses USIZE (Fields.bool : Fields ε Bool) (write_bool x) x := by
  cases x with
  | false => exact (parses_u8 0).ends (parses_pure _)
  | true => exact (parses_u8 1).ends (parses_pure _)

end

end VoodooStore
