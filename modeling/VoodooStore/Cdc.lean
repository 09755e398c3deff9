import VoodooStore.Transaction

/-!
# The change feed: its records and how a commit stages them

A commit writes, next to the operations of its transaction, one change record
for each of them. Change records live in a key space of their own, under the
transaction's number and the operation's position, both big-endian, so that a
scan of that space lists them in order. They do not describe themselves.
-/
namespace VoodooStore
open Effects
set_option linter.unusedSimpArgs false

def CDC_PREFIX : Bytes := [0xff,118,100,115,58,99,100,99,58,99,104,97,110,103,101,58]
def VERSION : UInt8 := 1

inductive ChangeFeedError
  | Store (error : EngineError)
  | CorruptRecord
  | FieldTooLarge
  deriving DecidableEq

inductive ChangeKind
  | Put
  | Delete
  deriving DecidableEq, Repr

def ChangeKind.as_u8 : ChangeKind → UInt8
  | .Put => 0
  | .Delete => 1

def ChangeKind.try_from (value : UInt8) : Except ChangeFeedError ChangeKind :=
  if value = 0 then .ok .Put else if value = 1 then .ok .Delete else .error .CorruptRecord

structure ChangeRecord where
  tx_id : UInt64
  sequence : UInt32
  kind : ChangeKind
  key : Bytes
  value_len : Option UInt64
  value_sha256 : Option (ByteArr 32)
  deriving DecidableEq

def map_cdc_error : ChangeFeedError → EngineError
  | .Store error => error
  | .CorruptRecord => .InvalidOperationPayload
  | .FieldTooLarge => .InvalidOperationPayload

def change_tx_prefix (tx_id : UInt64) : Bytes := CDC_PREFIX ++ tx_id.to_be_bytes

def change_key (tx_id : UInt64) (sequence : UInt32) : Bytes := change_tx_prefix tx_id ++ sequence.to_be_bytes

def encode_change (change : ChangeRecord) : Except ChangeFeedError Bytes :=
  match UInt32.try_from change.key.length with
  | none => .error .FieldTooLarge
  | some key_len =>
    let out := [VERSION] ++ (change.tx_id.to_le_bytes ++ (change.sequence.to_le_bytes ++ ([change.kind.as_u8] ++
      (key_len.to_le_bytes ++ change.key))))
    match change.value_len, change.value_sha256 with
    | some len, some hash => .ok (out ++ ([1] ++ (len.to_le_bytes ++ hash.val)))
    | none, none => .ok (out ++ [0])
    | _, _ => .error .CorruptRecord

/-! ## The cursor -/

structure Cursor where
  bytes : Bytes
  pos : Nat

abbrev Reader := EStateM ChangeFeedError Cursor

def Cursor.take (len : Nat) : Reader Bytes := do
  let self ← get
  match usize_checked_add self.pos len with
  | none => throw .CorruptRecord
  | some stop =>
    if stop ≤ self.bytes.length then
      set { self with pos := stop }
      return (self.bytes.drop self.pos).take len
    else throw .CorruptRecord

def Cursor.u8 : Reader UInt8 := do
  match (← Cursor.take 1).head? with
  | some byte => return byte
  | none => throw .CorruptRecord

def Cursor.u32 : Reader UInt32 := do return UInt32.from_le_bytes (← Cursor.take 4)
def Cursor.u64 : Reader UInt64 := do return UInt64.from_le_bytes (← Cursor.take 8)
def Cursor.bytes_field : Reader Bytes := do Cursor.take (← Cursor.u32).toNat

def Cursor.array_32 : Reader (ByteArr 32) := do
  let bytes ← Cursor.take 32
  if size : bytes.length = 32 then return ⟨bytes,size⟩ else throw .CorruptRecord

def Cursor.finished (self : Cursor) : Bool := self.pos = self.bytes.length

/-- What `decode_change` reads before it looks at the end. -/
def read_change : Reader ChangeRecord := do
  let version ← Cursor.u8
  if version ≠ VERSION then throw .CorruptRecord else do
  let tx_id ← Cursor.u64
  let sequence ← Cursor.u32
  let kind ← lift (ChangeKind.try_from (← Cursor.u8))
  let key ← Cursor.bytes_field
  let tag ← Cursor.u8
  if tag = 0 ∧ kind = .Delete then
    return { tx_id, sequence, kind, key, value_len := none, value_sha256 := none }
  else if tag = 1 ∧ kind = .Put then
    let value_len ← Cursor.u64
    let value_sha256 ← Cursor.array_32
    return { tx_id, sequence, kind, key, value_len := some value_len, value_sha256 := some value_sha256 }
  else throw .CorruptRecord

def decode_change (encoded : Bytes) : Except ChangeFeedError ChangeRecord :=
  match read_change ⟨encoded,0⟩ with
  | .error error _ => .error error
  | .ok change cursor => if cursor.finished then .ok change else .error .CorruptRecord

/-! ## What was encoded is decoded -/

/-- A cursor between what was read and what is left. -/
def Cursor.at (read left : Bytes) : Cursor := ⟨read ++ left,read.length⟩

theorem take_at (read part left : Bytes) (small : read.length + part.length < 2 ^ 64) :
    Cursor.take part.length (.at read (part ++ left)) = .ok part (.at (read ++ part) left) := by
  have room : usize_checked_add read.length part.length = some (read.length + part.length) := if_pos small
  have inside : read.length + part.length ≤ (read ++ (part ++ left)).length := by simp
  unfold Cursor.at
  rw [Cursor.take,get_bind]
  dsimp only
  rw [room]
  dsimp only
  rw [if_pos inside,set_bind,pure_run,List.drop_left,List.take_left,List.length_append,List.append_assoc]

theorem u8_at {read left : Bytes} (byte : UInt8) (small : read.length + 1 < 2 ^ 64) :
    Cursor.u8 (.at read (byte :: left)) = .ok byte (.at (read ++ [byte]) left) := by
  have taken : Cursor.take 1 (.at read (byte :: left)) = .ok [byte] (.at (read ++ [byte]) left) :=
    take_at read [byte] left small
  rw [Cursor.u8,bind_of_ok taken]
  rfl

theorem u32_at {read left : Bytes} (x : UInt32) (small : read.length + 4 < 2 ^ 64) :
    Cursor.u32 (.at read (x.to_le_bytes ++ left)) = .ok x (.at (read ++ x.to_le_bytes) left) := by
  have taken := take_at read x.to_le_bytes left (by simpa using small)
  rw [u32_to_le_length] at taken
  rw [Cursor.u32,bind_of_ok taken]
  simp

theorem u64_at {read left : Bytes} (x : UInt64) (small : read.length + 8 < 2 ^ 64) :
    Cursor.u64 (.at read (x.to_le_bytes ++ left)) = .ok x (.at (read ++ x.to_le_bytes) left) := by
  have taken := take_at read x.to_le_bytes left (by simpa using small)
  rw [u64_to_le_length] at taken
  rw [Cursor.u64,bind_of_ok taken]
  simp

theorem bytes_at {read left : Bytes} (x : UInt32) (key : Bytes) (size : key.length = x.toNat)
    (small : read.length + (4 + key.length) < 2 ^ 64) :
    Cursor.bytes_field (.at read (x.to_le_bytes ++ (key ++ left))) = .ok key (.at (read ++ (x.to_le_bytes ++ key)) left) := by
  have taken := take_at (read ++ x.to_le_bytes) key left (by simp; omega)
  rw [Cursor.bytes_field,bind_of_ok (u32_at x (by omega)),← size,taken,List.append_assoc]

theorem array_at {read left : Bytes} (hash : ByteArr 32) (small : read.length + 32 < 2 ^ 64) :
    Cursor.array_32 (.at read (hash.val ++ left)) = .ok hash (.at (read ++ hash.val) left) := by
  have size := hash.property
  have taken := take_at read hash.val left (by omega)
  rw [size] at taken
  rw [Cursor.array_32,bind_of_ok taken,dif_pos size]
  rfl

/-- A change record that says of its value what its kind asks for. -/
def ChangeRecord.Described (change : ChangeRecord) : Prop :=
  match change.kind with
  | .Put => change.value_len ≠ none ∧ change.value_sha256 ≠ none
  | .Delete => change.value_len = none ∧ change.value_sha256 = none

/-- The part of a change record before its value. -/
def ChangeRecord.front (change : ChangeRecord) : Bytes :=
  [VERSION] ++ (change.tx_id.to_le_bytes ++ (change.sequence.to_le_bytes ++ ([change.kind.as_u8] ++
    ((UInt32.ofNat change.key.length).to_le_bytes ++ change.key))))

theorem front_length (change : ChangeRecord) : change.front.length = 18 + change.key.length := by
  simp [ChangeRecord.front]; omega

theorem change_kind_round_trip (kind : ChangeKind) : ChangeKind.try_from kind.as_u8 = .ok kind := by
  cases kind <;> rfl

/-- The reader goes through the front of a record and then looks at the tag. -/
theorem read_front {change : ChangeRecord} (fits : change.key.length < 2 ^ 32) (tag : UInt8) (left : Bytes) :
    read_change (.at [] (change.front ++ tag :: left)) =
      (if tag = 0 ∧ change.kind = .Delete then
        pure ⟨change.tx_id,change.sequence,change.kind,change.key,none,none⟩
      else if tag = 1 ∧ change.kind = .Put then do
        let value_len ← Cursor.u64
        let value_sha256 ← Cursor.array_32
        pure ⟨change.tx_id,change.sequence,change.kind,change.key,some value_len,some value_sha256⟩
      else throw .CorruptRecord : Reader ChangeRecord) (.at (change.front ++ [tag]) left) := by
  have keyLen : change.key.length = (UInt32.ofNat change.key.length).toNat := (u32_of_length fits).symm
  have spelled : change.front ++ tag :: left = VERSION :: (change.tx_id.to_le_bytes ++ (change.sequence.to_le_bytes ++
      (change.kind.as_u8 :: ((UInt32.ofNat change.key.length).to_le_bytes ++ (change.key ++ (tag :: left)))))) := by
    simp [ChangeRecord.front]
  rw [spelled,read_change,bind_of_ok (u8_at VERSION (by simp)),if_neg (by simp),
    bind_of_ok (u64_at change.tx_id (by simp)),bind_of_ok (u32_at change.sequence (by simp)),
    bind_of_ok (u8_at change.kind.as_u8 (by simp)),change_kind_round_trip,bind_of_ok (lift_ok _ _),
    bind_of_ok (bytes_at _ change.key keyLen (by simp; omega)),bind_of_ok (u8_at tag (by simp; omega))]
  congr 2

theorem encode_change_put {change : ChangeRecord} {len : UInt64} {hash : ByteArr 32} (fits : change.key.length < 2 ^ 32)
    (hasLen : change.value_len = some len) (hasHash : change.value_sha256 = some hash) :
    encode_change change = .ok (change.front ++ (1 :: (len.to_le_bytes ++ hash.val))) := by
  simp [encode_change,u32_try_from_some fits,hasLen,hasHash,ChangeRecord.front]

theorem encode_change_delete {change : ChangeRecord} (fits : change.key.length < 2 ^ 32)
    (noLen : change.value_len = none) (noHash : change.value_sha256 = none) :
    encode_change change = .ok (change.front ++ [0]) := by
  simp [encode_change,u32_try_from_some fits,noLen,noHash,ChangeRecord.front]

/-- What a commit writes about a change, a reader of the feed gets back. -/
theorem decode_change_encode {change : ChangeRecord} {bytes : Bytes} (described : change.Described)
    (encoded : encode_change change = .ok bytes) : decode_change bytes = .ok change := by
  by_cases fits : change.key.length < 2 ^ 32
  · obtain ⟨tx_id,sequence,kind,key,value_len,value_sha256⟩ := change
    cases kind with
    | Put =>
      obtain ⟨hasLen,hasHash⟩ := described
      obtain ⟨len,rfl⟩ := Option.ne_none_iff_exists'.mp hasLen
      obtain ⟨hash,rfl⟩ := Option.ne_none_iff_exists'.mp hasHash
      rw [encode_change_put fits rfl rfl] at encoded
      have spelled := Except.ok.inj encoded
      have size := front_length ⟨tx_id,sequence,.Put,key,some len,some hash⟩
      have hashSize := hash.property
      have read := read_front (show (ChangeRecord.mk tx_id sequence .Put key (some len) (some hash)).key.length < 2 ^ 32
        from fits) 1 (len.to_le_bytes ++ (hash.val ++ []))
      dsimp only at size fits
      rw [if_neg (by simp),if_pos (by simp),bind_of_ok (u64_at len (by simp; omega)),
        bind_of_ok (array_at hash (by simp; omega)),List.append_nil] at read
      have started : Cursor.at [] bytes = ⟨bytes,0⟩ := rfl
      rw [decode_change,← started,← spelled,read]
      simp [Cursor.finished,Cursor.at]
    | Delete =>
      obtain ⟨noLen,noHash⟩ := described
      dsimp only at noLen noHash
      subst noLen noHash
      rw [encode_change_delete fits rfl rfl] at encoded
      have read := read_front (show (ChangeRecord.mk tx_id sequence .Delete key none none).key.length < 2 ^ 32
        from fits) 0 []
      rw [if_pos (by simp)] at read
      have spelled := Except.ok.inj encoded
      have started : Cursor.at [] bytes = ⟨bytes,0⟩ := rfl
      rw [decode_change,← started,← spelled,read]
      simp [Cursor.finished,Cursor.at]
  · have refused : UInt32.try_from change.key.length = none := if_neg fits
    simp [encode_change,refused] at encoded

/-! ## Staging the changes of a transaction -/

def Operation.key : Operation → Bytes
  | .Put key _ => key
  | .Delete key => key

/-- What `encode_change` returns, for a change that it accepts. -/
def ChangeRecord.spelling (change : ChangeRecord) : Bytes := ((encode_change change).toOption).getD []

/-- The operation that stores a change. -/
def ChangeRecord.store (change : ChangeRecord) : Operation :=
  .Put (change_key change.tx_id change.sequence) change.spelling

theorem spelling_eq {change : ChangeRecord} {encoded : Bytes} (spelled : encode_change change = .ok encoded) :
    change.spelling = encoded := by
  simp [ChangeRecord.spelling,spelled,Except.toOption]

section
variable [Hashes]

/-- The change record of an operation; the feed's own key space has none. -/
def change_for (tx_id : UInt64) (sequence : UInt32) : Operation → Option ChangeRecord
  | .Put key value =>
    if starts_with key CDC_PREFIX then none
    else some {
      tx_id := tx_id
      sequence := sequence
      kind := .Put
      key := key
      value_len := some (.ofNat value.length)
      value_sha256 := some (Hashes.sha256 value) }
  | .Delete key =>
    if starts_with key CDC_PREFIX then none
    else some {
      tx_id := tx_id
      sequence := sequence
      kind := .Delete
      key := key
      value_len := none
      value_sha256 := none }

def stage_changes_from (io : Io) (sequence : UInt32) : List Operation → EStateM EngineError Transaction Unit
  | [] => pure ()
  | operation :: operations => do
    let tx_id := (← get).tx_id
    match change_for tx_id sequence operation with
    | none => stage_changes_from io sequence operations
    | some change =>
      let encoded ← lift ((encode_change change).mapError map_cdc_error)
      put_internal io (change_key tx_id sequence) encoded
      match sequence.checked_add 1 with
      | none => throw .CounterExhausted
      | some sequence => stage_changes_from io sequence operations

def stage_changes (io : Io) (operations : List Operation) : EStateM EngineError Transaction Unit :=
  stage_changes_from io 0 operations

/-- The changes of a transaction, numbered from `n`: one for each operation
    outside the feed's own key space. -/
def changesFrom (tx_id : UInt64) (n : Nat) (operations : List Operation) : List ChangeRecord :=
  match operations with
  | [] => []
  | operation :: operations =>
    match change_for tx_id (.ofNat n) operation with
    | none => changesFrom tx_id n operations
    | some change => change :: changesFrom tx_id (n+1) operations

theorem change_for_some {tx_id : UInt64} {sequence : UInt32} {operation : Operation} {change : ChangeRecord}
    (found : change_for tx_id sequence operation = some change) :
    change.tx_id = tx_id ∧ change.sequence = sequence ∧ change.key = operation.key ∧ change.Described := by
  cases operation with
  | Put key value =>
    rw [change_for] at found
    split at found
    · cases found
    · cases found; exact ⟨rfl,rfl,rfl,by simp [ChangeRecord.Described]⟩
  | Delete key =>
    rw [change_for] at found
    split at found
    · cases found
    · cases found; exact ⟨rfl,rfl,rfl,by simp [ChangeRecord.Described]⟩

/-- Staging that succeeds stages the stored form of every change. -/
theorem stage_changes_ok {io : Io} {operations : List Operation} {sequence : UInt32} {tx u : Transaction} {x : Unit}
    (done : stage_changes_from io sequence operations tx = .ok x u) :
    ∃ rs, Staged tx u rs [] ∧
      rs.filterMap LogRecord.operation = (changesFrom tx.tx_id sequence.toNat operations).map ChangeRecord.store ∧
      sequence.toNat + (changesFrom tx.tx_id sequence.toNat operations).length < 2 ^ 32 ∧
      ∀ change ∈ changesFrom tx.tx_id sequence.toNat operations, ∃ encoded, encode_change change = .ok encoded := by
  induction operations generalizing sequence tx with
  | nil =>
    cases done
    exact ⟨[],.refl u,rfl,sequence.toNat_lt,by simp [changesFrom]⟩
  | cons operation operations ih =>
    rw [stage_changes_from,get_bind] at done
    have here : UInt32.ofNat sequence.toNat = sequence := UInt32.ofNat_toNat
    cases found : change_for tx.tx_id sequence operation with
    | none =>
      rw [found] at done
      rw [changesFrom,here,found]
      exact ih done
    | some change =>
      rw [found] at done
      dsimp only at done
      obtain ⟨sameTx,sameSequence,-,-⟩ := change_for_some found
      rw [lift_bind_ok] at done
      obtain ⟨encoded,spelled,done⟩ := done
      have spells : encode_change change = .ok encoded := by
        cases result : encode_change change with
        | ok bytes => rw [result] at spelled; cases spelled; rfl
        | error error => rw [result] at spelled; cases spelled
      obtain ⟨_,middle,staged,done⟩ := bind_ok.mp done
      obtain ⟨r,first,stores⟩ := stage_ok (put_spells _ _) staged
      cases added : sequence.checked_add 1 with
      | none => rw [added] at done; cases done
      | some next =>
        rw [added] at done
        obtain ⟨rs,rest,stored,bound,encodes⟩ := ih done
        have counted : next.toNat = sequence.toNat + 1 := u32_checked_add_some added
        rw [first.tx_id,counted] at stored bound encodes
        have unfolded : changesFrom tx.tx_id sequence.toNat (operation :: operations) =
            change :: changesFrom tx.tx_id (sequence.toNat + 1) operations := by
          rw [changesFrom,here,found]
        refine ⟨r :: rs,first.trans rest,?_,?_,?_⟩
        · rw [unfolded,List.filterMap_cons,stores,stored]
          simp [ChangeRecord.store,sameTx,sameSequence,spelling_eq spells]
        · rw [unfolded,List.length_cons]
          omega
        · intro other member
          rw [unfolded] at member
          rcases List.mem_cons.mp member with rfl | later
          · exact ⟨encoded,spells⟩
          · exact encodes other later

/-- Staging that fails has staged some of the changes. -/
theorem stage_changes_error {io : Io} {operations : List Operation} {sequence : UInt32} {tx u : Transaction}
    {e : EngineError} (failed : stage_changes_from io sequence operations tx = .error e u) :
    ∃ rs piece, Staged tx u rs piece ∧ Piece io piece := by
  induction operations generalizing sequence tx with
  | nil => cases failed
  | cons operation operations ih =>
    rw [stage_changes_from,get_bind] at failed
    cases found : change_for tx.tx_id sequence operation with
    | none =>
      rw [found] at failed
      exact ih failed
    | some change =>
      rw [found] at failed
      dsimp only at failed
      rcases lift_bind_error.mp failed with ⟨-,rfl⟩ | ⟨encoded,-,failed⟩
      · exact ⟨[],[],.refl u,.none io⟩
      rcases bind_error.mp failed with early | ⟨_,middle,staged,failed⟩
      · obtain ⟨piece,grown,torn⟩ := stage_error early
        exact ⟨[],piece,grown,torn⟩
      obtain ⟨r,first,-⟩ := stage_ok (put_spells _ _) staged
      cases added : sequence.checked_add 1 with
      | none =>
        rw [added] at failed
        cases failed
        exact ⟨[r],[],first,.none io⟩
      | some next =>
        rw [added] at failed
        obtain ⟨rs,piece,rest,torn⟩ := ih failed
        exact ⟨r :: rs,piece,first.trans rest,torn⟩

end

end VoodooStore
