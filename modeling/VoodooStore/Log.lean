import VoodooStore.Bytes
import VoodooStore.Lib.Frames

/-!
# The record format of the log

A record is framed by its magic bytes, a fixed header with the length of the
payload, and a checksum over everything before it. `frame` spells a record out;
`encode` is that spelling when the payload's length fits its field
(`encode_eq`), `decode` reads back exactly the spellings (`decode_ok_iff`), and
the length scanner finds their ends (`record_len_frame`).
-/
namespace VoodooStore
set_option linter.unusedSimpArgs false

inductive StoreError
  | InvalidMagic
  | TruncatedRecord
  | UnknownRecordKind (value : UInt8)
  | PayloadTooLarge
  | ChecksumMismatch (expected actual : UInt32)
  | Panic
  deriving DecidableEq, Repr

instance : Panics StoreError := ⟨.Panic⟩

def MAGIC : Bytes := [86,68,83,49]
def HEADER_LEN : Nat := 4 + 1 + 8 + 8 + 4

inductive RecordKind
  | Put
  | Delete
  | Commit
  deriving DecidableEq, Repr

/-- The discriminant of a kind, `kind as u8`. -/
def RecordKind.as_u8 : RecordKind → UInt8
  | .Put => 1
  | .Delete => 2
  | .Commit => 3

def RecordKind.try_from (value : UInt8) : Except StoreError RecordKind :=
  if value = 1 then .ok .Put
  else if value = 2 then .ok .Delete
  else if value = 3 then .ok .Commit
  else .error (.UnknownRecordKind value)

structure LogRecord where
  kind : RecordKind
  tx_id : UInt64
  sequence : UInt64
  payload : Bytes
  deriving DecidableEq, Repr

section
variable [Hashes]

def checksum (bytes : Bytes) : UInt32 := Hashes.crc32 bytes

def LogRecord.encode (self : LogRecord) : Except StoreError Bytes :=
  match UInt32.try_from self.payload.length with
  | none => .error .PayloadTooLarge
  | some payload_len =>
    let out := MAGIC ++ [self.kind.as_u8] ++ self.tx_id.to_le_bytes ++ self.sequence.to_le_bytes ++
      payload_len.to_le_bytes ++ self.payload
    .ok (out ++ (checksum out).to_le_bytes)

def LogRecord.decode (bytes : Bytes) : Except StoreError LogRecord :=
  if bytes.length < HEADER_LEN + 4 then .error .TruncatedRecord else do
  let magic ← slice bytes 0 4
  if magic ≠ MAGIC then .error .InvalidMagic else do
  let kind ← RecordKind.try_from (← index bytes 4)
  let tx_id := UInt64.from_le_bytes (← slice bytes 5 13)
  let sequence := UInt64.from_le_bytes (← slice bytes 13 21)
  let payload_len := (UInt32.from_le_bytes (← slice bytes 21 25)).toNat
  match (usize_checked_add HEADER_LEN payload_len).bind (usize_checked_add · 4) with
  | none => .error .PayloadTooLarge
  | some expected_len =>
    if bytes.length ≠ expected_len then .error .TruncatedRecord else do
    let checksum_offset := HEADER_LEN + payload_len
    let expected := UInt32.from_le_bytes (← slice bytes checksum_offset (checksum_offset + 4))
    let actual := checksum (← slice bytes 0 checksum_offset)
    if expected ≠ actual then .error (.ChecksumMismatch expected actual) else do
    return { kind, tx_id, sequence, payload := ← slice bytes HEADER_LEN checksum_offset }

end

def encoded_record_len_from_prefix (bytes : Bytes) : Except StoreError Nat :=
  if bytes.length < HEADER_LEN then .error .TruncatedRecord else do
  let magic ← slice bytes 0 4
  if magic ≠ MAGIC then .error .InvalidMagic else do
  let payload_len := (UInt32.from_le_bytes (← slice bytes 21 25)).toNat
  match (usize_checked_add HEADER_LEN payload_len).bind (usize_checked_add · 4) with
  | none => .error .PayloadTooLarge
  | some len => .ok len

/-- The payload's length fits its field. -/
def LogRecord.Fits (r : LogRecord) : Prop := r.payload.length < 2 ^ 32

instance (r : LogRecord) : Decidable r.Fits := inferInstanceAs (Decidable (_ < _))

/-- What the checksum of a record covers. -/
def LogRecord.body (r : LogRecord) : Bytes :=
  MAGIC ++ ([r.kind.as_u8] ++ (r.tx_id.to_le_bytes ++ (r.sequence.to_le_bytes ++
    ((UInt32.ofNat r.payload.length).to_le_bytes ++ r.payload))))

/-- The bytes of a record. -/
def LogRecord.frame [Hashes] (r : LogRecord) : Bytes := r.body ++ (checksum r.body).to_le_bytes

@[simp] theorem magic_length : MAGIC.length = 4 := rfl

@[simp] theorem body_length (r : LogRecord) : r.body.length = 25 + r.payload.length := by
  simp [LogRecord.body]; omega

@[simp] theorem frame_length [Hashes] (r : LogRecord) : r.frame.length = 29 + r.payload.length := by
  simp [LogRecord.frame]; omega

theorem kind_round_trip (kind : RecordKind) : RecordKind.try_from kind.as_u8 = .ok kind := by
  cases kind <;> rfl

theorem kind_canonical {value : UInt8} {kind : RecordKind} (known : RecordKind.try_from value = .ok kind) :
    kind.as_u8 = value := by
  unfold RecordKind.try_from at known
  split_ifs at known <;> cases known <;> simp_all [RecordKind.as_u8]

theorem encode_fits [Hashes] {r : LogRecord} (fits : r.Fits) : r.encode = .ok r.frame := by
  simp [LogRecord.encode,u32_try_from_some fits,LogRecord.frame,LogRecord.body]

theorem encode_too_large [Hashes] {r : LogRecord} (large : ¬ r.Fits) : r.encode = .error .PayloadTooLarge := by
  have refused : UInt32.try_from r.payload.length = none := if_neg large
  simp [LogRecord.encode,refused]

/-- A length field never overflows the address space. -/
theorem expected_len (n : UInt32) :
    (usize_checked_add HEADER_LEN n.toNat).bind (usize_checked_add · 4) = some (29 + n.toNat) := by
  have small := n.toNat_lt
  have header : HEADER_LEN + n.toNat < 2 ^ 64 := by simp [HEADER_LEN]; omega
  have whole : HEADER_LEN + n.toNat + 4 < 2 ^ 64 := by simp [HEADER_LEN]; omega
  rw [usize_checked_add,if_pos header,Option.bind_some,usize_checked_add,if_pos whole,HEADER_LEN]
  congr 1
  omega

/-- What the length scanner does once there is a header. -/
theorem record_len_long {bytes : Bytes} (long : HEADER_LEN ≤ bytes.length) :
     encoded_record_len_from_prefix bytes =
      if bytes.take 4 ≠ MAGIC then .error .InvalidMagic
      else .ok (29 + (UInt32.from_le_bytes ((bytes.drop 21).take 4)).toNat) := by
  have header : 25 ≤ bytes.length := long
  rw [VoodooStore.encoded_record_len_from_prefix,if_neg (by omega),slice_ok (by omega) (by omega),slice_ok (by omega) (by omega)]
  simp only [ok_bind,List.drop_zero,Nat.sub_zero,Nat.reduceSub,expected_len]

/-- The length scanner looks at the header alone. -/
theorem record_len_cut {piece bytes : Bytes} (cut : piece <+: bytes) (header : HEADER_LEN ≤ piece.length) :
     encoded_record_len_from_prefix piece = encoded_record_len_from_prefix bytes := by
  have inside : 25 ≤ piece.length := header
  obtain ⟨follows,rfl⟩ := cut
  rw [record_len_long header,record_len_long (by simp; omega),List.take_append_of_le_length (by omega),
    List.drop_append_of_le_length (by omega),List.take_append_of_le_length (by simp; omega)]

/-- The length scanner never claims less than an empty record. -/
theorem record_len_ge {bytes : Bytes} {n : Nat} (found : encoded_record_len_from_prefix bytes = .ok n) :
    29 ≤ n := by
  by_cases long : HEADER_LEN ≤ bytes.length
  · rw [record_len_long long,refuse_ok_iff] at found
    cases found.2
    omega
  · rw [VoodooStore.encoded_record_len_from_prefix,if_pos (by omega)] at found
    cases found

section
variable [Hashes]

/-- The parts of a record, in front of what follows it. -/
theorem frame_parts (r : LogRecord) (follows : Bytes) :
    r.frame ++ follows = MAGIC ++ ([r.kind.as_u8] ++ (r.tx_id.to_le_bytes ++ (r.sequence.to_le_bytes ++
      ((UInt32.ofNat r.payload.length).to_le_bytes ++ (r.payload ++ ((checksum r.body).to_le_bytes ++ follows)))))) := by
  simp [LogRecord.frame,LogRecord.body]

theorem frame_magic (r : LogRecord) (follows : Bytes) :
    (slice (r.frame ++ follows) 0 4 : Except StoreError Bytes) = .ok MAGIC := by
  rw [frame_parts]
  exact slice_part [] MAGIC _ rfl rfl

theorem frame_kind (r : LogRecord) (follows : Bytes) :
    (index (r.frame ++ follows) 4 : Except StoreError UInt8) = .ok r.kind.as_u8 := by
  rw [frame_parts,index]
  rfl

theorem frame_tx_id (r : LogRecord) (follows : Bytes) :
    (slice (r.frame ++ follows) 5 13 : Except StoreError Bytes) = .ok r.tx_id.to_le_bytes := by
  rw [frame_parts,← List.append_assoc]
  exact slice_part (MAGIC ++ [r.kind.as_u8]) _ _ (by simp) (by simp)

theorem frame_sequence (r : LogRecord) (follows : Bytes) :
    (slice (r.frame ++ follows) 13 21 : Except StoreError Bytes) = .ok r.sequence.to_le_bytes := by
  rw [frame_parts,← List.append_assoc,← List.append_assoc]
  exact slice_part ((MAGIC ++ [r.kind.as_u8]) ++ r.tx_id.to_le_bytes) _ _ (by simp) (by simp)

theorem frame_payload_len {ε : Type} [Panics ε] (r : LogRecord) (follows : Bytes) :
    (slice (r.frame ++ follows) 21 25 : Except ε Bytes) =
      .ok (UInt32.ofNat r.payload.length).to_le_bytes := by
  rw [frame_parts,← List.append_assoc,← List.append_assoc,← List.append_assoc]
  exact slice_part (((MAGIC ++ [r.kind.as_u8]) ++ r.tx_id.to_le_bytes) ++ r.sequence.to_le_bytes) _ _
    (by simp) (by simp)

/-- What `encode` wrote, `decode` reads. -/
theorem decode_frame {r : LogRecord} (fits : r.Fits) : LogRecord.decode r.frame = .ok r := by
  have long : ¬ 29 + r.payload.length < HEADER_LEN + 4 := by simp [HEADER_LEN]
  have magic := frame_magic r []
  have kind := frame_kind r []
  have txId := frame_tx_id r []
  have sequence := frame_sequence r []
  have payloadLen := frame_payload_len (ε := StoreError) r []
  simp only [List.append_nil] at magic kind txId sequence payloadLen
  have lenIs : (UInt32.ofNat r.payload.length).toNat = r.payload.length := u32_of_length fits
  have expected := expected_len (UInt32.ofNat r.payload.length)
  rw [lenIs] at expected
  have check : (slice r.frame (HEADER_LEN + r.payload.length) (HEADER_LEN + r.payload.length + 4) :
      Except StoreError Bytes) = .ok (checksum r.body).to_le_bytes := by
    have parts := slice_part (ε := StoreError) r.body (checksum r.body).to_le_bytes [] (body_length r) rfl
    simpa [LogRecord.frame,HEADER_LEN] using parts
  have covered : (slice r.frame 0 (HEADER_LEN + r.payload.length) : Except StoreError Bytes) = .ok r.body :=
    slice_part [] r.body _ rfl (by simp [HEADER_LEN])
  have payload : (slice r.frame HEADER_LEN (HEADER_LEN + r.payload.length) : Except StoreError Bytes) =
      .ok r.payload := by
    have parts := slice_part (ε := StoreError) (MAGIC ++ ([r.kind.as_u8] ++ (r.tx_id.to_le_bytes ++
      (r.sequence.to_le_bytes ++ (UInt32.ofNat r.payload.length).to_le_bytes)))) r.payload
      (checksum r.body).to_le_bytes rfl rfl
    simpa [LogRecord.frame,LogRecord.body,HEADER_LEN] using parts
  simp only [LogRecord.decode,long,if_false,magic,kind,txId,sequence,payloadLen,ok_bind,kind_round_trip,
    lenIs,expected,check,covered,payload,frame_length,u32_from_to_le,u64_from_to_le,ne_eq,
    not_true_eq_false,pure_is_ok]

/-- `decode` reads nothing but spellings of records. -/
theorem decode_canonical {bytes : Bytes} {r : LogRecord} (decoded : LogRecord.decode bytes = .ok r) :
    r.Fits ∧ bytes = r.frame := by
  rw [LogRecord.decode,refuse_ok_iff] at decoded
  obtain ⟨-,decoded⟩ := decoded
  obtain ⟨magic,magicSlice,decoded⟩ := bind_ok_iff.mp decoded
  obtain ⟨magicIs,decoded⟩ := refuse_ok_iff.mp decoded
  obtain ⟨byte,byteAt,decoded⟩ := bind_ok_iff.mp decoded
  obtain ⟨kind,kindIs,decoded⟩ := bind_ok_iff.mp decoded
  obtain ⟨txBytes,txSlice,decoded⟩ := bind_ok_iff.mp decoded
  obtain ⟨seqBytes,seqSlice,decoded⟩ := bind_ok_iff.mp decoded
  obtain ⟨lenBytes,lenSlice,decoded⟩ := bind_ok_iff.mp decoded
  dsimp only at decoded
  rw [expected_len] at decoded
  obtain ⟨lengthIs,decoded⟩ := refuse_ok_iff.mp decoded
  obtain ⟨crcBytes,crcSlice,decoded⟩ := bind_ok_iff.mp decoded
  obtain ⟨covered,coveredSlice,decoded⟩ := bind_ok_iff.mp decoded
  obtain ⟨crcIs,decoded⟩ := refuse_ok_iff.mp decoded
  obtain ⟨payload,payloadSlice,decoded⟩ := bind_ok_iff.mp decoded
  cases decoded
  rw [not_not] at magicIs lengthIs crcIs
  obtain ⟨magicCut,-⟩ := slice_splits magicSlice
  have byteCut := index_splits byteAt
  obtain ⟨txCut,txSize⟩ := slice_splits txSlice
  obtain ⟨seqCut,seqSize⟩ := slice_splits seqSlice
  obtain ⟨lenCut,lenSize⟩ := slice_splits lenSlice
  obtain ⟨payloadCut,payloadSize⟩ := slice_splits payloadSlice
  obtain ⟨crcCut,crcSize⟩ := slice_splits crcSlice
  obtain ⟨coveredCut,coveredSize⟩ := slice_splits coveredSlice
  have small := (UInt32.from_le_bytes lenBytes).toNat_lt
  have payloadLen : payload.length = (UInt32.from_le_bytes lenBytes).toNat := by omega
  have lenIs : UInt32.ofNat payload.length = UInt32.from_le_bytes lenBytes := by
    rw [payloadLen]
    exact UInt32.ofNat_toNat
  -- The body is what the checksum covered, and nothing follows the checksum.
  have ended : bytes.drop (HEADER_LEN + (UInt32.from_le_bytes lenBytes).toNat + 4) = [] :=
    List.drop_eq_nil_iff.mpr (by rw [lengthIs,HEADER_LEN]; omega)
  have whole : bytes = MAGIC ++ (byte :: (txBytes ++ (seqBytes ++ (lenBytes ++ (payload ++ crcBytes))))) := by
    have start : bytes = bytes.drop 0 := rfl
    have header : bytes.drop 25 = bytes.drop HEADER_LEN := rfl
    rw [start,magicCut,magicIs,byteCut,txCut,seqCut,lenCut,header,payloadCut,crcCut,ended,List.append_nil]
  have bodyIs : MAGIC ++ ([kind.as_u8] ++ (txBytes ++ (seqBytes ++ (lenBytes ++ payload)))) = covered := by
    have joined : covered ++ crcBytes = MAGIC ++ (byte :: (txBytes ++ (seqBytes ++ (lenBytes ++ (payload ++ crcBytes))))) := by
      rw [← whole]
      have start : bytes = bytes.drop 0 := rfl
      rw [start,coveredCut,crcCut,ended,List.append_nil]
    rw [kind_canonical kindIs]
    refine List.append_cancel_right (?_ : _ ++ crcBytes = _ ++ crcBytes)
    rw [joined]
    simp
  refine ⟨show payload.length < 2 ^ 32 by omega,?_⟩
  simp only [LogRecord.frame,LogRecord.body,lenIs]
  rw [u64_to_from_le (by omega),u64_to_from_le (by omega),u32_to_from_le (by omega),bodyIs,← crcIs,
    u32_to_from_le (by omega),← bodyIs,kind_canonical kindIs,whole]
  simp

/-- `decode` and `encode` are inverse to each other. -/
theorem decode_ok_iff {bytes : Bytes} {r : LogRecord} :
    LogRecord.decode bytes = .ok r ↔ r.Fits ∧ bytes = r.frame :=
  ⟨decode_canonical,fun ⟨fits,spelled⟩ => by rw [spelled]; exact decode_frame fits⟩

/-- The length scanner finds the end of a record whatever follows it. -/
theorem record_len_frame {r : LogRecord} (fits : r.Fits) (follows : Bytes) :
     encoded_record_len_from_prefix (r.frame ++ follows) = .ok r.frame.length := by
  have long : ¬ (r.frame ++ follows).length < HEADER_LEN := by simp [HEADER_LEN]; omega
  have expected := expected_len (UInt32.ofNat r.payload.length)
  rw [u32_of_length fits] at expected
  simp only [VoodooStore.encoded_record_len_from_prefix,long,if_false,frame_magic,frame_payload_len,ok_bind,ne_eq,
    not_true_eq_false,u32_from_to_le,u32_of_length fits,expected,frame_length]

/-- A record cut short is not a record. -/
theorem decode_cut {r : LogRecord} (fits : r.Fits) {piece : Bytes} (cut : piece <+: r.frame)
    (proper : piece ≠ r.frame) : ∃ error, LogRecord.decode piece = .error error := by
  cases decoded : LogRecord.decode piece with
  | error error => exact ⟨error,rfl⟩
  | ok other =>
    obtain ⟨otherFits,rfl⟩ := decode_canonical decoded
    have whole := record_len_frame fits []
    have part := record_len_frame otherFits []
    rw [List.append_nil] at whole part
    rw [record_len_cut cut (by simp [HEADER_LEN]; omega),whole] at part
    have sameLength := Except.ok.inj part
    exact absurd (cut.eq_of_length sameLength.symm) proper

end

end VoodooStore
