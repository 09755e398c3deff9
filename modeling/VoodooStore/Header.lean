import VoodooStore.Bytes

/-!
# The header of a store file

Sixty-four bytes with the identity and the format of a store, checksummed. A
header that this engine writes is one that it reads back (`header_round_trip`).
-/
namespace VoodooStore
set_option linter.unusedSimpArgs false

inductive HeaderError
  | Truncated
  | InvalidMagic
  | UnsupportedMajor (found supported : UInt16)
  | ChecksumMismatch (expected actual : UInt32)
  | Panic
  deriving DecidableEq, Repr

instance : Panics HeaderError := ⟨.Panic⟩

def STORE_MAGIC : Bytes := [86,83,84,79,82,69,48,49]
def FORMAT_MAJOR : UInt16 := 1
def FORMAT_MINOR : UInt16 := 0
def STORE_HEADER_LEN : Nat := 64
def CHECKSUM_OFFSET : Nat := STORE_HEADER_LEN - 4

structure StoreHeader where
  format_major : UInt16
  format_minor : UInt16
  store_id : ByteArr 16
  created_at_ms : Int64
  feature_flags : UInt64
  deriving DecidableEq

def StoreHeader.new (store_id : ByteArr 16) (created_at_ms : Int64) : StoreHeader where
  format_major := FORMAT_MAJOR
  format_minor := FORMAT_MINOR
  store_id := store_id
  created_at_ms := created_at_ms
  feature_flags := 0

section
variable [Hashes]

def StoreHeader.encode (self : StoreHeader) : Bytes :=
  -- The bytes from 44 to the checksum stay zero.
  let out := STORE_MAGIC ++ (self.format_major.to_le_bytes ++ (self.format_minor.to_le_bytes ++
    (self.store_id.val ++ (self.created_at_ms.to_le_bytes ++ (self.feature_flags.to_le_bytes ++
      List.replicate 16 0)))))
  out ++ (Hashes.crc32 out).to_le_bytes

def StoreHeader.decode (bytes : Bytes) : Except HeaderError StoreHeader :=
  if bytes.length < STORE_HEADER_LEN then .error .Truncated else do
  let magic ← slice bytes 0 8
  if magic ≠ STORE_MAGIC then .error .InvalidMagic else do
  let expected := UInt32.from_le_bytes (← slice bytes CHECKSUM_OFFSET STORE_HEADER_LEN)
  let actual := Hashes.crc32 (← slice bytes 0 CHECKSUM_OFFSET)
  if expected ≠ actual then .error (.ChecksumMismatch expected actual) else do
  let format_major := UInt16.from_le_bytes (← slice bytes 8 10)
  let format_minor := UInt16.from_le_bytes (← slice bytes 10 12)
  if format_major ≠ FORMAT_MAJOR then .error (.UnsupportedMajor format_major FORMAT_MAJOR) else do
  let store_id ← slice_array 16 bytes 12
  let created_at_ms := Int64.from_le_bytes (← slice bytes 28 36)
  let feature_flags := UInt64.from_le_bytes (← slice bytes 36 44)
  return { format_major, format_minor, store_id, created_at_ms, feature_flags }

@[simp] theorem header_length (header : StoreHeader) : header.encode.length = STORE_HEADER_LEN := by
  simp [StoreHeader.encode,STORE_MAGIC,STORE_HEADER_LEN,header.store_id.property]

/-- What the engine writes as a header, it reads. -/
theorem header_round_trip {header : StoreHeader} (supported : header.format_major = FORMAT_MAJOR) :
    StoreHeader.decode header.encode = .ok header := by
  obtain ⟨major,minor,id,created,flags⟩ := header
  dsimp only at supported
  subst supported
  set zeros : Bytes := List.replicate 16 0 with zerosIs
  set out := STORE_MAGIC ++ (FORMAT_MAJOR.to_le_bytes ++ (minor.to_le_bytes ++
    (id.val ++ (created.to_le_bytes ++ (flags.to_le_bytes ++ zeros))))) with outIs
  set crc := (Hashes.crc32 out).to_le_bytes with crcIs
  have idSize := id.property
  have outSize : out.length = 60 := by simp [outIs,STORE_MAGIC,idSize,zerosIs]
  have encoded : (StoreHeader.mk FORMAT_MAJOR minor id created flags).encode = out ++ crc := rfl
  have parts : out ++ crc = STORE_MAGIC ++ (FORMAT_MAJOR.to_le_bytes ++ (minor.to_le_bytes ++
      (id.val ++ (created.to_le_bytes ++ (flags.to_le_bytes ++ (zeros ++ crc)))))) := by
    simp [outIs]
  have long : ¬ (out ++ crc).length < STORE_HEADER_LEN := by simp [outSize,crcIs,STORE_HEADER_LEN]
  have magic : (slice (out ++ crc) 0 8 : Except HeaderError Bytes) = .ok STORE_MAGIC := by
    rw [parts]; exact slice_part [] STORE_MAGIC _ rfl rfl
  have check : (slice (out ++ crc) CHECKSUM_OFFSET STORE_HEADER_LEN : Except HeaderError Bytes) = .ok crc := by
    have sliced := slice_part (ε := HeaderError) out crc [] outSize rfl
    simpa [CHECKSUM_OFFSET,STORE_HEADER_LEN,crcIs] using sliced
  have covered : (slice (out ++ crc) 0 CHECKSUM_OFFSET : Except HeaderError Bytes) = .ok out :=
    slice_part [] out crc rfl (by rw [outSize]; rfl)
  have majorSlice : (slice (out ++ crc) 8 10 : Except HeaderError Bytes) = .ok FORMAT_MAJOR.to_le_bytes := by
    rw [parts]; exact slice_part STORE_MAGIC _ _ rfl (by simp)
  have minorSlice : (slice (out ++ crc) 10 12 : Except HeaderError Bytes) = .ok minor.to_le_bytes := by
    rw [parts,← List.append_assoc]
    exact slice_part (STORE_MAGIC ++ FORMAT_MAJOR.to_le_bytes) _ _ rfl (by simp)
  have idSlice : (slice_array 16 (out ++ crc) 12 : Except HeaderError (ByteArr 16)) = .ok id := by
    rw [parts,← List.append_assoc,← List.append_assoc]
    exact slice_array_part (STORE_MAGIC ++ FORMAT_MAJOR.to_le_bytes ++ minor.to_le_bytes) id _ (by simp [STORE_MAGIC])
  have createdSlice : (slice (out ++ crc) 28 36 : Except HeaderError Bytes) = .ok created.to_le_bytes := by
    rw [parts,← List.append_assoc,← List.append_assoc,← List.append_assoc]
    exact slice_part (STORE_MAGIC ++ FORMAT_MAJOR.to_le_bytes ++ minor.to_le_bytes ++ id.val) _ _
      (by simp [STORE_MAGIC,idSize]) (by simp)
  have flagsSlice : (slice (out ++ crc) 36 44 : Except HeaderError Bytes) = .ok flags.to_le_bytes := by
    rw [parts,← List.append_assoc,← List.append_assoc,← List.append_assoc,← List.append_assoc]
    exact slice_part (STORE_MAGIC ++ FORMAT_MAJOR.to_le_bytes ++ minor.to_le_bytes ++ id.val ++ created.to_le_bytes) _ _
      (by simp [STORE_MAGIC,idSize]) (by simp)
  have crcRead : UInt32.from_le_bytes crc = Hashes.crc32 out := by rw [crcIs,u32_from_to_le]
  simp only [encoded,StoreHeader.decode,long,if_false,magic,check,covered,majorSlice,minorSlice,idSlice,
    createdSlice,flagsSlice,ok_bind,crcRead,u16_from_to_le,i64_from_to_le,u64_from_to_le,ne_eq,
    not_true_eq_false,pure_is_ok]

end

/-- The log of a file starts after its header. -/
theorem drop_header {header : Bytes} (size : header.length = STORE_HEADER_LEN) (bytes : Bytes) :
    (header ++ bytes).drop STORE_HEADER_LEN = bytes := by
  rw [← size,List.drop_left]

/-- The header of a store made at the epoch, without an identity of its own. -/
def zeroHeader : StoreHeader := .new (.filled 0) 0

end VoodooStore
