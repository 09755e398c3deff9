import VoodooStore.Codecs
import VoodooStore.Collections
import VoodooStore.Streams

/-!
# Records of collections

What is written as the definition of a collection, as a migration or as a record
is read back, and nothing else is read as it.
-/
namespace VoodooStore
open Effects Reading Collections
set_option linter.unusedSimpArgs false

/-! ## Definitions and migrations -/

/-- What is left behind the first bytes. -/
theorem drop_splits (bytes : Bytes) (start count : Nat) : bytes.drop start = (bytes.drop start).take count ++ bytes.drop (start + count) := by
  rw [← List.drop_drop,List.take_append_drop]

theorem head_splits {bytes : Bytes} {version : UInt8} (first : bytes.head? = some version) : bytes = [version] ++ bytes.drop 1 := by
  cases bytes with
  | nil => cases first
  | cons byte bytes =>
    cases first
    rfl

def CollectionDefinition.spelling (definition : CollectionDefinition) : Bytes :=
  [FORMAT_VERSION] ++ (definition.schema_version.to_le_bytes ++ ((UInt32.ofNat definition.codec.length).to_le_bytes ++ definition.codec))

theorem encode_definition_ok {definition : CollectionDefinition} {encoded : Bytes} :
    encode_collection_definition definition = .ok encoded ↔ definition.codec.length < 2 ^ 32 ∧ encoded = definition.spelling := by
  unfold encode_collection_definition
  rw [bind_ok_iff]
  constructor
  · rintro ⟨len,written,made⟩
    obtain ⟨short,rfl⟩ := u32_length_ok.mp written
    exact ⟨short,(Except.ok.inj made).symm⟩
  · rintro ⟨short,rfl⟩
    exact ⟨_,u32_length_ok.mpr ⟨short,rfl⟩,rfl⟩

theorem decode_definition_spelling {definition : CollectionDefinition} (short : definition.codec.length < 2 ^ 32) :
    decode_collection_definition definition.spelling = .ok definition := by
  have size : definition.spelling.length = 9 + definition.codec.length := by
    simp [CollectionDefinition.spelling]
    omega
  have first : definition.spelling.head? = some FORMAT_VERSION := rfl
  have at1 : LeftAt definition.spelling 1 (definition.schema_version.to_le_bytes ++
      ((UInt32.ofNat definition.codec.length).to_le_bytes ++ definition.codec)) := (left_at_start definition.spelling).next rfl
  have at5 : LeftAt definition.spelling 5 ((UInt32.ofNat definition.codec.length).to_le_bytes ++ definition.codec) := at1.next (by simp)
  have at9 : LeftAt definition.spelling 9 definition.codec := at5.next (by simp)
  unfold decode_collection_definition
  rw [first,size,if_neg (by simp)]
  dsimp only
  rw [at5.1,List.take_left' (by simp),u32_from_to_le,u32_of_length short,if_neg (by simp),at1.1,List.take_left' (by simp),u32_from_to_le,at9.1]

/-- A definition is read from nothing but its spelling. -/
theorem decode_definition_ok {bytes : Bytes} {definition : CollectionDefinition} (done : decode_collection_definition bytes = .ok definition) :
    definition.codec.length < 2 ^ 32 ∧ bytes = definition.spelling := by
  unfold decode_collection_definition at done
  split at done
  · cases done
  · rename_i fine
    obtain ⟨long,versioned⟩ := not_or.mp fine
    dsimp only at done
    split at done
    · cases done
    · rename_i whole
      cases done
      have first : bytes.head? = some FORMAT_VERSION := not_not.mp versioned
      have four : ((bytes.drop 1).take 4).length = 4 := by simp; omega
      have four' : ((bytes.drop 5).take 4).length = 4 := by simp; omega
      have rest : (bytes.drop 9).length = (UInt32.from_le_bytes ((bytes.drop 5).take 4)).toNat := by
        rw [List.length_drop]
        omega
      refine ⟨by rw [rest]; exact UInt32.toNat_lt _,?_⟩
      unfold CollectionDefinition.spelling
      dsimp only
      rw [rest,UInt32.ofNat_toNat,u32_to_from_le four,u32_to_from_le four',← drop_splits bytes 5 4,← drop_splits bytes 1 4,← head_splits first]

def CollectionMigration.spelling (migration : CollectionMigration) : Bytes :=
  [FORMAT_VERSION] ++ (migration.from_version.to_le_bytes ++ (migration.to_version.to_le_bytes ++
    ((UInt32.ofNat migration.codec.length).to_le_bytes ++ migration.codec)))

theorem encode_migration_ok {migration : CollectionMigration} {encoded : Bytes} :
    encode_collection_migration migration = .ok encoded ↔ migration.codec.length < 2 ^ 32 ∧ encoded = migration.spelling := by
  unfold encode_collection_migration
  rw [bind_ok_iff]
  constructor
  · rintro ⟨len,written,made⟩
    obtain ⟨short,rfl⟩ := u32_length_ok.mp written
    exact ⟨short,(Except.ok.inj made).symm⟩
  · rintro ⟨short,rfl⟩
    exact ⟨_,u32_length_ok.mpr ⟨short,rfl⟩,rfl⟩

/-- A migration that can be read. -/
structure CollectionMigration.Fits (migration : CollectionMigration) : Prop where
  codec : migration.codec.length < 2 ^ 32
  rises : migration.from_version < migration.to_version

theorem decode_migration_spelling {migration : CollectionMigration} (fits : migration.Fits) :
    decode_collection_migration migration.spelling = .ok migration := by
  have size : migration.spelling.length = 13 + migration.codec.length := by
    simp [CollectionMigration.spelling]
    omega
  have first : migration.spelling.head? = some FORMAT_VERSION := rfl
  have at1 : LeftAt migration.spelling 1 (migration.from_version.to_le_bytes ++ (migration.to_version.to_le_bytes ++
      ((UInt32.ofNat migration.codec.length).to_le_bytes ++ migration.codec))) := (left_at_start migration.spelling).next rfl
  have at5 : LeftAt migration.spelling 5 (migration.to_version.to_le_bytes ++
      ((UInt32.ofNat migration.codec.length).to_le_bytes ++ migration.codec)) := at1.next (by simp)
  have at9 : LeftAt migration.spelling 9 ((UInt32.ofNat migration.codec.length).to_le_bytes ++ migration.codec) := at5.next (by simp)
  have at13 : LeftAt migration.spelling 13 migration.codec := at9.next (by simp)
  have rises : ¬ migration.to_version ≤ migration.from_version := UInt32.not_le.mpr fits.rises
  unfold decode_collection_migration
  rw [first,size,if_neg (by simp)]
  dsimp only
  rw [at9.1,at5.1,at1.1,at13.1,List.take_left' (by simp),List.take_left' (by simp),List.take_left' (by simp),u32_from_to_le,u32_from_to_le,
    u32_from_to_le,u32_of_length fits.codec,if_neg (by simpa using rises)]

theorem decode_migration_ok {bytes : Bytes} {migration : CollectionMigration} (done : decode_collection_migration bytes = .ok migration) :
    migration.Fits ∧ bytes = migration.spelling := by
  unfold decode_collection_migration at done
  split at done
  · cases done
  · rename_i fine
    obtain ⟨long,versioned⟩ := not_or.mp fine
    dsimp only at done
    split at done
    · cases done
    · rename_i whole
      obtain ⟨total,rises⟩ := not_or.mp whole
      cases done
      have first : bytes.head? = some FORMAT_VERSION := not_not.mp versioned
      have four : ((bytes.drop 1).take 4).length = 4 := by simp; omega
      have four' : ((bytes.drop 5).take 4).length = 4 := by simp; omega
      have four'' : ((bytes.drop 9).take 4).length = 4 := by simp; omega
      have rest : (bytes.drop 13).length = (UInt32.from_le_bytes ((bytes.drop 9).take 4)).toNat := by
        rw [List.length_drop]
        omega
      refine ⟨⟨by rw [rest]; exact UInt32.toNat_lt _,UInt32.not_le.mp rises⟩,?_⟩
      unfold CollectionMigration.spelling
      dsimp only
      rw [rest,UInt32.ofNat_toNat,u32_to_from_le four,u32_to_from_le four',u32_to_from_le four'',← drop_splits bytes 9 4,
        ← drop_splits bytes 5 4,← drop_splits bytes 1 4,← head_splits first]

/-! ## Records -/

theorem u16_to_from_le {bytes : Bytes} (size : bytes.length = 2) : (UInt16.from_le_bytes bytes).to_le_bytes = bytes := by
  have small : Endian.ofLe bytes < 2 ^ 16 := by
    have := Endian.ofLe_lt bytes
    rw [size] at this
    omega
  rw [UInt16.from_le_bytes,UInt16.to_le_bytes,UInt16.toNat_ofNat_of_lt' small]
  exact Endian.toLe_ofLe size

theorem u16_length_ok {ε : Type} {error : ε} {n : Nat} {len : UInt16} :
    ok_or error (UInt16.try_from n) = .ok len ↔ n < 2 ^ 16 ∧ len = UInt16.ofNat n := by
  rw [ok_or_ok,UInt16.try_from]
  by_cases fits : n < 2 ^ 16
  · rw [if_pos fits,Option.some.injEq,eq_comm]
    simp only [fits,true_and]
  · rw [if_neg fits]
    simp only [fits,false_and,reduceCtorEq]

theorem u16_of_length {n : Nat} (fits : n < 2 ^ 16) : (UInt16.ofNat n).toNat = n := UInt16.toNat_ofNat_of_lt' fits

theorem parses_u16 (x : UInt16) : Parses USIZE u16_field x.to_le_bytes x :=
  parses_fixed (u16_to_le_length x) _ (u16_from_to_le x)

theorem u16_ok {read left : Bytes} {stop : Position} {x : UInt16} (done : u16_field (.at read left) = .ok x stop) :
    ∃ rest, left = x.to_le_bytes ++ rest ∧ stop = .at (read ++ x.to_le_bytes) rest := fixed_ok (fun _ => u16_to_from_le) done

theorem taken_parses {bytes : Bytes} {len : Nat} (size : bytes.length = len) :
    Parses USIZE (Fields.take len : Fields CollectionError Bytes) bytes bytes := by
  subst size
  exact parses_take _ bytes

/-- What an index list spells can be read, and is not too long. -/
theorem parses_indexes {indexes : List IndexValue} {encoded : Bytes} (made : encode_indexes indexes = .ok encoded) :
    Parses USIZE (read_indexes indexes.length) encoded indexes ∧ encoded.length ≤ indexes.length * 2 ^ 33 := by
  induction indexes generalizing encoded with
  | nil =>
    cases made
    exact ⟨parses_pure _,by simp⟩
  | cons index indexes ih =>
    obtain ⟨name_len,first,made⟩ := bind_ok_iff.mp made
    obtain ⟨value_len,second,made⟩ := bind_ok_iff.mp made
    obtain ⟨rest,last,made⟩ := bind_ok_iff.mp made
    cases made
    obtain ⟨short,rfl⟩ := u16_length_ok.mp first
    obtain ⟨fits,rfl⟩ := u32_length_ok.mp second
    obtain ⟨parses,few⟩ := ih last
    constructor
    · refine (parses_u16 _).bind ((taken_parses (u16_of_length short).symm).bind ((parses_u32 _).bind ?_))
      exact (taken_parses (u32_of_length fits).symm).bind (parses.ends (parses_pure _))
    · simp only [List.length_append,List.length_cons,u16_to_le_length,u32_to_le_length]
      omega

theorem decode_encoded_record {value encoded : Bytes} {indexes : List IndexValue} (made : encode_record_value value indexes = .ok encoded) :
    decode_record_value encoded = .ok ⟨value,indexes⟩ := by
  obtain ⟨value_len,first,made⟩ := bind_ok_iff.mp made
  obtain ⟨index_count,second,made⟩ := bind_ok_iff.mp made
  obtain ⟨entries,third,made⟩ := bind_ok_iff.mp made
  cases made
  obtain ⟨fits,rfl⟩ := u32_length_ok.mp first
  obtain ⟨few,rfl⟩ := u16_length_ok.mp second
  obtain ⟨parses,short⟩ := parses_indexes third
  refine @Parses.readAll _ _ USIZE read_record _ ⟨value,indexes⟩ _ ?_ ?_
  · refine (parses_u8 _).bind ?_
    rw [if_neg (by simp)]
    refine (parses_u32 _).bind ((parses_u16 _).bind ((taken_parses (u32_of_length fits).symm).bind ?_))
    rw [u16_of_length few]
    exact parses.ends (parses_pure _)
  · rw [USIZE]
    simp only [List.length_append,List.length_singleton,u16_to_le_length,u32_to_le_length]
    omega

theorem indexes_accepted (count : Nat) : Accepts (read_indexes count) (fun indexes bytes => encode_indexes indexes = .ok bytes ∧ indexes.length = count) := by
  induction count with
  | zero =>
    intro read left indexes stop done
    cases done
    exact ⟨[],left,⟨rfl,rfl⟩,rfl,by rw [List.append_nil]⟩
  | succ count ih =>
    intro read left indexes stop done
    obtain ⟨name_len,_,at_name_len,done⟩ := bind_ok.mp done
    obtain ⟨rest,rfl,rfl⟩ := u16_ok at_name_len
    obtain ⟨index,_,at_name,done⟩ := bind_ok.mp done
    obtain ⟨name_size,rest,rfl,rfl⟩ := take_ok at_name
    obtain ⟨value_len,_,at_value_len,done⟩ := bind_ok.mp done
    obtain ⟨rest,rfl,rfl⟩ := u32_ok at_value_len
    obtain ⟨value,_,at_value,done⟩ := bind_ok.mp done
    obtain ⟨value_size,rest,rfl,rfl⟩ := take_ok at_value
    obtain ⟨others,_,at_rest,done⟩ := bind_ok.mp done
    obtain ⟨part,rest,⟨made,size⟩,rfl,rfl⟩ := ih _ _ _ _ at_rest
    cases done
    apply Exists.intro
    refine ⟨rest,⟨?_,by rw [List.length_cons,size]⟩,?_,?_⟩
    · unfold encode_indexes
      have short : index.length < 2 ^ 16 := by
        rw [name_size]
        exact name_len.toNat_lt
      have fits : value.length < 2 ^ 32 := by
        rw [value_size]
        exact value_len.toNat_lt
      rw [u16_length_ok.mpr ⟨short,rfl⟩,ok_bind,u32_length_ok.mpr ⟨fits,rfl⟩,ok_bind,made,ok_bind,name_size,value_size,
        UInt16.ofNat_toNat,UInt32.ofNat_toNat]
      rfl
    · simp only [List.append_assoc]
    · simp only [List.append_assoc]

/-- A record is read from nothing but what it is written as. -/
theorem record_accepted : Accepts read_record (fun record bytes => encode_record_value record.value record.indexes = .ok bytes) := by
  intro read left record stop done
  obtain ⟨version,_,at_version,done⟩ := bind_ok.mp done
  obtain ⟨rest,rfl,rfl⟩ := u8_ok at_version
  split at done
  · cases done
  · rename_i versioned
    obtain ⟨value_len,_,at_len,done⟩ := bind_ok.mp done
    obtain ⟨rest,rfl,rfl⟩ := u32_ok at_len
    obtain ⟨index_count,_,at_count,done⟩ := bind_ok.mp done
    obtain ⟨rest,rfl,rfl⟩ := u16_ok at_count
    obtain ⟨value,_,at_value,done⟩ := bind_ok.mp done
    obtain ⟨value_size,rest,rfl,rfl⟩ := take_ok at_value
    obtain ⟨indexes,_,at_indexes,done⟩ := bind_ok.mp done
    obtain ⟨part,rest,⟨made,size⟩,rfl,rfl⟩ := indexes_accepted _ _ _ _ _ at_indexes
    cases done
    rw [not_not.mp versioned]
    apply Exists.intro
    refine ⟨rest,?_,?_,?_⟩
    · unfold encode_record_value
      have fits : value.length < 2 ^ 32 := by
        rw [value_size]
        exact value_len.toNat_lt
      have few : indexes.length < 2 ^ 16 := by
        rw [size]
        exact index_count.toNat_lt
      dsimp only
      rw [u32_length_ok.mpr ⟨fits,rfl⟩,ok_bind,u16_length_ok.mpr ⟨few,rfl⟩,ok_bind,made,ok_bind,value_size,size,UInt16.ofNat_toNat,
        UInt32.ofNat_toNat]
      rfl
    · simp only [List.append_assoc]
    · simp only [List.append_assoc]

theorem decode_record_ok {bytes : Bytes} {record : StoredRecord} (done : decode_record_value bytes = .ok record) :
    encode_record_value record.value record.indexes = .ok bytes := record_accepted.readAll done

end VoodooStore
