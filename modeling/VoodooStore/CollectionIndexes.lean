import VoodooStore.CollectionMaps
import VoodooStore.CollectionRecords

/-!
# Indexes as projections

The entries under the index prefix are those that the stored records list, each
of them holds the primary key of its record, and where an index is unique no two
records list the same value of it. Every change of a record keeps it so.
-/
namespace VoodooStore
open Effects Reading Collections
set_option linter.unusedSimpArgs false

/-! ## Keys -/

/-- The record can be addressed. -/
structure Placed (collection primary_key : Bytes) : Prop where
  space : collection.length < 2 ^ 32
  key : primary_key.length < 2 ^ 32

/-- The value can be part of a key. -/
structure IndexValue.Fits (index : IndexValue) : Prop where
  name : index.index.length < 2 ^ 32
  value : index.value.length < 2 ^ 32

theorem tuple_fits {components : List Bytes} (fits : ∀ c ∈ components, c.length < 2 ^ 32) : ∀ c ∈ components, Tuples.Fits 4 c :=
  fun c member => by simpa [Tuples.Fits] using fits c member

theorem record_key_injective {collection primary_key other_collection other_key : Bytes} (placed : Placed collection primary_key)
    (other : Placed other_collection other_key) (same : recordKey collection primary_key = recordKey other_collection other_key) :
    collection = other_collection ∧ primary_key = other_key := by
  have tuples := List.append_cancel_left same
  have parts := @Tuples.tuple_injective 4 [] [] [collection,primary_key] [other_collection,other_key] rfl
    (tuple_fits (by simpa using And.intro placed.space placed.key))
    (tuple_fits (by simpa using And.intro other.space other.key))
    (by simpa using tuples)
  simpa using parts.1

theorem index_key_injective {collection primary_key other_collection other_key : Bytes} {index other_index : IndexValue}
    (placed : Placed collection primary_key) (fits : index.Fits) (other : Placed other_collection other_key) (other_fits : other_index.Fits)
    (same : indexKey collection index.index index.value primary_key = indexKey other_collection other_index.index other_index.value other_key) :
    collection = other_collection ∧ index = other_index ∧ primary_key = other_key := by
  have tuples := List.append_cancel_left same
  have parts := @Tuples.tuple_injective 4 [] [] [collection,index.index,index.value,primary_key]
    [other_collection,other_index.index,other_index.value,other_key] rfl
    (tuple_fits (by simpa using And.intro placed.space (And.intro fits.name (And.intro fits.value placed.key))))
    (tuple_fits (by simpa using And.intro other.space (And.intro other_fits.name (And.intro other_fits.value other.key))))
    (by simpa using tuples)
  obtain ⟨first,second,third,last⟩ : collection = other_collection ∧ index.index = other_index.index ∧ index.value = other_index.value ∧
      primary_key = other_key := by simpa using parts.1
  refine ⟨first,?_,last⟩
  cases index
  cases other_index
  cases second
  cases third
  rfl

/-- An entry is found under the values of its own record. -/
theorem index_space_front {collection other_collection other_key : Bytes} {index other_index : IndexValue}
    (short : collection.length < 2 ^ 32) (fits : index.Fits) (other : Placed other_collection other_key) (other_fits : other_index.Fits) :
    indexSpace collection index.index index.value <+: indexKey other_collection other_index.index other_index.value other_key ↔
      collection = other_collection ∧ index = other_index := by
  have whole : indexKey other_collection other_index.index other_index.value other_key =
      indexSpace other_collection other_index.index other_index.value ++ Tuples.tuple 4 [other_key] := by
    simp [indexKey,indexSpace,Tuples.tuple]
  rw [whole,indexSpace,indexSpace,List.append_assoc,List.prefix_append_right_inj]
  have front := @Tuples.tuple_front 4 [] (Tuples.tuple 4 [other_key]) [collection,index.index,index.value]
    [other_collection,other_index.index,other_index.value] rfl
    (tuple_fits (by simpa using And.intro short (And.intro fits.name fits.value)))
    (tuple_fits (by simpa using And.intro other.space (And.intro other_fits.name other_fits.value)))
  rw [List.append_nil] at front
  rw [front]
  cases index
  cases other_index
  simp

theorem meta_key_injective {a b : Bytes} (short : a.length < 2 ^ 32) (fits : b.length < 2 ^ 32) (same : metaKey a = metaKey b) : a = b := by
  have tuples := List.append_cancel_left same
  have parts := @Tuples.tuple_injective 4 [] [] [a] [b] rfl (tuple_fits (by simpa using short)) (tuple_fits (by simpa using fits))
    (by simpa using tuples)
  simpa using parts.1

theorem index_meta_injective {collection index other_collection other_index : Bytes} (short : collection.length < 2 ^ 32)
    (fits : index.length < 2 ^ 32) (other : other_collection.length < 2 ^ 32) (other_fits : other_index.length < 2 ^ 32)
    (same : indexMetaKey collection index = indexMetaKey other_collection other_index) :
    collection = other_collection ∧ index = other_index := by
  have tuples := List.append_cancel_left same
  have parts := @Tuples.tuple_injective 4 [] [] [collection,index] [other_collection,other_index] rfl
    (tuple_fits (by simpa using And.intro short fits)) (tuple_fits (by simpa using And.intro other other_fits)) (by simpa using tuples)
  simpa using parts.1

/-- Keys of different kinds are different. -/
theorem key_kinds_apart {front other a b : Bytes} (apart : ¬ front <+: other ∧ ¬ other <+: front) (first : front <+: a) (second : other <+: b) :
    a ≠ b := by
  rintro rfl
  exact prefixes_apart apart first second

/-! ## What is stored -/

/-- The map holds the record. -/
structure Stores (state : State) (collection primary_key : Bytes) (record : StoredRecord) : Prop where
  placed : Placed collection primary_key
  spelled : ∃ encoded, encode_record_value record.value record.indexes = .ok encoded ∧ state[recordKey collection primary_key]? = some encoded

/-- The index is defined, as unique or not. -/
structure DefinedAs (state : State) (collection index : Bytes) (unique : Bool) : Prop where
  space : collection.length < 2 ^ 32
  name : index.length < 2 ^ 32
  spelled : state[indexMetaKey collection index]? = some [FORMAT_VERSION,if unique then 1 else 0]

theorem encode_indexes_fit {indexes : List IndexValue} {encoded : Bytes} (made : encode_indexes indexes = .ok encoded) :
    ∀ index ∈ indexes, index.Fits := by
  induction indexes generalizing encoded with
  | nil => simp
  | cons first indexes ih =>
    obtain ⟨name_len,named,made⟩ := bind_ok_iff.mp made
    obtain ⟨value_len,valued,made⟩ := bind_ok_iff.mp made
    obtain ⟨rest,last,made⟩ := bind_ok_iff.mp made
    have name := (u16_length_ok.mp named).1
    have value := (u32_length_ok.mp valued).1
    rintro index member
    rcases List.mem_cons.mp member with rfl | later
    · exact ⟨by omega,value⟩
    · exact ih last index later

theorem encode_record_fits {value encoded : Bytes} {indexes : List IndexValue} (made : encode_record_value value indexes = .ok encoded) :
    ∀ index ∈ indexes, index.Fits := by
  obtain ⟨value_len,-,made⟩ := bind_ok_iff.mp made
  obtain ⟨index_count,-,made⟩ := bind_ok_iff.mp made
  obtain ⟨entries,spelled,-⟩ := bind_ok_iff.mp made
  exact encode_indexes_fit spelled

theorem Stores.fits {state : State} {collection primary_key : Bytes} {record : StoredRecord} (stores : Stores state collection primary_key record) :
    ∀ index ∈ record.indexes, index.Fits := by
  obtain ⟨encoded,made,-⟩ := stores.spelled
  exact encode_record_fits made

theorem Stores.one {state : State} {collection primary_key : Bytes} {record other : StoredRecord}
    (stores : Stores state collection primary_key record) (also : Stores state collection primary_key other) : record = other := by
  obtain ⟨encoded,made,found⟩ := stores.spelled
  obtain ⟨encoded',made',found'⟩ := also.spelled
  rw [found] at found'
  cases found'
  have first := decode_encoded_record made
  rw [decode_encoded_record made'] at first
  cases record
  cases other
  cases first
  rfl

/-- What a reader finds. -/
theorem read_in_ok {state : State} {collection primary_key : Bytes} (placed : Placed collection primary_key) {existing : Option StoredRecord}
    (read : readIn state (recordKey collection primary_key) = .ok existing) :
    (existing = none ∧ state[recordKey collection primary_key]? = none) ∨
      ∃ record, existing = some record ∧ Stores state collection primary_key record := by
  unfold readIn at read
  cases found : state[recordKey collection primary_key]? with
  | none =>
    rw [found] at read
    cases read
    exact .inl ⟨rfl,rfl⟩
  | some encoded =>
    rw [found] at read
    cases decoded : decode_record_value encoded with
    | error e =>
      rw [Option.mapM_some,decoded] at read
      cases read
    | ok record =>
      rw [Option.mapM_some,decoded] at read
      cases read
      exact .inr ⟨record,rfl,placed,encoded,decode_record_ok decoded,found⟩

theorem Stores.read {state : State} {collection primary_key : Bytes} {record : StoredRecord} (stores : Stores state collection primary_key record) :
    readIn state (recordKey collection primary_key) = .ok (some record) := by
  obtain ⟨encoded,made,found⟩ := stores.spelled
  rw [readIn,found,Option.mapM_some,decode_encoded_record made]
  rfl

/-! ## What a change does -/

def entryKeys (collection primary_key : Bytes) (indexes : List IndexValue) : List Bytes :=
  indexes.map (fun index => indexKey collection index.index index.value primary_key)

theorem mem_entry_keys_cons {collection primary_key key : Bytes} {index : IndexValue} {indexes : List IndexValue} :
    key ∈ entryKeys collection primary_key (index :: indexes) ↔
      indexKey collection index.index index.value primary_key = key ∨ key ∈ entryKeys collection primary_key indexes := by
  rw [entryKeys,List.map_cons,List.mem_cons,eq_comm]
  rfl

theorem entry_key_ok {collection primary_key key : Bytes} {index : IndexValue} :
    index_entry_key collection index.index index.value primary_key = .ok key ↔
      (Placed collection primary_key ∧ index.Fits) ∧ key = indexKey collection index.index index.value primary_key := by
  rw [index_entry_key_ok]
  constructor
  · rintro ⟨⟨space,name,value,key⟩,same⟩
    exact ⟨⟨⟨space,key⟩,name,value⟩,same⟩
  · rintro ⟨⟨⟨space,key⟩,name,value⟩,same⟩
    exact ⟨⟨space,name,value,key⟩,same⟩

theorem erase_entries_ok {collection primary_key : Bytes} {indexes : List IndexValue} {s t : State} {x : Unit}
    (done : eraseEntries collection primary_key indexes s = .ok x t) (key : Bytes) :
    t[key]? = if key ∈ entryKeys collection primary_key indexes then none else s[key]? := by
  induction indexes generalizing s with
  | nil =>
    cases done
    rfl
  | cons index indexes ih =>
    obtain ⟨entry,made,done⟩ := lift_bind_ok.mp done
    obtain ⟨-,rfl⟩ := entry_key_ok.mp made
    rw [ih done,get_erase]
    by_cases later : key ∈ entryKeys collection primary_key indexes
    · rw [if_pos later,if_pos (mem_entry_keys_cons.mpr (.inr later))]
    · rw [if_neg later]
      by_cases same : indexKey collection index.index index.value primary_key = key
      · rw [if_pos same,if_pos (mem_entry_keys_cons.mpr (.inl same))]
      · rw [if_neg same,if_neg (fun member => (mem_entry_keys_cons.mp member).elim same later)]

theorem insert_entries_ok {collection primary_key : Bytes} {indexes : List IndexValue} {s t : State} {x : Unit}
    (done : insertEntries collection primary_key indexes s = .ok x t) (key : Bytes) :
    t[key]? = if key ∈ entryKeys collection primary_key indexes then some primary_key else s[key]? := by
  induction indexes generalizing s with
  | nil =>
    cases done
    rfl
  | cons index indexes ih =>
    obtain ⟨entry,made,done⟩ := lift_bind_ok.mp done
    obtain ⟨-,rfl⟩ := entry_key_ok.mp made
    rw [ih done,get_insert]
    by_cases later : key ∈ entryKeys collection primary_key indexes
    · rw [if_pos later,if_pos (mem_entry_keys_cons.mpr (.inr later))]
    · rw [if_neg later]
      by_cases same : indexKey collection index.index index.value primary_key = key
      · rw [if_pos same,if_pos (mem_entry_keys_cons.mpr (.inl same))]
      · rw [if_neg same,if_neg (fun member => (mem_entry_keys_cons.mp member).elim same later)]

theorem erase_entries_run {collection primary_key : Bytes} {indexes : List IndexValue} (placed : Placed collection primary_key)
    (fits : ∀ index ∈ indexes, index.Fits) (s : State) : ∃ t, eraseEntries collection primary_key indexes s = .ok () t := by
  induction indexes generalizing s with
  | nil => exact ⟨s,rfl⟩
  | cons index indexes ih =>
    obtain ⟨t,done⟩ := ih (fun other member => fits other (by simp [member])) (s.erase (indexKey collection index.index index.value primary_key))
    exact ⟨t,lift_bind_ok.mpr ⟨_,entry_key_ok.mpr ⟨⟨placed,fits index (by simp)⟩,rfl⟩,done⟩⟩

theorem insert_entries_run {collection primary_key : Bytes} {indexes : List IndexValue} (placed : Placed collection primary_key)
    (fits : ∀ index ∈ indexes, index.Fits) (s : State) : ∃ t, insertEntries collection primary_key indexes s = .ok () t := by
  induction indexes generalizing s with
  | nil => exact ⟨s,rfl⟩
  | cons index indexes ih =>
    obtain ⟨t,done⟩ := ih (fun other member => fits other (by simp [member])) (s.insert (indexKey collection index.index index.value primary_key) primary_key)
    exact ⟨t,lift_bind_ok.mpr ⟨_,entry_key_ok.mpr ⟨⟨placed,fits index (by simp)⟩,rfl⟩,done⟩⟩

/-- The record may list the value: the index is defined and, if it is unique, nothing else has the value. -/
def Free (state : State) (collection primary_key : Bytes) (index : IndexValue) : Prop :=
  ∃ unique, DefinedAs state collection index.index unique ∧ (unique = true → index.value.length < 2 ^ 32 ∧
    ∀ entry ∈ scan state (indexSpace collection index.index index.value), entry.2 = primary_key)

theorem index_in_ok {state : State} {collection index : Bytes} {definition : IndexDefinition} :
    indexIn state collection index = .ok definition ↔ definition.name = index ∧ DefinedAs state collection index definition.unique := by
  unfold indexIn
  constructor
  · intro done
    obtain ⟨key,made,done⟩ := bind_ok_iff.mp done
    obtain ⟨⟨short,fits⟩,rfl⟩ := index_meta_key_ok.mp made
    obtain ⟨encoded,found,done⟩ := bind_ok_iff.mp done
    rw [ok_or_ok] at found
    unfold decode_index_definition at done
    split at done
    · rename_i version unique
      split at done
      · cases done
      · rename_i fine
        cases done
        obtain ⟨versioned,flag⟩ := not_or.mp fine
        refine ⟨rfl,short,fits,?_⟩
        rw [found,not_not.mp versioned]
        by_cases one : unique = 1
        · simp [one]
        · have zero : unique = 0 := by
            have := UInt8.not_lt.mp flag
            rw [UInt8.le_iff_toNat_le] at this
            rw [← UInt8.toNat_inj] at one ⊢
            simp only [UInt8.reduceToNat] at this one ⊢
            omega
          simp [zero]
    · cases done
  · rintro ⟨rfl,defined⟩
    refine bind_ok_iff.mpr ⟨_,index_meta_key_ok.mpr ⟨⟨defined.space,defined.name⟩,rfl⟩,?_⟩
    refine bind_ok_iff.mpr ⟨_,ok_or_ok.mpr defined.spelled,?_⟩
    obtain ⟨name,unique⟩ := definition
    cases unique <;> rfl

theorem check_in_ok {state : State} {collection primary_key : Bytes} {indexes : List IndexValue} :
    checkIn state collection primary_key indexes = .ok () ↔ ∀ index ∈ indexes, Free state collection primary_key index := by
  induction indexes with
  | nil => simp [checkIn]
  | cons index indexes ih =>
    rw [List.forall_mem_cons,checkIn,← ih]
    constructor
    · intro done
      obtain ⟨definition,found,done⟩ := bind_ok_iff.mp done
      obtain ⟨named,defined⟩ := index_in_ok.mp found
      cases unique : definition.unique with
      | false =>
        rw [unique,if_neg (by simp)] at done
        rw [unique] at defined
        exact ⟨⟨false,defined,by simp⟩,done⟩
      | true =>
        rw [unique,if_pos rfl] at done
        rw [unique] at defined
        obtain ⟨front,made,done⟩ := bind_ok_iff.mp done
        obtain ⟨⟨-,-,short⟩,rfl⟩ := index_value_prefix_ok.mp made
        split at done
        · cases done
        · rename_i none_other
          refine ⟨⟨true,defined,fun _ => ⟨short,?_⟩⟩,done⟩
          simpa using none_other
    · rintro ⟨⟨unique,defined,alone⟩,rest⟩
      refine bind_ok_iff.mpr ⟨⟨index.index,unique⟩,index_in_ok.mpr ⟨rfl,defined⟩,?_⟩
      cases unique with
      | false => exact rest
      | true =>
        obtain ⟨short,alone⟩ := alone rfl
        dsimp only
        rw [if_pos rfl]
        refine bind_ok_iff.mpr ⟨_,index_value_prefix_ok.mpr ⟨⟨defined.space,defined.name,short⟩,rfl⟩,?_⟩
        rw [if_neg (by simpa using alone)]
        exact rest

/-- The index values of a record, if there is one. -/
def listed (record : Option StoredRecord) : List IndexValue := record.elim [] StoredRecord.indexes

/-- A record, or none, takes the place of another. -/
structure Replaces (s t : State) (collection primary_key : Bytes) (old new : Option StoredRecord) : Prop where
  placed : Placed collection primary_key
  found : readIn s (recordKey collection primary_key) = .ok old
  accepted : ∀ record, new = some record → primary_key ≠ [] ∧ s[metaKey collection]? ≠ none ∧
    ∀ index ∈ record.indexes, Free s collection primary_key index
  left : ∃ encoded, new.mapM (fun record => encode_record_value record.value record.indexes) = .ok encoded ∧ ∀ key, t[key]? =
    if key ∈ entryKeys collection primary_key (listed new) then some primary_key
    else if key = recordKey collection primary_key then encoded
    else if key ∈ entryKeys collection primary_key (listed old) then none else s[key]?

theorem ensure_in_ok {state : State} {name : Bytes} : ensureIn state name = .ok () ↔ name.length < 2 ^ 32 ∧ state[metaKey name]? ≠ none := by
  unfold ensureIn
  constructor
  · intro done
    obtain ⟨key,made,done⟩ := bind_ok_iff.mp done
    obtain ⟨short,rfl⟩ := meta_key_ok.mp made
    split at done
    · cases done
    · rename_i there
      exact ⟨short,there⟩
  · rintro ⟨short,there⟩
    refine bind_ok_iff.mpr ⟨_,meta_key_ok.mpr ⟨short,rfl⟩,?_⟩
    rw [if_neg there]

theorem upsert_in_ok {s t : State} {collection primary_key value : Bytes} {indexes : List IndexValue} {x : Unit}
    (done : upsertIn collection primary_key value indexes s = .ok x t) :
    ∃ old, Replaces s t collection primary_key old (some ⟨value,indexes⟩) := by
  unfold upsertIn at done
  rw [get_bind] at done
  obtain ⟨_,ensured,done⟩ := lift_bind_ok.mp done
  split at done
  · cases done
  rename_i named
  obtain ⟨key,made,done⟩ := lift_bind_ok.mp done
  obtain ⟨⟨space,short⟩,rfl⟩ := record_key_ok.mp made
  rw [get_bind] at done
  obtain ⟨existing,read,done⟩ := lift_bind_ok.mp done
  rw [get_bind] at done
  obtain ⟨_,checked,done⟩ := lift_bind_ok.mp done
  obtain ⟨_,dropped,erased,done⟩ := bind_ok.mp done
  obtain ⟨encoded,spelled,done⟩ := lift_bind_ok.mp done
  rw [modify_bind] at done
  refine ⟨existing,⟨space,short⟩,read,?_,some encoded,?_,?_⟩
  · rintro record same
    cases same
    exact ⟨named,(ensure_in_ok.mp ensured).2,check_in_ok.mp checked⟩
  · rw [Option.mapM_some,spelled]
    rfl
  · intro key
    rw [insert_entries_ok done key,get_insert]
    by_cases new : key ∈ entryKeys collection primary_key indexes
    · rw [if_pos new,if_pos (show key ∈ entryKeys collection primary_key (listed (some ⟨value,indexes⟩)) from new)]
    rw [if_neg new,if_neg (show key ∉ entryKeys collection primary_key (listed (some ⟨value,indexes⟩)) from new)]
    by_cases same : recordKey collection primary_key = key
    · rw [if_pos same,if_pos same.symm]
    · rw [if_neg same,if_neg (Ne.symm same)]
      exact erase_entries_ok erased key

theorem delete_in_ok {s t : State} {collection primary_key : Bytes} {deleted : Bool}
    (done : deleteIn collection primary_key s = .ok deleted t) : t = s ∨ ∃ old, Replaces s t collection primary_key old none := by
  unfold deleteIn at done
  obtain ⟨key,made,done⟩ := lift_bind_ok.mp done
  obtain ⟨⟨space,short⟩,rfl⟩ := record_key_ok.mp made
  rw [get_bind] at done
  obtain ⟨existing,read,done⟩ := lift_bind_ok.mp done
  cases existing with
  | none =>
    cases done
    exact .inl rfl
  | some existing =>
    dsimp only at done
    rw [modify_bind] at done
    obtain ⟨_,_,erased,done⟩ := bind_ok.mp done
    cases done
    refine .inr ⟨some existing,⟨space,short⟩,read,by simp,none,rfl,?_⟩
    intro key
    rw [erase_entries_ok erased key,get_erase,if_neg (show key ∉ entryKeys collection primary_key (listed none) by simp [entryKeys,listed])]
    by_cases own : key = recordKey collection primary_key
    · rw [if_pos own,if_pos own.symm]
      exact ite_self _
    · rw [if_neg own,if_neg (Ne.symm own)]
      rfl

/-! ## Projections -/

/-- The entries are those of the records, on indexes that are there, and unique where they should be. -/
structure Projected (state : State) : Prop where
  records : ∀ key encoded, RECORD_PREFIX <+: key → state[key]? = some encoded →
    ∃ collection primary_key record, primary_key ≠ [] ∧ key = recordKey collection primary_key ∧ Stores state collection primary_key record
  entries : ∀ key value, INDEX_PREFIX <+: key → (state[key]? = some value ↔ ∃ collection primary_key record, ∃ index ∈ record.indexes,
    Stores state collection primary_key record ∧ key = indexKey collection index.index index.value primary_key ∧ value = primary_key)
  defined : ∀ collection primary_key record, Stores state collection primary_key record → state[metaKey collection]? ≠ none ∧
    ∀ index ∈ record.indexes, ∃ unique, DefinedAs state collection index.index unique
  unique : ∀ collection primary_key record other_key other, Stores state collection primary_key record → Stores state collection other_key other →
    ∀ index ∈ record.indexes, index ∈ other.indexes → DefinedAs state collection index.index true → primary_key = other_key

theorem projected_empty : Projected ∅ := by
  constructor
  · intro key encoded _ found
    simp at found
  · intro key value _
    simp only [Std.ExtTreeMap.getElem?_empty,reduceCtorEq,false_iff]
    rintro ⟨_,_,_,_,_,stores,-⟩
    obtain ⟨_,-,found⟩ := stores.spelled
    simp at found
  · intro _ _ _ stores
    obtain ⟨_,-,found⟩ := stores.spelled
    simp at found
  · intro _ _ _ _ _ stores
    obtain ⟨_,-,found⟩ := stores.spelled
    simp at found

theorem Stores.congr {s t : State} {collection primary_key : Bytes} {record : StoredRecord}
    (same : t[recordKey collection primary_key]? = s[recordKey collection primary_key]?) (stores : Stores s collection primary_key record) :
    Stores t collection primary_key record := by
  obtain ⟨encoded,made,found⟩ := stores.spelled
  exact ⟨stores.placed,encoded,made,same.trans found⟩

theorem DefinedAs.congr {s t : State} {collection index : Bytes} {unique : Bool}
    (same : t[indexMetaKey collection index]? = s[indexMetaKey collection index]?) (defined : DefinedAs s collection index unique) :
    DefinedAs t collection index unique := ⟨defined.space,defined.name,same.trans defined.spelled⟩

section
variable {s t : State}

/-- The records and entries stay, and more may be defined. -/
theorem Projected.grows (projected : Projected s) (same : ∀ key, RECORD_PREFIX <+: key ∨ INDEX_PREFIX <+: key → t[key]? = s[key]?)
    (metas : ∀ collection, s[metaKey collection]? ≠ none → t[metaKey collection]? ≠ none)
    (indexes : ∀ collection index, s[indexMetaKey collection index]? ≠ none → t[indexMetaKey collection index]? = s[indexMetaKey collection index]?) :
    Projected t := by
  have record_same : ∀ collection primary_key, t[recordKey collection primary_key]? = s[recordKey collection primary_key]? :=
    fun collection primary_key => same _ (.inl (List.prefix_append _ _))
  have stores : ∀ collection primary_key record, Stores t collection primary_key record ↔ Stores s collection primary_key record :=
    fun collection primary_key record => ⟨Stores.congr (record_same _ _).symm,Stores.congr (record_same _ _)⟩
  constructor
  · intro key encoded inside found
    rw [same key (.inl inside)] at found
    obtain ⟨collection,primary_key,record,named,spelled,stored⟩ := projected.records key encoded inside found
    exact ⟨collection,primary_key,record,named,spelled,(stores _ _ _).mpr stored⟩
  · intro key value inside
    rw [same key (.inr inside),projected.entries key value inside]
    simp only [stores]
  · intro collection primary_key record stored
    obtain ⟨there,known⟩ := projected.defined collection primary_key record ((stores _ _ _).mp stored)
    refine ⟨metas _ there,?_⟩
    intro index member
    obtain ⟨unique,defined⟩ := known index member
    exact ⟨unique,defined.congr (indexes _ _ (by rw [defined.spelled]; simp))⟩
  · intro collection primary_key record other_key other first second index member also defined
    -- an index that a record lists was defined before
    obtain ⟨unique,known⟩ := (projected.defined _ _ _ ((stores _ _ _).mp first)).2 index member
    have kept := indexes collection index.index (by rw [known.spelled]; simp)
    exact projected.unique _ _ _ _ _ ((stores _ _ _).mp first) ((stores _ _ _).mp second) index member also (defined.congr kept.symm)

variable {collection primary_key : Bytes} {old new : Option StoredRecord}

theorem mem_entry_keys {key : Bytes} {indexes : List IndexValue} : key ∈ entryKeys collection primary_key indexes ↔
    ∃ index ∈ indexes, key = indexKey collection index.index index.value primary_key := by
  simp [entryKeys,eq_comm]

theorem entry_keys_inside {key : Bytes} {indexes : List IndexValue} (member : key ∈ entryKeys collection primary_key indexes) :
    INDEX_PREFIX <+: key := by
  obtain ⟨index,-,rfl⟩ := mem_entry_keys.mp member
  exact List.prefix_append _ _

/-- Nothing but the record and its entries is touched. -/
theorem Replaces.elsewhere (replaces : Replaces s t collection primary_key old new) {key : Bytes} (other : key ≠ recordKey collection primary_key)
    (apart : ¬ INDEX_PREFIX <+: key) : t[key]? = s[key]? := by
  obtain ⟨encoded,-,left⟩ := replaces.left
  rw [left key,if_neg (fun member => apart (entry_keys_inside member)),if_neg other,if_neg (fun member => apart (entry_keys_inside member))]

theorem Replaces.kind (replaces : Replaces s t collection primary_key old new) {front key : Bytes} (inside : front <+: key)
    (record : ¬ front <+: RECORD_PREFIX ∧ ¬ RECORD_PREFIX <+: front) (index : ¬ front <+: INDEX_PREFIX ∧ ¬ INDEX_PREFIX <+: front) :
    t[key]? = s[key]? :=
  replaces.elsewhere (key_kinds_apart record inside (List.prefix_append _ _)) (prefixes_apart index inside)

theorem Replaces.own_key (replaces : Replaces s t collection primary_key old new) : ∃ encoded,
    new.mapM (fun record => encode_record_value record.value record.indexes) = .ok encoded ∧ t[recordKey collection primary_key]? = encoded := by
  obtain ⟨encoded,made,left⟩ := replaces.left
  refine ⟨encoded,made,?_⟩
  rw [left,if_neg ?_,if_pos rfl]
  intro member
  exact key_kinds_apart (by decide) (entry_keys_inside member) (List.prefix_append RECORD_PREFIX _) rfl

theorem Replaces.stores_own (replaces : Replaces s t collection primary_key old new) {record : StoredRecord} :
    Stores t collection primary_key record ↔ new = some record := by
  obtain ⟨encoded,made,found⟩ := replaces.own_key
  constructor
  · intro stores
    obtain ⟨bytes,spelled,there⟩ := stores.spelled
    rw [found] at there
    subst there
    cases new with
    | none => cases made
    | some stored =>
      rw [Option.mapM_some] at made
      obtain ⟨first,encoded,done⟩ := bind_ok_iff.mp made
      cases done
      have same := decode_encoded_record encoded
      rw [decode_encoded_record spelled] at same
      cases record
      cases stored
      cases same
      rfl
  · rintro rfl
    rw [Option.mapM_some] at made
    obtain ⟨first,spelled,done⟩ := bind_ok_iff.mp made
    cases done
    exact ⟨replaces.placed,first,spelled,found⟩

theorem Replaces.stores_other (replaces : Replaces s t collection primary_key old new) {other_collection other_key : Bytes} {record : StoredRecord}
    (other : ¬ (other_collection = collection ∧ other_key = primary_key)) :
    Stores t other_collection other_key record ↔ Stores s other_collection other_key record := by
  have same : Placed other_collection other_key →
      t[recordKey other_collection other_key]? = s[recordKey other_collection other_key]? := by
    intro placed
    refine replaces.elsewhere ?_ (prefixes_apart (by decide) (List.prefix_append RECORD_PREFIX _))
    exact fun equal => other (record_key_injective placed replaces.placed equal)
  exact ⟨fun stores => stores.congr (same stores.placed).symm,fun stores => stores.congr (same stores.placed)⟩

/-- The entries of the old record go, and those of the new one come. -/
theorem Replaces.entry (replaces : Replaces s t collection primary_key old new) {key : Bytes} (inside : INDEX_PREFIX <+: key) :
    t[key]? = if key ∈ entryKeys collection primary_key (listed new) then some primary_key
      else if key ∈ entryKeys collection primary_key (listed old) then none else s[key]? := by
  obtain ⟨encoded,-,left⟩ := replaces.left
  rw [left key]
  by_cases added : key ∈ entryKeys collection primary_key (listed new)
  · rw [if_pos added,if_pos added]
  · have other : key ≠ recordKey collection primary_key := key_kinds_apart (by decide) inside (List.prefix_append RECORD_PREFIX _)
    rw [if_neg added,if_neg added,if_neg other]

theorem Replaces.stores_old (replaces : Replaces s t collection primary_key old new) {record : StoredRecord}
    (stores : Stores s collection primary_key record) : old = some record := by
  have found := replaces.found
  rw [stores.read] at found
  cases found
  rfl

/-- An entry of another record is neither among the old ones nor among the new ones. -/
theorem Replaces.foreign (replaces : Replaces s t collection primary_key old new) {other_collection other_key : Bytes} {index : IndexValue}
    (placed : Placed other_collection other_key) (fits : index.Fits) (other : ¬ (other_collection = collection ∧ other_key = primary_key))
    {indexes : List IndexValue} (all_fit : ∀ index ∈ indexes, index.Fits) :
    indexKey other_collection index.index index.value other_key ∉ entryKeys collection primary_key indexes := by
  intro member
  obtain ⟨mine,listed,same⟩ := mem_entry_keys.mp member
  obtain ⟨first,-,last⟩ := index_key_injective placed fits replaces.placed (all_fit mine listed) same
  exact other ⟨first,last⟩

theorem Replaces.new_fits (replaces : Replaces s t collection primary_key old new) : ∀ index ∈ listed new, index.Fits := by
  cases new with
  | none => simp [listed]
  | some record =>
    obtain ⟨encoded,made,-⟩ := replaces.left
    rw [Option.mapM_some] at made
    obtain ⟨bytes,spelled,-⟩ := bind_ok_iff.mp made
    exact encode_record_fits spelled

theorem Replaces.old_fits (replaces : Replaces s t collection primary_key old new) : ∀ index ∈ listed old, index.Fits := by
  rcases read_in_ok replaces.placed replaces.found with ⟨rfl,-⟩ | ⟨record,rfl,stores⟩
  · simp [listed]
  · exact stores.fits

theorem Replaces.entries (projected : Projected s) (replaces : Replaces s t collection primary_key old new) (key value : Bytes)
    (inside : INDEX_PREFIX <+: key) : t[key]? = some value ↔ ∃ collection primary_key record, ∃ index ∈ record.indexes,
      Stores t collection primary_key record ∧ key = indexKey collection index.index index.value primary_key ∧ value = primary_key := by
  rw [replaces.entry inside]
  constructor
  · intro found
    split at found
    · rename_i added
      cases found
      obtain ⟨index,member,rfl⟩ := mem_entry_keys.mp added
      cases new with
      | none => cases member
      | some record => exact ⟨collection,primary_key,record,index,member,replaces.stores_own.mpr rfl,rfl,rfl⟩
    split at found
    · cases found
    · rename_i gone
      obtain ⟨c,pk,record,index,member,stores,rfl,rfl⟩ := (projected.entries key value inside).mp found
      refine ⟨c,_,record,index,member,(replaces.stores_other ?_).mpr stores,rfl,rfl⟩
      rintro ⟨rfl,rfl⟩
      rw [replaces.stores_old stores] at gone
      exact gone (mem_entry_keys.mpr ⟨index,member,rfl⟩)
  · rintro ⟨c,pk,record,index,member,stores,rfl,rfl⟩
    by_cases own : c = collection ∧ value = primary_key
    · obtain ⟨rfl,rfl⟩ := own
      have added : indexKey c index.index index.value value ∈ entryKeys c value (listed (some record)) := mem_entry_keys.mpr ⟨index,member,rfl⟩
      rw [replaces.stores_own.mp stores,if_pos added]
    · have before := (replaces.stores_other own).mp stores
      have fits := before.fits index member
      rw [if_neg (replaces.foreign before.placed fits own replaces.new_fits),if_neg (replaces.foreign before.placed fits own replaces.old_fits)]
      exact (projected.entries _ _ inside).mpr ⟨c,value,record,index,member,before,rfl,rfl⟩

/-- A value that is free for a record is no other record's. -/
theorem Free.alone (projected : Projected s) {index : IndexValue} (free : Free s collection primary_key index)
    (defined : DefinedAs s collection index.index true) {other_key : Bytes} {record : StoredRecord}
    (stores : Stores s collection other_key record) (member : index ∈ record.indexes) : other_key = primary_key := by
  obtain ⟨unique,known,alone⟩ := free
  have flag : unique = true := by
    have same := known.spelled
    rw [defined.spelled] at same
    cases unique with
    | true => rfl
    | false => simp at same
  obtain ⟨-,alone⟩ := alone flag
  have fits := stores.fits index member
  have entry := (projected.entries (indexKey collection index.index index.value other_key) other_key (List.prefix_append _ _)).mpr
    ⟨collection,other_key,record,index,member,stores,rfl,rfl⟩
  refine alone (indexKey collection index.index index.value other_key,other_key) (mem_scan.mpr ⟨(starts_with_iff _ _).mpr ?_,entry⟩)
  exact (index_space_front stores.placed.space fits stores.placed fits).mpr ⟨rfl,rfl⟩

theorem Replaces.projected (projected : Projected s) (replaces : Replaces s t collection primary_key old new) : Projected t := by
  have metas : ∀ collection, t[metaKey collection]? = s[metaKey collection]? :=
    fun _ => replaces.kind (List.prefix_append META_PREFIX _) (by decide) (by decide)
  have indexes : ∀ collection index, t[indexMetaKey collection index]? = s[indexMetaKey collection index]? :=
    fun _ _ => replaces.kind (List.prefix_append INDEX_META_PREFIX _) (by decide) (by decide)
  constructor
  · intro key encoded inside found
    by_cases own : key = recordKey collection primary_key
    · subst own
      obtain ⟨written,made,there⟩ := replaces.own_key
      rw [there] at found
      subst found
      cases stored : new with
      | none =>
        rw [stored] at made
        cases made
      | some record =>
        exact ⟨collection,primary_key,record,(replaces.accepted record stored).1,rfl,replaces.stores_own.mpr stored⟩
    · rw [replaces.elsewhere own (prefixes_apart (by decide) inside)] at found
      obtain ⟨c,pk,record,named,rfl,stores⟩ := projected.records key encoded inside found
      refine ⟨c,pk,record,named,rfl,(replaces.stores_other ?_).mpr stores⟩
      rintro ⟨rfl,rfl⟩
      exact own rfl
  · exact replaces.entries projected
  · intro c pk record stores
    rw [metas]
    by_cases own : c = collection ∧ pk = primary_key
    · obtain ⟨rfl,rfl⟩ := own
      obtain ⟨-,there,free⟩ := replaces.accepted record (replaces.stores_own.mp stores)
      refine ⟨there,fun index member => ?_⟩
      obtain ⟨unique,defined,-⟩ := free index member
      exact ⟨unique,defined.congr (indexes _ _)⟩
    · obtain ⟨there,known⟩ := projected.defined c pk record ((replaces.stores_other own).mp stores)
      refine ⟨there,fun index member => ?_⟩
      obtain ⟨unique,defined⟩ := known index member
      exact ⟨unique,defined.congr (indexes _ _)⟩
  · intro c pk record other_key other first second index member also defined
    have before := defined.congr (indexes c index.index).symm
    by_cases own : c = collection ∧ pk = primary_key
    · obtain ⟨rfl,rfl⟩ := own
      by_cases both : other_key = pk
      · exact both.symm
      · obtain ⟨-,-,free⟩ := replaces.accepted record (replaces.stores_own.mp first)
        exact ((free index member).alone projected before ((replaces.stores_other (fun same => both same.2)).mp second) also).symm
    · have stored := (replaces.stores_other own).mp first
      by_cases theirs : c = collection ∧ other_key = primary_key
      · obtain ⟨rfl,rfl⟩ := theirs
        obtain ⟨-,-,free⟩ := replaces.accepted other (replaces.stores_own.mp second)
        exact (free index also).alone projected before stored member
      · exact projected.unique c pk record other_key other stored ((replaces.stores_other theirs).mp second) index member also before

end

end VoodooStore
