import VoodooStore.CollectionRuns
import VoodooStore.Query
import VoodooStore.Lib.Mapping
import VoodooStore.Lib.Sorting

/-!
# What queries find

Both queries look at the entries of an index, which are those that the records
list. So they find what a filter of the scanned records finds: the exact query
the records with a value, by primary key; the range query the pairs of a value
within the bounds and a record that lists it, by value and primary key.
-/
namespace VoodooStore
open Effects Reading Collections Query Mapping Sorting
set_option linter.unusedSimpArgs false

/-! ## What is defined has a name -/

/-- Collections and their indexes have names, and an index has a collection. -/
structure Introduced (state : State) : Prop where
  collection : ∀ name : Bytes, name.length < 2 ^ 32 → state[metaKey name]? ≠ none → name ≠ []
  index : ∀ collection index : Bytes, collection.length < 2 ^ 32 → index.length < 2 ^ 32 → state[indexMetaKey collection index]? ≠ none →
    index ≠ [] ∧ state[metaKey collection]? ≠ none

theorem introduced_empty : Introduced ∅ := by
  constructor
  · intro name _ there
    simp at there
  · intro collection index _ _ there
    simp at there

theorem Introduced.congr {s t : State} (introduced : Introduced s) (same : ∀ key, CollectionKey key → t[key]? = s[key]?) : Introduced t := by
  constructor
  · intro name short there
    rw [same _ (meta_key_own name)] at there
    exact introduced.collection name short there
  · intro collection index short fits there
    rw [same _ (index_meta_own collection index)] at there
    rw [same _ (meta_key_own collection)]
    exact introduced.index collection index short fits there

/-- Collections and indexes that were there are still there, and nothing else is. -/
theorem Introduced.kept {s t : State} (introduced : Introduced s) (collections : ∀ name, t[metaKey name]? = s[metaKey name]?)
    (indexes : ∀ collection index, t[indexMetaKey collection index]? = s[indexMetaKey collection index]?) : Introduced t := by
  constructor
  · intro name short there
    rw [collections] at there
    exact introduced.collection name short there
  · intro collection index short fits there
    rw [indexes] at there
    rw [collections]
    exact introduced.index collection index short fits there

/-- A collection with a name is defined, or defined again. -/
theorem Introduced.define {s : State} (introduced : Introduced s) {name : Bytes} (short : name.length < 2 ^ 32) (named : name ≠ [])
    (value : Bytes) : Introduced (s.insert (metaKey name) value) := by
  have own : META_PREFIX <+: metaKey name := List.prefix_append _ _
  constructor
  · intro other fits there
    rw [get_insert] at there
    split at there
    · rename_i same
      rw [← meta_key_injective short fits same]
      exact named
    · exact introduced.collection other fits there
  · intro collection index fits size there
    have apart := @insert_kind_apart s _ _ _ (indexMetaKey collection index) value own (List.prefix_append INDEX_META_PREFIX _) (by decide)
    rw [apart] at there
    obtain ⟨indexed,known⟩ := introduced.index collection index fits size there
    refine ⟨indexed,?_⟩
    rw [get_insert]
    split
    · simp
    · exact known

theorem Introduced.note {s : State} (introduced : Introduced s) (name : Bytes) (from_version to_version : UInt32) (value : Bytes) :
    Introduced (s.insert (migrationKey name from_version to_version) value) := by
  have own : MIGRATION_PREFIX <+: migrationKey name from_version to_version := List.prefix_append _ _
  exact introduced.kept (fun _ => insert_kind_apart value own (List.prefix_append META_PREFIX _) (by decide))
    (fun _ _ => insert_kind_apart value own (List.prefix_append INDEX_META_PREFIX _) (by decide))

theorem Introduced.add_index {s : State} (introduced : Introduced s) {collection index : Bytes} (short : collection.length < 2 ^ 32)
    (there : s[metaKey collection]? ≠ none) (named : index ≠ []) (size : index.length < 2 ^ 32) (value : Bytes) :
    Introduced (s.insert (indexMetaKey collection index) value) := by
  have own : INDEX_META_PREFIX <+: indexMetaKey collection index := List.prefix_append _ _
  have collections : ∀ name, (s.insert (indexMetaKey collection index) value)[metaKey name]? = s[metaKey name]? :=
    fun _ => insert_kind_apart value own (List.prefix_append META_PREFIX _) (by decide)
  constructor
  · intro name fits known
    rw [collections] at known
    exact introduced.collection name fits known
  · intro other other_index fits other_size known
    rw [collections]
    rw [get_insert] at known
    split at known
    · rename_i same
      obtain ⟨rfl,rfl⟩ := index_meta_injective short size fits other_size same
      exact ⟨named,there⟩
    · exact introduced.index other other_index fits other_size known

theorem Replaces.introduced {s t : State} {collection primary_key : Bytes} {old new : Option StoredRecord}
    (replaces : Replaces s t collection primary_key old new) (introduced : Introduced s) : Introduced t :=
  introduced.kept (fun _ => replaces.kind (List.prefix_append META_PREFIX _) (by decide) (by decide))
    (fun _ _ => replaces.kind (List.prefix_append INDEX_META_PREFIX _) (by decide) (by decide))

theorem introduced_kept : KeptByCollections Introduced where
  own _ _ same introduced := introduced.congr same
  create done introduced := by
    rcases create_in_ok done with ⟨-,rfl⟩ | ⟨-,named,short,-,-,rfl⟩
    · exact introduced
    · exact introduced.define short named _
  migrate done introduced := by
    obtain ⟨definition,short,-,found,⟨-,-,rfl⟩ | ⟨-,-,-,-,rfl⟩⟩ := migrate_in_ok done
    · exact introduced
    · exact (introduced.define short (introduced.collection _ short (by rw [found]; simp)) _).note _ _ _ _
  define done introduced := by
    rcases define_in_ok done with rfl | ⟨short,there,named,size,-,rfl⟩
    · exact introduced
    · exact introduced.add_index short there named size _
  upsert done introduced := by
    obtain ⟨old,replaces⟩ := upsert_in_ok done
    exact replaces.introduced introduced
  delete done introduced := by
    rcases delete_in_ok done with rfl | ⟨old,replaces⟩
    · exact introduced
    · exact replaces.introduced introduced

/-! ## The records of a collection -/

/-- These are the records of the collection, each once. -/
structure Lists (store : Store) (collection : Bytes) (records : List CollectionRecord) : Prop where
  once : (records.map CollectionRecord.primary_key).Nodup
  all : ∀ record, record ∈ records ↔ store.get_record collection record.primary_key = .ok (some record)

theorem Lists.nodup {store : Store} {collection : Bytes} {records : List CollectionRecord} (lists : Lists store collection records) :
    records.Nodup := lists.once.of_map _

theorem Lists.one {store : Store} {collection : Bytes} {records : List CollectionRecord} (lists : Lists store collection records)
    {a b : CollectionRecord} (first : a ∈ records) (second : b ∈ records) (same : a.primary_key = b.primary_key) : a = b := by
  have here := (lists.all a).mp first
  rw [same,(lists.all b).mp second] at here
  cases here
  rfl

theorem decode_primary_key {collection primary_key : Bytes} (short : primary_key.length < 2 ^ 32) :
    decode_record_primary_key (recordSpace collection) (recordKey collection primary_key) = .ok primary_key := by
  have whole : recordKey collection primary_key = recordSpace collection ++ Tuples.component 4 primary_key := by
    simp [recordKey,recordSpace,Tuples.tuple]
  have size : primary_key.length < 256 ^ 4 := short
  have starts : starts_with (recordKey collection primary_key) (recordSpace collection) = true := by
    rw [starts_with_iff,whole]
    exact List.prefix_append _ _
  unfold decode_record_primary_key
  rw [starts,whole,List.drop_left]
  have len : Endian.ofBe ((Tuples.component 4 primary_key).take 4) = primary_key.length := by
    rw [Tuples.component,List.take_left' (Endian.toBe_length 4 _),Endian.ofBe_toBe size]
  have rest : (Tuples.component 4 primary_key).drop 4 = primary_key := List.drop_left' (Endian.toBe_length 4 _)
  have long : (Tuples.component 4 primary_key).length = 4 + primary_key.length := by
    rw [Tuples.component,List.length_append,Endian.toBe_length]
  rw [Bool.not_true,if_neg (by simp)]
  dsimp only
  rw [if_neg (by omega),len,if_neg (by omega),rest]

theorem record_space_front {collection other_collection other_key : Bytes} (short : collection.length < 2 ^ 32)
    (other : Placed other_collection other_key) : recordSpace collection <+: recordKey other_collection other_key ↔ collection = other_collection := by
  have whole : recordKey other_collection other_key = recordSpace other_collection ++ Tuples.tuple 4 [other_key] := by
    simp [recordKey,recordSpace,Tuples.tuple]
  have front := @Tuples.tuple_front 4 [] (Tuples.tuple 4 [other_key]) [collection] [other_collection] rfl
    (tuple_fits (by simpa using short)) (tuple_fits (by simpa using other.space))
  rw [List.append_nil] at front
  rw [whole,recordSpace,recordSpace,List.append_assoc,List.prefix_append_right_inj,front]
  simp

/-- The loop body of `scan_collection`. -/
def readEntry (front : Bytes) (entry : Bytes × Bytes) : Except CollectionError CollectionRecord := do
  let primary_key ← decode_record_primary_key front entry.1
  let decoded ← decode_record_value entry.2
  return ⟨primary_key,decoded.value,decoded.indexes⟩

theorem stored_entry {store : Store} {collection primary_key : Bytes} {record : StoredRecord}
    (stores : Stores store.state collection primary_key record) : ∃ encoded, store.state[recordKey collection primary_key]? = some encoded ∧
      readEntry (recordSpace collection) (recordKey collection primary_key,encoded) = .ok ⟨primary_key,record.value,record.indexes⟩ := by
  obtain ⟨encoded,made,found⟩ := stores.spelled
  refine ⟨encoded,found,?_⟩
  unfold readEntry
  rw [decode_primary_key stores.placed.key,ok_bind,decode_encoded_record made]
  rfl

/-- What lies under the prefix of a collection is one of its records. -/
theorem record_entry {store : Store} (projected : Projected store.state) {collection key encoded : Bytes} (short : collection.length < 2 ^ 32)
    (inside : recordSpace collection <+: key) (found : store.state[key]? = some encoded) : ∃ record : CollectionRecord,
      key = recordKey collection record.primary_key ∧ store.get_record collection record.primary_key = .ok (some record) ∧
      readEntry (recordSpace collection) (key,encoded) = .ok record := by
  obtain ⟨other,primary_key,record,-,rfl,stores⟩ := projected.records key encoded ((List.prefix_append _ _).trans inside) found
  obtain rfl := (record_space_front short stores.placed).mp inside
  obtain ⟨spelled,there,reads⟩ := stored_entry stores
  cases found.symm.trans there
  exact ⟨⟨primary_key,record.value,record.indexes⟩,rfl,get_record_iff.mpr ⟨rfl,stores⟩,reads⟩

/-- The code reads every record of the collection, and no other. -/
theorem scan_collection_lists {store : Store} (projected : Projected store.state) {collection : Bytes} (short : collection.length < 2 ^ 32) :
    ∃ records, store.scan_collection collection = .ok records ∧ Lists store collection records := by
  have owned : ∀ entry ∈ scan store.state (recordSpace collection), ∃ record : CollectionRecord,
      entry.1 = recordKey collection record.primary_key ∧ store.get_record collection record.primary_key = .ok (some record) ∧
      readEntry (recordSpace collection) entry = .ok record := by
    rintro ⟨key,encoded⟩ member
    obtain ⟨inside,found⟩ := mem_scan.mp member
    exact record_entry projected short ((starts_with_iff _ _).mp inside) found
  obtain ⟨records,read⟩ := mapM_total (fun entry member => (owned entry member).imp (fun _ facts => facts.2.2))
  have pairs := mapM_forall read
  obtain ⟨keys,sources⟩ := @forall_mapped _ _ _ _ _ _ Prod.fst (fun record : CollectionRecord => recordKey collection record.primary_key) pairs
    (by
      intro entry member record reads
      obtain ⟨other,at_key,-,again⟩ := owned entry member
      cases again.symm.trans reads
      exact at_key)
  refine ⟨records,?_,?_,?_⟩
  · exact bind_ok_iff.mpr ⟨_,record_prefix_ok.mpr ⟨short,rfl⟩,read⟩
  · have distinct := scan_keys_nodup store.state (recordSpace collection)
    rw [keys,← Function.comp_def (recordKey collection) CollectionRecord.primary_key,← List.map_map] at distinct
    exact distinct.of_map
  · intro record
    constructor
    · intro member
      obtain ⟨entry,inside,reads⟩ := sources record member
      obtain ⟨other,-,stored,again⟩ := owned entry inside
      cases again.symm.trans reads
      exact stored
    · intro stored
      obtain ⟨-,stores⟩ := get_record_iff.mp stored
      obtain ⟨encoded,found,reads⟩ := stored_entry stores
      have own : starts_with (recordKey collection record.primary_key) (recordSpace collection) = true :=
        (starts_with_iff _ _).mpr ((record_space_front short stores.placed).mpr rfl)
      obtain ⟨result,inside,again⟩ := forall_reached pairs _ (mem_scan.mpr ⟨own,found⟩)
      cases reads.symm.trans again
      exact inside

/-! ## The exact query -/

/-- A key is refused for the length of a component. -/
theorem component_key_refuses {ε : Type} {too_large e : ε} {front : Bytes} {components : List Bytes}
    (refused : Collections.component_key too_large front components = .error e) : e = too_large := by
  induction components generalizing front with
  | nil => cases refused
  | cons component components ih =>
    unfold Collections.component_key at refused
    cases size : UInt32.try_from component.length with
    | none =>
      rw [size] at refused
      cases refused
      rfl
    | some len =>
      rw [size] at refused
      exact ih refused

section
variable {store : Store} {collection index : Bytes} {records : List CollectionRecord}

theorem Lists.stores (lists : Lists store collection records) {record : CollectionRecord} (member : record ∈ records) :
    Stores store.state collection record.primary_key ⟨record.value,record.indexes⟩ :=
  (get_record_iff.mp ((lists.all record).mp member)).2

theorem Lists.of_stores (lists : Lists store collection records) {primary_key : Bytes} {record : StoredRecord}
    (stores : Stores store.state collection primary_key record) : (⟨primary_key,record.value,record.indexes⟩ : CollectionRecord) ∈ records :=
  (lists.all _).mpr (get_record_iff.mpr ⟨rfl,stores⟩)

/-- The entries under a value of an index name the records that list it. -/
theorem value_entry_iff (projected : Projected store.state) (lists : Lists store collection records) {value key owner : Bytes}
    (short : collection.length < 2 ^ 32) (fits : IndexValue.Fits ⟨index,value⟩) :
    (key,owner) ∈ scan store.state (indexSpace collection index value) ↔ ∃ record ∈ records, ⟨index,value⟩ ∈ record.indexes ∧
      key = indexKey collection index value record.primary_key ∧ owner = record.primary_key := by
  rw [mem_scan,starts_with_iff]
  constructor
  · rintro ⟨inside,found⟩
    obtain ⟨other,primary_key,record,listed,member,stores,rfl,rfl⟩ := (projected.entries key owner ((List.prefix_append _ _).trans inside)).mp found
    obtain ⟨rfl,rfl⟩ := (index_space_front short fits stores.placed (stores.fits listed member)).mp inside
    exact ⟨_,lists.of_stores stores,member,rfl,rfl⟩
  · rintro ⟨record,inside,member,rfl,rfl⟩
    have stores := lists.stores inside
    have own := (@index_space_front collection collection record.primary_key ⟨index,value⟩ ⟨index,value⟩ short fits stores.placed fits).mpr
      ⟨rfl,rfl⟩
    have entry := (projected.entries (indexKey collection index value record.primary_key) record.primary_key (List.prefix_append _ _)).mpr
      ⟨collection,record.primary_key,⟨record.value,record.indexes⟩,⟨index,value⟩,member,stores,rfl,rfl⟩
    exact ⟨own,entry⟩

theorem records_of_ok {entries : List (Bytes × Bytes)} (reads : ∀ entry ∈ entries, ∃ record,
    store.get_record collection entry.2 = .ok (some record)) : ∃ found, records_of store collection entries = .ok found ∧
      found.map CollectionRecord.primary_key = entries.map Prod.snd ∧
      ∀ record ∈ found, store.get_record collection record.primary_key = .ok (some record) := by
  induction entries with
  | nil => exact ⟨[],rfl,rfl,by simp⟩
  | cons entry entries ih =>
    obtain ⟨record,read⟩ := reads entry (by simp)
    obtain ⟨found,rest,keys,stored⟩ := ih (fun other member => reads other (by simp [member]))
    have own := (get_record_iff.mp read).1
    refine ⟨record :: found,?_,?_,?_⟩
    · unfold records_of
      rw [read,ok_bind,rest]
      rfl
    · rw [List.map_cons,List.map_cons,keys,own]
    · intro other member
      rcases List.mem_cons.mp member with rfl | later
      · rw [own]
        exact read
      · exact stored other later

/-- By primary key. -/
def byKey (a b : CollectionRecord) : Ordering := compare a.primary_key b.primary_key

instance : Std.TransCmp byKey := inferInstanceAs (Std.TransCmp (compareOn CollectionRecord.primary_key))

/-- The records that list the value, by primary key. -/
def exactAnswer (records : List CollectionRecord) (index value : Bytes) : List CollectionRecord :=
  sorted byKey (records.filter (fun record => (⟨index,value⟩ : IndexValue) ∈ record.indexes))

theorem query_exact_eq (projected : Projected store.state) (lists : Lists store collection records) {definition : IndexDefinition}
    (known : index_definition store collection index = .ok definition) (value : Bytes) :
    store.query_index_exact collection index value =
      if value.length < 2 ^ 32 then .ok (exactAnswer records index value) else .error .ComponentTooLarge := by
  obtain ⟨-,defined⟩ := index_in_ok.mp known
  have short := defined.space
  unfold Store.query_index_exact
  rw [known,ok_bind]
  by_cases fits : value.length < 2 ^ 32
  · have made := index_value_prefix_ok.mpr ⟨⟨short,defined.name,fits⟩,rfl⟩
    have entry_iff : ∀ {key owner : Bytes}, _ := fun {key owner} =>
      @value_entry_iff store collection index records projected lists value key owner short ⟨defined.name,fits⟩
    have reads : ∀ entry ∈ scan store.state (indexSpace collection index value), ∃ record,
        store.get_record collection entry.2 = .ok (some record) := by
      rintro ⟨key,owner⟩ member
      obtain ⟨record,inside,-,-,rfl⟩ := entry_iff.mp member
      exact ⟨record,(lists.all record).mp inside⟩
    obtain ⟨found,read,keys,stored⟩ := records_of_ok reads
    have listed : ∀ record, record ∈ found ↔ record ∈ records ∧ (⟨index,value⟩ : IndexValue) ∈ record.indexes := by
      intro record
      constructor
      · intro member
        have inside := (lists.all record).mpr (stored record member)
        have key : record.primary_key ∈ (scan store.state (indexSpace collection index value)).map Prod.snd := by
          rw [← keys]
          exact List.mem_map_of_mem member
        obtain ⟨⟨at_key,owner⟩,entry,owned⟩ := List.mem_map.mp key
        obtain ⟨other,also,has,-,is⟩ := entry_iff.mp entry
        rw [lists.one inside also (owned.symm.trans is)]
        exact ⟨also,has⟩
      · rintro ⟨inside,has⟩
        have key : record.primary_key ∈ found.map CollectionRecord.primary_key := by
          rw [keys]
          exact List.mem_map.mpr ⟨_,entry_iff.mpr ⟨record,inside,has,rfl,rfl⟩,rfl⟩
        obtain ⟨other,member,same⟩ := List.mem_map.mp key
        rw [← lists.one ((lists.all other).mpr (stored other member)) inside same]
        exact member
    have once : (found.map CollectionRecord.primary_key).Nodup := by
      have distinct := scan_keys_nodup store.state (indexSpace collection index value)
      have spelled : (scan store.state (indexSpace collection index value)).map Prod.fst =
          ((scan store.state (indexSpace collection index value)).map Prod.snd).map (indexKey collection index value) := by
        rw [List.map_map]
        refine List.map_congr_left ?_
        rintro ⟨key,owner⟩ member
        obtain ⟨record,-,-,rfl,rfl⟩ := entry_iff.mp member
        rfl
      rw [spelled] at distinct
      rw [keys]
      exact distinct.of_map
    have same : found.Perm (records.filter (fun record => (⟨index,value⟩ : IndexValue) ∈ record.indexes)) := by
      refine (List.perm_ext_iff_of_nodup once.of_map (lists.nodup.filter _)).mpr ?_
      intro record
      rw [listed,List.mem_filter,decide_eq_true_eq]
    rw [made,ok_bind,scan_prefix_eq,read,ok_bind,if_pos fits]
    refine congrArg Except.ok (@sorted_of_perm _ byKey _ _ _ same ?_)
    intro a first b second equal
    have keyed : a.primary_key = b.primary_key := Std.LawfulEqOrd.eq_of_compare equal
    exact lists.one ((listed a).mp first).1 ((listed b).mp second).1 keyed
  · have refused : index_value_prefix collection index value = .error .ComponentTooLarge := by
      cases made : index_value_prefix collection index value with
      | ok front => exact absurd (index_value_prefix_ok.mp made).1.2.2 fits
      | error e => rw [component_key_refuses made]
    rw [refused,if_neg fits]
    rfl

/-! ## The range query -/

/-- What lies under an index. -/
def indexFront (collection index : Bytes) : Bytes := INDEX_PREFIX ++ Tuples.tuple 4 [collection,index]

theorem index_front_iff {other_collection other_key : Bytes} {other_index : IndexValue} (short : collection.length < 2 ^ 32)
    (size : index.length < 2 ^ 32) (other : Placed other_collection other_key) (other_fits : other_index.Fits) :
    indexFront collection index <+: indexKey other_collection other_index.index other_index.value other_key ↔
      collection = other_collection ∧ index = other_index.index := by
  have whole : indexKey other_collection other_index.index other_index.value other_key =
      indexFront other_collection other_index.index ++ Tuples.tuple 4 [other_index.value,other_key] := by
    simp [indexKey,indexFront,Tuples.tuple]
  have front := @Tuples.tuple_front 4 [] (Tuples.tuple 4 [other_index.value,other_key]) [collection,index]
    [other_collection,other_index.index] rfl (tuple_fits (by simpa using And.intro short size))
    (tuple_fits (by simpa using And.intro other.space other_fits.name))
  rw [List.append_nil] at front
  rw [whole,indexFront,indexFront,List.append_assoc,List.prefix_append_right_inj,front]
  simp

/-- The entries of an index name the records and their values. -/
theorem index_entry_iff (projected : Projected store.state) (lists : Lists store collection records) {key owner : Bytes}
    (short : collection.length < 2 ^ 32) (size : index.length < 2 ^ 32) :
    (key,owner) ∈ scan store.state (indexFront collection index) ↔ ∃ record ∈ records, ∃ value, ⟨index,value⟩ ∈ record.indexes ∧
      key = indexKey collection index value record.primary_key ∧ owner = record.primary_key := by
  rw [mem_scan,starts_with_iff]
  constructor
  · rintro ⟨inside,found⟩
    obtain ⟨other,primary_key,record,listed,member,stores,rfl,rfl⟩ := (projected.entries key owner ((List.prefix_append _ _).trans inside)).mp found
    obtain ⟨rfl,rfl⟩ := (index_front_iff short size stores.placed (stores.fits listed member)).mp inside
    exact ⟨_,lists.of_stores stores,listed.value,member,rfl,rfl⟩
  · rintro ⟨record,inside,value,member,rfl,rfl⟩
    have stores := lists.stores inside
    have own := (@index_front_iff collection index collection record.primary_key ⟨index,value⟩ short size stores.placed
      (stores.fits _ member)).mpr ⟨rfl,rfl⟩
    have entry := (projected.entries (indexKey collection index value record.primary_key) record.primary_key (List.prefix_append _ _)).mpr
      ⟨collection,record.primary_key,⟨record.value,record.indexes⟩,⟨index,value⟩,member,stores,rfl,rfl⟩
    exact ⟨own,entry⟩

theorem parses_component {value : Bytes} (fits : value.length < 2 ^ 32) :
    Parses USIZE read_component (Tuples.component 4 value) value := by
  have size : value.length < 256 ^ 4 := fits
  have four : (Endian.toBe 4 value.length).length = 4 := Endian.toBe_length 4 _
  have len : Parses USIZE (Fields.take 4 : Fields QueryError Bytes) (Endian.toBe 4 value.length) (Endian.toBe 4 value.length) := by
    have taken := @parses_take QueryError USIZE Corrupt.corrupt (Endian.toBe 4 value.length)
    rwa [four] at taken
  refine len.bind ?_
  rw [Endian.ofBe_toBe size]
  exact parses_take _ value

/-- The key of an entry is read as its value and its primary key. -/
theorem decode_entry {value primary_key : Bytes} (short : collection.length < 2 ^ 32) (fits : IndexValue.Fits ⟨index,value⟩)
    (key : primary_key.length < 2 ^ 32) :
    decode_index_entry (indexFront collection index) (indexKey collection index value primary_key) = .ok (value,primary_key) := by
  have whole : indexKey collection index value primary_key =
      indexFront collection index ++ (Tuples.component 4 value ++ Tuples.component 4 primary_key) := by
    simp [indexKey,indexFront,Tuples.tuple]
  have starts : starts_with (indexKey collection index value primary_key) (indexFront collection index) = true := by
    rw [starts_with_iff,whole]
    exact List.prefix_append _ _
  have parses : Parses USIZE (do return (← read_component,← read_component) : Fields QueryError (Bytes × Bytes))
      (Tuples.component 4 value ++ Tuples.component 4 primary_key) (value,primary_key) :=
    (parses_component fits.value).bind ((parses_component key).ends (parses_pure _))
  have small : (indexFront collection index).length + (Tuples.component 4 value ++ Tuples.component 4 primary_key).length < USIZE := by
    have kind : INDEX_PREFIX.length = 15 := rfl
    have name := fits.name
    have valued := fits.value
    have word : USIZE = 2 ^ 64 := rfl
    simp only [indexFront,Tuples.tuple,Tuples.component,List.flatMap_cons,List.flatMap_nil,List.append_nil,List.length_append,
      Endian.toBe_length,kind]
    dsimp only at name valued
    omega
  have read := parses (indexFront collection index) [] small
  rw [List.append_nil] at read
  unfold decode_index_entry
  rw [starts,whole,List.drop_left,Bool.not_true,if_neg (by simp),read]
  simp [Position.finished,Position.at]

/-- The value and the primary key in the key of an entry. -/
def entryPair (front : Bytes) (entry : Bytes × Bytes) : Bytes × Bytes := (decode_index_entry front entry.1).toOption.getD ([],[])

theorem matching_ok {front : Bytes} {query : IndexRangeQuery} {entries : List (Bytes × Bytes)}
    (each : ∀ entry ∈ entries, ∃ value, decode_index_entry front entry.1 = .ok (value,entry.2)) :
    matching front query entries =
      .ok ((entries.map (entryPair front)).filter (fun pair => within_bounds pair.1 query.start query.stop)) := by
  induction entries with
  | nil => rfl
  | cons entry entries ih =>
    obtain ⟨value,decoded⟩ := each entry (by simp)
    have pair : entryPair front entry = (value,entry.2) := by
      unfold entryPair
      rw [decoded]
      rfl
    unfold matching
    rw [decoded,ok_bind]
    dsimp only
    rw [if_neg (by simp),ih (fun other member => each other (by simp [member])),ok_bind,List.map_cons,List.filter_cons,pair]
    by_cases within : within_bounds value query.start query.stop = true
    · rw [if_pos within]
      rfl
    · rw [if_neg within]
      rfl

/-- The key of a pair. -/
def IndexedRecord.key (item : IndexedRecord) : Bytes × Bytes := (item.index_value,item.record.primary_key)

theorem fetch_ok {found : List IndexedRecord} (reads : ∀ item ∈ found,
    store.get_record collection item.record.primary_key = .ok (some item.record)) :
    fetch store collection (found.map IndexedRecord.key) = .ok found := by
  induction found with
  | nil => rfl
  | cons item found ih =>
    rw [List.map_cons,IndexedRecord.key]
    unfold fetch
    rw [reads item (by simp),ih (fun other member => reads other (by simp [member]))]
    rfl

/-- The pairs of a value of the index within the bounds and a record that lists it. -/
def indexPairs (records : List CollectionRecord) (index : Bytes) (query : IndexRangeQuery) : List IndexedRecord :=
  records.flatMap (fun record =>
    ((record.indexes.filter (fun entry => entry.index = index ∧ within_bounds entry.value query.start query.stop)).map IndexValue.value).dedup.map
      (fun value => ⟨value,record⟩))

theorem mem_index_pairs {query : IndexRangeQuery} {item : IndexedRecord} : item ∈ indexPairs records index query ↔
    item.record ∈ records ∧ ⟨index,item.index_value⟩ ∈ item.record.indexes ∧ within_bounds item.index_value query.start query.stop = true := by
  unfold indexPairs
  rw [List.mem_flatMap]
  constructor
  · rintro ⟨record,inside,member⟩
    obtain ⟨value,listed,rfl⟩ := List.mem_map.mp member
    obtain ⟨entry,kept,rfl⟩ := List.mem_map.mp (List.mem_dedup.mp listed)
    obtain ⟨there,accepted⟩ := List.mem_filter.mp kept
    obtain ⟨rfl,within⟩ := of_decide_eq_true accepted
    exact ⟨inside,there,within⟩
  · rintro ⟨inside,there,within⟩
    refine ⟨item.record,inside,List.mem_map.mpr ⟨item.index_value,List.mem_dedup.mpr ?_,rfl⟩⟩
    exact List.mem_map.mpr ⟨_,List.mem_filter.mpr ⟨there,decide_eq_true ⟨rfl,within⟩⟩,rfl⟩

/-- No pair is there twice. -/
theorem index_pairs_nodup (lists : Lists store collection records) (query : IndexRangeQuery) : (indexPairs records index query).Nodup := by
  unfold indexPairs
  rw [List.nodup_flatMap]
  constructor
  · intro record _
    refine (List.nodup_dedup _).map ?_
    intro a b same
    exact congrArg IndexedRecord.index_value same
  · refine lists.nodup.imp ?_
    intro a b different item first second
    obtain ⟨_,-,rfl⟩ := List.mem_map.mp first
    obtain ⟨_,-,same⟩ := List.mem_map.mp second
    exact different (congrArg IndexedRecord.record same).symm

/-- By value and then by primary key. -/
def byPair (a b : Bytes × Bytes) : Ordering := (compare a.1 b.1).then (compare a.2 b.2)

instance : Std.TransCmp byPair := inferInstanceAs (Std.TransCmp (compareLex (compareOn Prod.fst) (compareOn Prod.snd)))

/-- What a range query answers: the pairs in order, forwards or backwards, as many as it asks for. -/
def rangeAnswer (records : List CollectionRecord) (index : Bytes) (query : IndexRangeQuery) : List IndexedRecord :=
  let found := sorted (fun a b => byPair a.key b.key) (indexPairs records index query)
  let found := if query.order = .Descending then found.reverse else found
  match query.limit with
  | some limit => found.take limit
  | none => found


theorem keys_nodup (lists : Lists store collection records) (query : IndexRangeQuery) :
    ((indexPairs records index query).map IndexedRecord.key).Nodup := by
  refine (index_pairs_nodup lists query).map_on ?_
  rintro ⟨value,record⟩ first ⟨other_value,other⟩ second same
  have valued : value = other_value := congrArg Prod.fst same
  have recorded : record = other := lists.one (mem_index_pairs.mp first).1 (mem_index_pairs.mp second).1 (congrArg Prod.snd same)
  rw [valued,recorded]

/-- The pairs that the loop finds are those of the records. -/
theorem found_pairs (projected : Projected store.state) (lists : Lists store collection records) (short : collection.length < 2 ^ 32)
    (size : index.length < 2 ^ 32) (query : IndexRangeQuery) : ∃ found, matching (indexFront collection index) query
      (scan store.state (indexFront collection index)) = .ok found ∧ found.Perm ((indexPairs records index query).map IndexedRecord.key) := by
  have entry_iff : ∀ key owner : Bytes, _ := fun key owner => @index_entry_iff store collection index records projected lists key owner short size
  have decodes : ∀ record ∈ records, ∀ value, ⟨index,value⟩ ∈ record.indexes →
      decode_index_entry (indexFront collection index) (indexKey collection index value record.primary_key) = .ok (value,record.primary_key) :=
    fun record inside value member => decode_entry short ((lists.stores inside).fits _ member) (lists.stores inside).placed.key
  have each : ∀ entry ∈ scan store.state (indexFront collection index), ∃ value,
      decode_index_entry (indexFront collection index) entry.1 = .ok (value,entry.2) := by
    rintro ⟨key,owner⟩ member
    obtain ⟨record,inside,value,listed,rfl,rfl⟩ := (entry_iff key owner).mp member
    exact ⟨value,decodes record inside value listed⟩
  refine ⟨_,matching_ok each,?_⟩
  -- the pairs of all entries, each of which has a key of its own
  have pairs : ∀ value primary_key, (value,primary_key) ∈ (scan store.state (indexFront collection index)).map (entryPair (indexFront collection index)) ↔
      ∃ record ∈ records, ⟨index,value⟩ ∈ record.indexes ∧ primary_key = record.primary_key := by
    intro value primary_key
    rw [List.mem_map]
    constructor
    · rintro ⟨⟨key,owner⟩,member,decoded⟩
      obtain ⟨record,inside,other,listed,rfl,rfl⟩ := (entry_iff key owner).mp member
      rw [entryPair,decodes record inside other listed] at decoded
      cases decoded
      exact ⟨record,inside,listed,rfl⟩
    · rintro ⟨record,inside,listed,rfl⟩
      refine ⟨_,(entry_iff _ _).mpr ⟨record,inside,value,listed,rfl,rfl⟩,?_⟩
      rw [entryPair,decodes record inside value listed]
      rfl
  have once : ((scan store.state (indexFront collection index)).map (entryPair (indexFront collection index))).Nodup := by
    have distinct := scan_keys_nodup store.state (indexFront collection index)
    have spelled : (scan store.state (indexFront collection index)).map Prod.fst =
        ((scan store.state (indexFront collection index)).map (entryPair (indexFront collection index))).map
          (fun pair => indexKey collection index pair.1 pair.2) := by
      rw [List.map_map]
      refine List.map_congr_left ?_
      rintro ⟨key,owner⟩ member
      obtain ⟨record,inside,value,listed,rfl,rfl⟩ := (entry_iff key owner).mp member
      rw [Function.comp_apply,entryPair,decodes record inside value listed]
      rfl
    rw [spelled] at distinct
    exact distinct.of_map
  refine (List.perm_ext_iff_of_nodup (once.filter _) (keys_nodup lists query)).mpr ?_
  rintro ⟨value,primary_key⟩
  rw [List.mem_filter,pairs,List.mem_map]
  constructor
  · rintro ⟨⟨record,inside,listed,rfl⟩,within⟩
    exact ⟨⟨value,record⟩,mem_index_pairs.mpr ⟨inside,listed,within⟩,rfl⟩
  · rintro ⟨item,member,same⟩
    cases same
    obtain ⟨inside,listed,within⟩ := mem_index_pairs.mp member
    exact ⟨⟨item.record,inside,listed,rfl⟩,within⟩

theorem query_range_eq (projected : Projected store.state) (introduced : Introduced store.state) (lists : Lists store collection records)
    {definition : IndexDefinition} (known : index_definition store collection index = .ok definition) (query : IndexRangeQuery) :
    store.query_index_range collection index query = .ok (rangeAnswer records index query) := by
  obtain ⟨-,defined⟩ := index_in_ok.mp known
  have short := defined.space
  have size := defined.name
  have there : store.state[indexMetaKey collection index]? ≠ none := by
    rw [defined.spelled]
    simp
  obtain ⟨named,created⟩ := introduced.index collection index short size there
  have existing := introduced.collection collection short created
  have meta_key : component_key INDEX_META_PREFIX [collection,index] = .ok (indexMetaKey collection index) :=
    component_key_ok.mpr ⟨by simpa using And.intro short size,rfl⟩
  have valid : validate_index_exists store collection index = .ok () := by
    have found : store.get (indexMetaKey collection index) = some [FORMAT_VERSION,if definition.unique then 1 else 0] := defined.spelled
    unfold validate_index_exists
    rw [meta_key,ok_bind,found]
    cases definition.unique <;> rfl
  have front : component_key INDEX_PREFIX [collection,index] = .ok (indexFront collection index) :=
    component_key_ok.mpr ⟨by simpa using And.intro short size,rfl⟩
  obtain ⟨found,matched,same⟩ := found_pairs projected lists short size query
  unfold Store.query_index_range
  rw [if_neg (by simp [named,existing]),valid,ok_bind]
  by_cases none_wanted : query.limit = some 0
  · rw [if_pos none_wanted]
    simp [rangeAnswer,none_wanted]
  have ordered : found.mergeSort (fun left right => ((compare left.1 right.1).then (compare left.2 right.2)).isLE) =
      (sorted (fun a b => byPair a.key b.key) (indexPairs records index query)).map IndexedRecord.key := by
    have permuted : sorted byPair found = sorted byPair ((indexPairs records index query).map IndexedRecord.key) := by
      refine sorted_of_perm same ?_
      rintro ⟨a,b⟩ - ⟨c,d⟩ - equal
      obtain ⟨first,second⟩ := Ordering.then_eq_eq.mp equal
      exact Prod.ext (Std.LawfulEqOrd.eq_of_compare first) (Std.LawfulEqOrd.eq_of_compare second)
    refine permuted.trans (List.map_mergeSort ?_).symm
    exact fun a _ b _ => rfl
  have genuine : ∀ item ∈ sorted (fun a b => byPair a.key b.key) (indexPairs records index query),
      store.get_record collection item.record.primary_key = .ok (some item.record) := by
    intro item member
    have inside := (mem_index_pairs.mp ((sorted_perm _).mem_iff.mp member)).1
    exact (lists.all item.record).mp inside
  rw [if_neg none_wanted,front,ok_bind,scan_prefix_eq,matched,ok_bind]
  dsimp only
  rw [ordered]
  unfold rangeAnswer
  generalize sorted (fun a b => byPair a.key b.key) (indexPairs records index query) = answers at genuine
  have turned : ∀ item ∈ if query.order = .Descending then answers.reverse else answers,
      store.get_record collection item.record.primary_key = .ok (some item.record) := by
    intro item member
    split at member
    · exact genuine item (List.mem_reverse.mp member)
    · exact genuine item member
  have through : (if query.order = .Descending then (answers.map IndexedRecord.key).reverse else answers.map IndexedRecord.key) =
      (if query.order = .Descending then answers.reverse else answers).map IndexedRecord.key := by
    split
    · rw [List.map_reverse]
    · rfl
  rw [through]
  cases query.limit with
  | none => exact fetch_ok turned
  | some limit =>
    dsimp only
    rw [← List.map_take]
    exact fetch_ok (fun item member => turned item (List.mem_of_mem_take member))

end

/-! ## Queries in use -/

/-- Queries on the indexes that are defined answer as filters of the scanned records, each of which is there once. No record
    lists a value of 2^32 bytes, and such a value is refused. -/
def QueriesExact (store : Store) : Prop :=
  ∀ collection index definition, index_definition store collection index = .ok definition →
    ∃ records, store.scan_collection collection = .ok records ∧ (records.map CollectionRecord.primary_key).Nodup ∧
      (∀ value, store.query_index_exact collection index value =
        if value.length < 2 ^ 32 then .ok (exactAnswer records index value) else .error .ComponentTooLarge) ∧
      ∀ query, store.query_index_range collection index query = .ok (rangeAnswer records index query)

theorem Projected.queries {store : Store} (projected : Projected store.state) (introduced : Introduced store.state) : QueriesExact store := by
  intro collection index definition known
  obtain ⟨-,defined⟩ := index_in_ok.mp known
  obtain ⟨records,scanned,lists⟩ := scan_collection_lists projected defined.space
  exact ⟨records,scanned,lists.once,query_exact_eq projected lists known,query_range_eq projected introduced lists known⟩

section
variable [Hashes]

/-- In every store that a run on a new one leads to the queries are exact, as long as no transaction is committed of which a
    call had failed halfway. -/
theorem queries_equal_filters {io : Io} {path : Path} {options : StoreOptions} {store : Store} {left : Bytes}
    (opened : open_with_options io path options [] = .ok store left) {moves : List (Move CollectionCall CollectionTxCall)}
    (along : (Play.mk (.Idle store) []).Along collections collectionTerms moves) :
    QueriesExact (Play.steps collections ⟨.Idle store,[]⟩ moves).session.store := by
  have projected := (play_invariant (collections_preserved projected_kept) ⟨projected_empty,by simp⟩ opened along).holds.1
  have introduced := (play_invariant (collections_preserved introduced_kept) ⟨introduced_empty,by simp⟩ opened along).holds.1
  exact projected.queries introduced

end

/-- Four records, of which one has two values of an index and another none. -/
def indexedRecords : List (Move CollectionCall CollectionTxCall) :=
  [.Call (.CreateCollection calm [99] .default),.Call (.DefineIndex calm [99] ⟨[105],false⟩),
    .Call (.UpsertRecord calm [99] [3] [7] [⟨[105],[1]⟩]),.Call (.UpsertRecord calm [99] [1] [8] [⟨[105],[2]⟩,⟨[105],[4]⟩]),
    .Call (.UpsertRecord calm [99] [2] [9] [⟨[105],[1]⟩]),.Call (.UpsertRecord calm [99] [4] [6] [])]

/-- The two largest values below four. -/
def largestTwo : IndexRangeQuery := ⟨.Unbounded,.Excluded [4],.Descending,some 2⟩

set_option maxRecDepth 20000 in
theorem indexed_records_queries : ∃ store left, @open_with_options crates calm ["a.vstore"] .default [] = .ok store left ∧
    let next := (@Play.steps crates _ _ _ _ (@collections crates) ⟨.Idle store,[]⟩ indexedRecords).session.store
    QueriesExact next ∧
      next.query_index_exact [99] [105] [1] = .ok [⟨[2],[9],[⟨[105],[1]⟩]⟩,⟨[3],[7],[⟨[105],[1]⟩]⟩] ∧
      next.query_index_range [99] [105] largestTwo =
        .ok [⟨[2],⟨[1],[8],[⟨[105],[2]⟩,⟨[105],[4]⟩]⟩⟩,⟨[1],⟨[3],[7],[⟨[105],[1]⟩]⟩⟩] := by
  obtain ⟨store,left,opened⟩ := @sound_opens crates calm [] ["a.vstore"] .default calm_faultless (.inl rfl)
  have evaluated : passes (@open_with_options crates calm ["a.vstore"] .default []) (fun store _ =>
      let next := (@Play.steps crates _ _ _ _ (@collections crates) ⟨.Idle store,[]⟩ indexedRecords).session.store
      decide ((index_definition next [99] [105]).toOption = some ⟨[105],false⟩ ∧ (next.scan_collection [99]).toOption =
        some [⟨[1],[8],[⟨[105],[2]⟩,⟨[105],[4]⟩]⟩,⟨[2],[9],[⟨[105],[1]⟩]⟩,⟨[3],[7],[⟨[105],[1]⟩]⟩,⟨[4],[6],[]⟩])) = true := by
    rw [crates_eq_quick]
    decide +kernel
  rw [opened,passes_ok] at evaluated
  obtain ⟨defined,listed⟩ := of_decide_eq_true evaluated
  have queries := @queries_equal_filters crates _ _ _ _ _ opened indexedRecords (by
    refine @along_of_fine crates _ _ _ _ _ collectionTerms (fun call => call.io.Durable) (fun call => call.io.Durable) _
      (fun _ _ durable => durable) (fun _ _ durable => durable) (fun io _ member => by simp [indexedRecords] at member) ?_ _
    intro move member
    simp only [indexedRecords,List.mem_cons,List.not_mem_nil,or_false] at member
    rcases member with rfl | rfl | rfl | rfl | rfl | rfl <;> exact calm_durable)
  obtain ⟨records,scanned,-,found,ranged⟩ := queries [99] [105] _ (toOption_some.mp defined)
  rw [toOption_some.mp listed] at scanned
  cases scanned
  refine ⟨store,left,opened,queries,?_,?_⟩
  · rw [found,if_pos (by decide)]
    refine congrArg Except.ok ?_
    unfold exactAnswer sorted
    exact List.mergeSort_of_pairwise (by decide)
  · rw [ranged]
    refine congrArg Except.ok ?_
    have ordered : sorted (fun a b => byPair a.key b.key) (indexPairs [⟨[1],[8],[⟨[105],[2]⟩,⟨[105],[4]⟩]⟩,⟨[2],[9],[⟨[105],[1]⟩]⟩,
          ⟨[3],[7],[⟨[105],[1]⟩]⟩,⟨[4],[6],[]⟩] [105] largestTwo) =
        [⟨[1],⟨[2],[9],[⟨[105],[1]⟩]⟩⟩,⟨[1],⟨[3],[7],[⟨[105],[1]⟩]⟩⟩,⟨[2],⟨[1],[8],[⟨[105],[2]⟩,⟨[105],[4]⟩]⟩⟩] := by
      have orders : Std.TransCmp (fun a b : IndexedRecord => byPair a.key b.key) :=
        inferInstanceAs (Std.TransCmp (compareLex (compareOn (fun a : IndexedRecord => a.key.1)) (compareOn (fun a => a.key.2))))
      refine (sorted_of_perm (by decide) (by decide)).trans (List.mergeSort_of_pairwise (by decide))
    unfold rangeAnswer
    rw [ordered]
    rfl

/-- A record with a value of an index. -/
def indexedOnce : List (Move CollectionCall CollectionTxCall) :=
  [.Call (.CreateCollection calm [99] .default),.Call (.DefineIndex calm [99] ⟨[105],false⟩),
    .Call (.UpsertRecord calm [99] [1] [7] [⟨[105],[1]⟩])]

/-- An update that the limit of the file refuses is committed. -/
def refusedAndCommitted : List (Move CollectionCall CollectionTxCall) :=
  indexedOnce ++ [.Begin,.CallTx (.UpsertRecord calm [99] [1] (List.replicate 600 7) [⟨[105],[1]⟩]),.Commit calm]

set_option maxRecDepth 20000 in
/-- The update has deleted the entry of the record before it is refused. -/
theorem refused_update_hides_record : ∃ store left, @open_with_options crates calm ["a.vstore"] ⟨.Data,true,some 1300,none⟩ [] = .ok store left ∧
    let next := (@Play.steps crates _ _ _ _ (@collections crates) ⟨.Idle store,[]⟩ refusedAndCommitted).session.store
    index_definition next [99] [105] = .ok ⟨[105],false⟩ ∧ next.scan_collection [99] = .ok [⟨[1],[7],[⟨[105],[1]⟩]⟩] ∧
      next.query_index_exact [99] [105] [1] = .ok [] := by
  have evaluated : passes (@open_with_options crates calm ["a.vstore"] ⟨.Data,true,some 1300,none⟩ []) (fun store _ =>
        let next := (@Play.steps crates _ _ _ _ (@collections crates) ⟨.Idle store,[]⟩ refusedAndCommitted).session.store
        decide ((index_definition next [99] [105]).toOption = some ⟨[105],false⟩ ∧
          (next.scan_collection [99]).toOption = some [⟨[1],[7],[⟨[105],[1]⟩]⟩] ∧
          (next.query_index_exact [99] [105] [1]).toOption = some [])) = true := by
    rw [crates_eq_quick]
    decide +kernel
  obtain ⟨store,left,opened,evaluated⟩ := passes_iff.mp evaluated
  obtain ⟨defined,scanned,answered⟩ := of_decide_eq_true evaluated
  exact ⟨store,left,opened,toOption_some.mp defined,toOption_some.mp scanned,toOption_some.mp answered⟩

end VoodooStore
