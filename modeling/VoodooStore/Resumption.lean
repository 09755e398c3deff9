import VoodooStore.Migrations
import VoodooStore.QueryResults

/-!
# Migrations that are resumed

A record that has been written stands: nothing that is written to other records
changes that, and writing it again changes nothing. So a migration that
was stopped after some batches and is run again ends as one that was not
(`resumed_as_uninterrupted`), unless the engine refuses what it writes.
-/
namespace VoodooStore
open Effects Reading Collections Migrations Mapping
set_option linter.unusedSimpArgs false

/-! ## Records that stand -/

/-- The map holds the record and its entries, and would accept it again. -/
structure Standing (state : State) (collection : Bytes) (record : CollectionRecord) : Prop where
  named : record.primary_key ≠ []
  there : state[metaKey collection]? ≠ none
  stores : Stores state collection record.primary_key ⟨record.value,record.indexes⟩
  free : ∀ index ∈ record.indexes, Free state collection record.primary_key index
  entries : ∀ index ∈ record.indexes, state[indexKey collection index.index index.value record.primary_key]? = some record.primary_key

section
variable {s t : State} {collection primary_key : Bytes} {old new : Option StoredRecord}

theorem DefinedAs.one {index : Bytes} {a b : Bool} (first : DefinedAs s collection index a) (second : DefinedAs s collection index b) : a = b := by
  have same := first.spelled.symm.trans second.spelled
  cases a <;> cases b <;> simp_all

/-- What is found under an index after a change is an entry of the record, or was there before. -/
theorem Replaces.found_entry (replaces : Replaces s t collection primary_key old new) {key value : Bytes} (inside : INDEX_PREFIX <+: key)
    (found : t[key]? = some value) : (key ∈ entryKeys collection primary_key (listed new) ∧ value = primary_key) ∨ s[key]? = some value := by
  rw [replaces.entry inside] at found
  split at found
  · rename_i own
    exact .inl ⟨own,(Option.some.inj found).symm⟩
  · split at found
    · cases found
    · exact .inr found

theorem Replaces.defined (replaces : Replaces s t collection primary_key old new) {other index : Bytes} {unique : Bool} :
    DefinedAs t other index unique ↔ DefinedAs s other index unique := by
  have same : t[indexMetaKey other index]? = s[indexMetaKey other index]? :=
    replaces.kind (List.prefix_append INDEX_META_PREFIX _) (by decide) (by decide)
  exact ⟨DefinedAs.congr same.symm,DefinedAs.congr same⟩

theorem Replaces.known (replaces : Replaces s t collection primary_key old new) (name : Bytes) : t[metaKey name]? = s[metaKey name]? :=
  replaces.kind (List.prefix_append META_PREFIX _) (by decide) (by decide)

/-- A value that is free for a record is free for it afterwards, if it is its own or no other record has taken it. -/
theorem Free.kept {owner : Bytes} {index : IndexValue} (free : Free s collection owner index) (replaces : Replaces s t collection primary_key old new)
    (own : ∀ key ∈ entryKeys collection primary_key (listed new), indexSpace collection index.index index.value <+: key →
      DefinedAs s collection index.index true → primary_key = owner) : Free t collection owner index := by
  obtain ⟨unique,defined,alone⟩ := free
  refine ⟨unique,replaces.defined.mpr defined,?_⟩
  rintro rfl
  refine ⟨(alone rfl).1,?_⟩
  rintro ⟨key,value⟩ entry
  obtain ⟨inside,found⟩ := mem_scan.mp entry
  have front := (starts_with_iff _ _).mp inside
  rcases replaces.found_entry ((List.prefix_append _ _).trans front) found with ⟨member,rfl⟩ | before
  · exact own key member front defined
  · exact (alone rfl).2 (key,value) (mem_scan.mpr ⟨inside,before⟩)

/-- A record that is written stands. -/
theorem upsert_stands {record : CollectionRecord} {x : Unit}
    (done : upsertIn collection record.primary_key record.value record.indexes s = .ok x t) : Standing t collection record := by
  obtain ⟨old,replaces⟩ := upsert_in_ok done
  obtain ⟨named,there,free⟩ := replaces.accepted _ rfl
  refine ⟨named,by rw [replaces.known]; exact there,replaces.stores_own.mpr rfl,?_,?_⟩
  · intro index member
    exact (free index member).kept replaces (fun _ _ _ _ => rfl)
  · intro index member
    have inside : INDEX_PREFIX <+: indexKey collection index.index index.value record.primary_key := List.prefix_append _ _
    rw [replaces.entry inside,if_pos]
    exact mem_entry_keys.mpr ⟨index,member,rfl⟩

/-- It stands when another record is written. -/
theorem Standing.kept {record : CollectionRecord} (standing : Standing s collection record) {value : Bytes} {indexes : List IndexValue} {x : Unit}
    (done : upsertIn collection primary_key value indexes s = .ok x t) (other : primary_key ≠ record.primary_key) :
    Standing t collection record := by
  obtain ⟨old,replaces⟩ := upsert_in_ok done
  obtain ⟨-,-,free⟩ := replaces.accepted _ rfl
  have placed := standing.stores.placed
  have apart : ¬ (collection = collection ∧ record.primary_key = primary_key) := fun same => other same.2.symm
  refine ⟨standing.named,by rw [replaces.known]; exact standing.there,(replaces.stores_other apart).mpr standing.stores,?_,?_⟩
  · intro index member
    have fits := standing.stores.fits index member
    refine (standing.free index member).kept replaces ?_
    intro key added front unique
    obtain ⟨mine,listed,rfl⟩ := mem_entry_keys.mp added
    obtain ⟨-,rfl⟩ := (index_space_front placed.space fits replaces.placed (replaces.new_fits mine listed)).mp front
    -- the other record was refused if it lists a value of this one on a unique index
    obtain ⟨flag,defined,alone⟩ := free index listed
    obtain ⟨-,alone⟩ := alone (defined.one unique)
    have here : starts_with (indexKey collection index.index index.value record.primary_key) (indexSpace collection index.index index.value) = true :=
      (starts_with_iff _ _).mpr ((index_space_front placed.space fits placed fits).mpr ⟨rfl,rfl⟩)
    exact (alone _ (mem_scan.mpr ⟨here,standing.entries index member⟩)).symm
  · intro index member
    have fits := standing.stores.fits index member
    have inside : INDEX_PREFIX <+: indexKey collection index.index index.value record.primary_key := List.prefix_append _ _
    rw [replaces.entry inside,if_neg (replaces.foreign placed fits apart replaces.new_fits),
      if_neg (replaces.foreign placed fits apart replaces.old_fits)]
    exact standing.entries index member

/-- Writing it again changes nothing. -/
theorem Standing.again {record : CollectionRecord} (standing : Standing s collection record) :
    upsertIn collection record.primary_key record.value record.indexes s = .ok () s := by
  have placed := standing.stores.placed
  have fits := standing.stores.fits
  obtain ⟨encoded,made,-⟩ := standing.stores.spelled
  obtain ⟨erased,erases⟩ : ∃ t, eraseEntries collection record.primary_key
      ((some (StoredRecord.mk record.value record.indexes)).elim [] StoredRecord.indexes) s = .ok () t := erase_entries_run placed fits s
  obtain ⟨t,inserts⟩ := insert_entries_run placed fits (erased.insert (recordKey collection record.primary_key) encoded)
  have done : upsertIn collection record.primary_key record.value record.indexes s = .ok () t := by
    unfold upsertIn
    rw [get_bind,ensure_in_ok.mpr ⟨placed.space,standing.there⟩,lift_ok_bind,if_neg standing.named,
      record_key_ok.mpr ⟨⟨placed.space,placed.key⟩,rfl⟩,lift_ok_bind,get_bind,standing.stores.read,lift_ok_bind,get_bind,
      check_in_ok.mpr standing.free,lift_ok_bind,bind_of_ok erases,made,lift_ok_bind,modify_bind]
    exact inserts
  rw [done]
  congr 1
  -- each key holds what it has held
  obtain ⟨old,replaces⟩ := upsert_in_ok done
  cases replaces.stores_old standing.stores
  apply Std.ExtTreeMap.ext_getElem?
  intro key
  have own_indexes : listed (some ⟨record.value,record.indexes⟩) = record.indexes := rfl
  by_cases entry : key ∈ entryKeys collection record.primary_key record.indexes
  · rw [replaces.entry (entry_keys_inside entry),own_indexes,if_pos entry]
    obtain ⟨index,member,rfl⟩ := mem_entry_keys.mp entry
    exact (standing.entries index member).symm
  by_cases own : key = recordKey collection record.primary_key
  · subst own
    obtain ⟨spelled,written,found⟩ := standing.stores.spelled
    obtain ⟨after_spelled,made_after,after_found⟩ := (replaces.stores_own.mpr rfl : Stores t collection record.primary_key _).spelled
    rw [found,after_found,Except.ok.inj (written.symm.trans made_after)]
  · obtain ⟨_,-,left⟩ := replaces.left
    rw [left key,own_indexes,if_neg entry,if_neg own,if_neg entry]

end

/-! ## Writing records one after another -/

section
variable {s t u : State} {collection : Bytes}

theorem upserts_append {first second : List CollectionRecord} : upsertsIn collection (first ++ second) s = .ok () u ↔
    ∃ t, upsertsIn collection first s = .ok () t ∧ upsertsIn collection second t = .ok () u := by
  induction first generalizing s with
  | nil =>
    constructor
    · exact fun done => ⟨s,rfl,done⟩
    · rintro ⟨_,⟨⟩,done⟩
      exact done
  | cons record first ih =>
    constructor
    · intro done
      obtain ⟨_,m,here,rest⟩ := bind_ok.mp done
      obtain ⟨t,between,behind⟩ := ih.mp rest
      exact ⟨t,bind_ok.mpr ⟨_,m,here,between⟩,behind⟩
    · rintro ⟨t,done,behind⟩
      obtain ⟨_,m,here,between⟩ := bind_ok.mp done
      exact bind_ok.mpr ⟨_,m,here,ih.mpr ⟨t,between,behind⟩⟩

theorem upserts_known {records : List CollectionRecord} (done : upsertsIn collection records s = .ok () t) (name : Bytes) :
    t[metaKey name]? = s[metaKey name]? := by
  induction records generalizing s with
  | nil =>
    cases done
    rfl
  | cons record records ih =>
    obtain ⟨_,m,here,rest⟩ := bind_ok.mp done
    obtain ⟨old,replaces⟩ := upsert_in_ok here
    exact (ih rest).trans (replaces.known name)

/-- What stands still stands after others are written. -/
theorem Standing.kept_all {record : CollectionRecord} {records : List CollectionRecord} (standing : Standing s collection record)
    (done : upsertsIn collection records s = .ok () t) (other : record.primary_key ∉ records.map CollectionRecord.primary_key) :
    Standing t collection record := by
  induction records generalizing s with
  | nil =>
    cases done
    exact standing
  | cons first records ih =>
    rw [List.map_cons,List.mem_cons,not_or] at other
    obtain ⟨_,m,here,rest⟩ := bind_ok.mp done
    exact ih (standing.kept here (Ne.symm other.1)) rest other.2

/-- Records that are written, each once, all stand. -/
theorem upserts_stand {records : List CollectionRecord} (once : (records.map CollectionRecord.primary_key).Nodup)
    (done : upsertsIn collection records s = .ok () t) : ∀ record ∈ records, Standing t collection record := by
  induction records generalizing s with
  | nil => simp
  | cons first records ih =>
    rw [List.map_cons,List.nodup_cons] at once
    obtain ⟨_,m,here,rest⟩ := bind_ok.mp done
    intro record member
    rcases List.mem_cons.mp member with rfl | later
    · exact (upsert_stands here).kept_all rest once.1
    · exact ih once.2 rest record later

theorem standing_again {records : List CollectionRecord} (standing : ∀ record ∈ records, Standing s collection record) :
    upsertsIn collection records s = .ok () s := by
  induction records with
  | nil => rfl
  | cons record records ih =>
    refine bind_ok.mpr ⟨_,s,(standing record (by simp)).again,?_⟩
    exact ih (fun other member => standing other (by simp [member]))

/-! ## The records that a scan reads -/

/-- An entry under the prefix gets another value. -/
theorem scan_replaced {front key old new : Bytes} {before behind : List (Bytes × Bytes)} (listed : scan s front = before ++ (key,old) :: behind)
    (inside : starts_with key front = true) (found : t[key]? = some new)
    (same : ∀ other, starts_with other front = true → other ≠ key → t[other]? = s[other]?) : scan t front = before ++ (key,new) :: behind := by
  have sorted : ∀ state : State, (scan state front).Pairwise (fun a b => compare a.1 b.1 = .lt) :=
    fun state => Std.ExtTreeMap.ordered_keys_toList.filter _
  have earlier := sorted s
  rw [listed,List.pairwise_append,List.pairwise_cons] at earlier
  obtain ⟨low,⟨mid,high⟩,across⟩ := earlier
  have later : (before ++ (key,new) :: behind).Pairwise (fun a b => compare a.1 b.1 = .lt) := by
    rw [List.pairwise_append,List.pairwise_cons]
    refine ⟨low,⟨mid,high⟩,fun a first b second => ?_⟩
    rcases List.mem_cons.mp second with rfl | behind_it
    · exact across a first (key,old) (by simp)
    · exact across a first b (by simp [behind_it])
  have apart : ∀ entry, entry ∈ before ∨ entry ∈ behind → entry.1 ≠ key := by
    rintro entry (first | last) same
    · have below := across entry first (key,old) (by simp)
      have itself : compare key key = .eq := Std.ReflCmp.compare_self
      rw [same,itself] at below
      cases below
    · have above := mid entry last
      have itself : compare key key = .eq := Std.ReflCmp.compare_self
      rw [same,itself] at above
      cases above
  refine sorted_entries_eq (sorted t) later ?_
  rintro ⟨other,value⟩
  rw [mem_scan,List.mem_append,List.mem_cons]
  by_cases here : other = key
  · subst here
    rw [found]
    constructor
    · rintro ⟨-,⟨⟩⟩
      exact .inr (.inl rfl)
    · rintro (first | same_entry | last)
      · exact absurd rfl (apart _ (.inl first))
      · exact ⟨inside,by rw [(Prod.mk.inj same_entry).2]⟩
      · exact absurd rfl (apart _ (.inr last))
  · have was : (other,value) ∈ scan s front ↔ (other,value) ∈ before ∨ (other,value) = (key,old) ∨ (other,value) ∈ behind := by
      rw [listed,List.mem_append,List.mem_cons]
    rw [mem_scan] at was
    have first_part : (other,value) ≠ (key,old) := fun same_entry => here (Prod.mk.inj same_entry).1
    have second_part : (other,value) ≠ (key,new) := fun same_entry => here (Prod.mk.inj same_entry).1
    constructor
    · rintro ⟨under,there⟩
      rw [same other under here] at there
      simpa [first_part,second_part] using was.mp ⟨under,there⟩
    · intro member
      obtain ⟨under,there⟩ := was.mpr (by simpa [first_part,second_part] using member)
      exact ⟨under,by rw [same other under here]; exact there⟩

end

theorem decoded_key {collection key primary_key : Bytes}
    (decoded : decode_record_primary_key (recordSpace collection) key = .ok primary_key) :
    key = recordKey collection primary_key ∧ primary_key.length < 2 ^ 32 := by
  unfold decode_record_primary_key at decoded
  split at decoded
  · cases decoded
  rename_i inside
  dsimp only at decoded
  split at decoded
  · cases decoded
  split at decoded
  · cases decoded
  rename_i long whole
  cases decoded
  have front : recordSpace collection <+: key := (starts_with_iff _ _).mp (by simpa using inside)
  obtain ⟨rest,rfl⟩ := front
  rw [List.drop_left] at long whole ⊢
  have four : (rest.take 4).length = 4 := by
    rw [List.length_take]
    omega
  have bound := Endian.ofBe_lt (rest.take 4)
  rw [four] at bound
  have size : (rest.drop 4).length = Endian.ofBe (rest.take 4) := by
    rw [List.length_drop]
    omega
  refine ⟨?_,by rw [size]; exact bound⟩
  have split_key : recordKey collection (rest.drop 4) = recordSpace collection ++ Tuples.component 4 (rest.drop 4) := by
    simp [recordKey,recordSpace,Tuples.tuple]
  rw [split_key,Tuples.component,size,Endian.toBe_ofBe four,List.take_append_drop]

theorem read_entry_ok {collection : Bytes} {entry : Bytes × Bytes} {record : CollectionRecord} :
    readEntry (recordSpace collection) entry = .ok record ↔ entry.1 = recordKey collection record.primary_key ∧
      record.primary_key.length < 2 ^ 32 ∧ encode_record_value record.value record.indexes = .ok entry.2 := by
  obtain ⟨key,encoded⟩ := entry
  unfold readEntry
  constructor
  · intro read
    obtain ⟨primary_key,decoded,read⟩ := bind_ok_iff.mp read
    obtain ⟨stored,spelled,read⟩ := bind_ok_iff.mp read
    cases read
    obtain ⟨same,short⟩ := decoded_key decoded
    exact ⟨same,short,decode_record_ok spelled⟩
  · rintro ⟨same,short,spelled⟩
    dsimp only at same spelled ⊢
    rw [same,decode_primary_key short,ok_bind,decode_encoded_record spelled]
    rfl

section
variable {s t : State} {collection : Bytes} {records : List CollectionRecord}

theorem scan_in_ok : scanIn s collection = .ok records ↔ collection.length < 2 ^ 32 ∧
    List.Forall₂ (fun entry record => readEntry (recordSpace collection) entry = .ok record) (scan s (recordSpace collection)) records := by
  unfold scanIn
  constructor
  · intro read
    obtain ⟨front,made,read⟩ := bind_ok_iff.mp read
    obtain ⟨short,rfl⟩ := record_prefix_ok.mp made
    exact ⟨short,mapM_forall read⟩
  · rintro ⟨short,pairs⟩
    exact bind_ok_iff.mpr ⟨_,record_prefix_ok.mpr ⟨short,rfl⟩,mapM_of_forall pairs⟩

/-- A scan reads each record once. -/
theorem scanned_once (scanned : scanIn s collection = .ok records) : (records.map CollectionRecord.primary_key).Nodup := by
  obtain ⟨-,pairs⟩ := scan_in_ok.mp scanned
  obtain ⟨keys,-⟩ := @forall_mapped _ _ _ _ _ _ Prod.fst (fun record : CollectionRecord => recordKey collection record.primary_key) pairs
    (fun _ _ _ read => (read_entry_ok.mp read).1)
  have distinct := scan_keys_nodup s (recordSpace collection)
  rw [keys,← Function.comp_def (recordKey collection) CollectionRecord.primary_key,← List.map_map] at distinct
  exact distinct.of_map

/-- A record that is written anew is read in its place. -/
theorem scan_after_upsert {before behind : List CollectionRecord} {record new : CollectionRecord} {x : Unit}
    (scanned : scanIn s collection = .ok (before ++ record :: behind)) (own : new.primary_key = record.primary_key)
    (done : upsertIn collection new.primary_key new.value new.indexes s = .ok x t) :
    scanIn t collection = .ok (before ++ new :: behind) := by
  obtain ⟨short,pairs⟩ := scan_in_ok.mp scanned
  obtain ⟨first,⟨key,encoded⟩,last,listed,low,here,high⟩ := forall_around pairs
  obtain ⟨spelled,fits,-⟩ := read_entry_ok.mp here
  dsimp only at spelled
  obtain ⟨old,replaces⟩ := upsert_in_ok done
  obtain ⟨placed,written,made,found⟩ := (replaces.stores_own.mpr rfl : Stores t collection new.primary_key ⟨new.value,new.indexes⟩)
  have inside : starts_with key (recordSpace collection) = true := by
    rw [starts_with_iff,spelled,← own]
    exact (record_space_front short placed).mpr rfl
  have same : ∀ other, starts_with other (recordSpace collection) = true → other ≠ key → t[other]? = s[other]? := by
    intro other under different
    refine replaces.elsewhere ?_ ?_
    · rw [own,← spelled]
      exact different
    · exact prefixes_apart (by decide) ((List.prefix_append RECORD_PREFIX _).trans ((starts_with_iff _ _).mp under))
  rw [own,← spelled] at found
  refine scan_in_ok.mpr ⟨short,?_⟩
  rw [scan_replaced listed inside found same]
  refine List.rel_append low (.cons (read_entry_ok.mpr ⟨?_,?_,made⟩) high)
  · rw [own]
    exact spelled
  · rw [own]
    exact fits

/-- So are several, in their places. -/
theorem scan_after_upserts {before behind news : List CollectionRecord} (scanned : scanIn s collection = .ok (before ++ (records ++ behind)))
    (own : List.Forall₂ (fun record new => new.primary_key = record.primary_key) records news)
    (done : upsertsIn collection news s = .ok () t) : scanIn t collection = .ok (before ++ (news ++ behind)) := by
  induction own generalizing s before with
  | nil =>
    cases done
    exact scanned
  | @cons record new records news same _ ih =>
    obtain ⟨_,m,here,rest⟩ := bind_ok.mp done
    have next := scan_after_upsert scanned same here
    have later := @ih m (before ++ [new]) (by simpa using next) rest
    simpa using later

end

/-! ## Batches -/

/-- What the transformer makes of the records, one by one. -/
def Transforms (transform : Transformer) (records news : List CollectionRecord) : Prop :=
  List.Forall₂ (fun record new => transformed transform record = .ok new) records news

theorem transformed_key {transform : Transformer} {record new : CollectionRecord} (made : transformed transform record = .ok new) :
    new.primary_key = record.primary_key := by
  obtain ⟨result,-,made⟩ := bind_ok_iff.mp made
  obtain ⟨⟨value,indexes⟩,-,made⟩ := bind_ok_iff.mp made
  dsimp only at made
  split at made
  · obtain ⟨items,-,made⟩ := bind_ok_iff.mp made
    obtain ⟨normalized,-,made⟩ := bind_ok_iff.mp made
    cases made
    rfl
  · cases made

section
variable {collection : Bytes} {transform : Transformer} {batch_size : Int}

theorem Transforms.keys {records news : List CollectionRecord} (transforms : Transforms transform records news) :
    List.Forall₂ (fun record new => new.primary_key = record.primary_key) records news :=
  transforms.imp (fun _ _ made => transformed_key made)

theorem Transforms.one {records news others : List CollectionRecord} (transforms : Transforms transform records news)
    (also : Transforms transform records others) : news = others := by
  have first := mapM_of_forall transforms
  rw [mapM_of_forall also] at first
  exact (Except.ok.inj first).symm

theorem commit_in_ok {progress next : MigrationProgress} {s t : State} (done : commitIn collection false progress s = .ok next t) :
    upsertsIn collection progress.pending s = .ok () t := by
  unfold commitIn at done
  split at done
  · rename_i nothing
    cases done
    have none_pending : progress.pending = [] := by simpa using nothing
    rw [none_pending]
    rfl
  · obtain ⟨_,m,made,done⟩ := bind_ok.mp done
    cases done
    exact atomically_ok.mp (rethrow_ok.mp made)

theorem commit_in_run {progress : MigrationProgress} {s t : State} (done : upsertsIn collection progress.pending s = .ok () t) :
    ∃ next, commitIn collection false progress s = .ok next t := by
  unfold commitIn
  split
  · rename_i nothing
    have none_pending : progress.pending = [] := by simpa using nothing
    rw [none_pending] at done
    cases done
    exact ⟨_,rfl⟩
  · exact ⟨_,bind_ok.mpr ⟨_,t,rethrow_ok.mpr (atomically_ok.mpr done),rfl⟩⟩

/-- What the loop has committed, and what is left for the last batch. -/
theorem records_in_ok {records : List CollectionRecord} {progress last : MigrationProgress} {s t : State}
    (done : recordsIn collection transform batch_size false records progress s = .ok last t) : ∃ news, Transforms transform records news ∧
      ∃ written, progress.pending ++ news = written ++ last.pending ∧ upsertsIn collection written s = .ok () t := by
  induction records generalizing progress s with
  | nil =>
    cases done
    exact ⟨[],.nil,[],by simp,rfl⟩
  | cons record records ih =>
    obtain ⟨new,made,done⟩ := lift_bind_ok.mp done
    split at done
    · obtain ⟨next,m,batch,done⟩ := bind_ok.mp done
      obtain ⟨news,transforms,written,parts,rest⟩ := ih done
      refine ⟨new :: news,.cons made transforms,(progress.add new).pending ++ written,?_,upserts_append.mpr ⟨m,commit_in_ok batch,rest⟩⟩
      have both : news = written ++ last.pending := by simpa using parts
      simp [both,MigrationProgress.add]
    · obtain ⟨news,transforms,written,parts,rest⟩ := ih done
      refine ⟨new :: news,.cons made transforms,written,?_,rest⟩
      rw [← parts]
      simp [MigrationProgress.add]

theorem records_in_run {records news : List CollectionRecord} (transforms : Transforms transform records news)
    {progress : MigrationProgress} {s t : State} (done : upsertsIn collection (progress.pending ++ news) s = .ok () t) :
    ∃ last m, recordsIn collection transform batch_size false records progress s = .ok last m := by
  induction transforms generalizing progress s with
  | nil => exact ⟨_,_,rfl⟩
  | @cons record new records news made _ ih =>
    have through : (progress.add new).pending ++ news = progress.pending ++ new :: news := by simp [MigrationProgress.add]
    rw [← through] at done
    by_cases full : batch_size ≤ (progress.add new).pending.length
    · obtain ⟨m,batch,rest⟩ := upserts_append.mp done
      obtain ⟨next,committed⟩ := @commit_in_run collection _ _ _ batch
      obtain ⟨last,n,later⟩ := @ih { next with pending := [] } m rest
      refine ⟨last,n,lift_bind_ok.mpr ⟨new,made,?_⟩⟩
      rw [if_pos full]
      exact bind_ok.mpr ⟨next,m,committed,later⟩
    · obtain ⟨last,n,later⟩ := ih done
      refine ⟨last,n,lift_bind_ok.mpr ⟨new,made,?_⟩⟩
      rw [if_neg full]
      exact later

theorem batches_in_iff {records : List CollectionRecord} {s t : State} :
    (∃ last, batchesIn collection transform batch_size false records s = .ok last t) ↔
      ∃ news, Transforms transform records news ∧ upsertsIn collection news s = .ok () t := by
  constructor
  · rintro ⟨last,done⟩
    obtain ⟨progress,m,looped,done⟩ := bind_ok.mp done
    obtain ⟨news,transforms,written,parts,rest⟩ := records_in_ok looped
    have both : news = written ++ progress.pending := by simpa [MigrationProgress.start] using parts
    exact ⟨news,transforms,by rw [both]; exact upserts_append.mpr ⟨m,rest,commit_in_ok done⟩⟩
  · rintro ⟨news,transforms,done⟩
    obtain ⟨progress,m,looped⟩ := @records_in_run collection transform batch_size _ _ transforms .start s t done
    obtain ⟨others,also,written,parts,rest⟩ := records_in_ok looped
    cases transforms.one also
    have both : news = written ++ progress.pending := by simpa [MigrationProgress.start] using parts
    rw [both] at done
    obtain ⟨n,first,behind⟩ := upserts_append.mp done
    rw [rest] at first
    cases first
    obtain ⟨last,committed⟩ := commit_in_run behind
    exact ⟨last,bind_ok.mpr ⟨progress,m,looped,committed⟩⟩

end

/-! ## Whole migrations -/

section
variable {collection codec : Bytes} {expected_version next_version batch_size : Int} {transform : Transformer}

/-- The migration goes through on the map and leaves the other one. -/
structure Completes (collection : Bytes) (expected_version next_version : Int) (codec : Bytes) (transform : Transformer) (batch_size : Int)
    (s t : State) : Prop where
  checked : collection ≠ [] ∧ codec ≠ [] ∧ ¬ (expected_version < 1 ∨ next_version ≤ expected_version) ∧ ¬ batch_size < 1
  current : ∃ definition, definitionIn s collection = .ok (some definition) ∧ (definition.schema_version.toNat : Int) = expected_version
  writes : ∃ records news m expected next, scanIn s collection = .ok records ∧ Transforms transform records news ∧
    upsertsIn collection news s = .ok () m ∧ u32_argument expected_version = .ok expected ∧ u32_argument next_version = .ok next ∧
    migrateIn collection expected next codec m = .ok true t

theorem completes_iff {s t : State} :
    (∃ report, migrateCollectionIn collection expected_version next_version codec transform batch_size false s = .ok report t) ↔
      Completes collection expected_version next_version codec transform batch_size s t := by
  constructor
  · rintro ⟨report,done⟩
    unfold migrateCollectionIn at done
    split at done
    · cases done
    rename_i named
    split at done
    · cases done
    rename_i coded
    split at done
    · cases done
    rename_i rises
    split at done
    · cases done
    rename_i sized
    rw [get_bind] at done
    obtain ⟨found,read,done⟩ := lift_bind_ok.mp done
    cases found with
    | none => cases done
    | some definition =>
      dsimp only at done
      split at done
      · cases done
      rename_i version
      rw [get_bind] at done
      obtain ⟨records,scanned,done⟩ := lift_bind_ok.mp done
      obtain ⟨progress,m,batches,done⟩ := bind_ok.mp done
      rw [if_neg (by simp)] at done
      obtain ⟨expected,first,done⟩ := lift_bind_ok.mp done
      obtain ⟨next,second,done⟩ := lift_bind_ok.mp done
      obtain ⟨advanced,n,migrated,done⟩ := bind_ok.mp done
      cases advanced with
      | false => cases done
      | true =>
        cases done
        obtain ⟨news,transforms,written⟩ := batches_in_iff.mp ⟨progress,batches⟩
        exact ⟨⟨named,coded,rises,sized⟩,⟨definition,mapError_eq_ok.mp read,not_not.mp version⟩,records,news,m,expected,next,
          mapError_eq_ok.mp scanned,transforms,written,first,second,rethrow_ok.mp migrated⟩
  · rintro ⟨⟨named,coded,rises,sized⟩,⟨definition,read,version⟩,records,news,m,expected,next,scanned,transforms,written,first,second,migrated⟩
    obtain ⟨progress,batches⟩ := (@batches_in_iff collection transform batch_size records s m).mpr ⟨news,transforms,written⟩
    refine ⟨⟨collection,expected_version,next_version,progress.seen,progress.migrated,progress.batches,false⟩,?_⟩
    unfold migrateCollectionIn
    rw [if_neg named,if_neg coded,if_neg rises,if_neg sized,get_bind]
    refine lift_bind_ok.mpr ⟨_,mapError_eq_ok.mpr read,?_⟩
    dsimp only
    rw [if_neg (not_not.mpr version),get_bind]
    refine lift_bind_ok.mpr ⟨_,mapError_eq_ok.mpr scanned,bind_ok.mpr ⟨progress,m,batches,?_⟩⟩
    rw [if_neg (by simp)]
    refine lift_bind_ok.mpr ⟨_,first,lift_bind_ok.mpr ⟨_,second,bind_ok.mpr ⟨true,t,rethrow_ok.mpr migrated,rfl⟩⟩⟩

/-- The transformer makes nothing new of what it has made. -/
def Idempotent (transform : Transformer) : Prop :=
  ∀ record new, transformed transform record = .ok new → transformed transform new = .ok new

theorem definition_known {s t : State} (name : Bytes) (same : t[metaKey name]? = s[metaKey name]?) : definitionIn t name = definitionIn s name := by
  unfold definitionIn
  cases made : meta_key name with
  | error e => rfl
  | ok key =>
    obtain ⟨-,rfl⟩ := meta_key_ok.mp made
    rw [ok_bind,ok_bind,same]

/-- The first records are written already, as they will be again. -/
theorem Completes.resumes {s m t : State} (completes : Completes collection expected_version next_version codec transform batch_size s t)
    (idempotent : Idempotent transform) {records news : List CollectionRecord} {k : Nat} (scanned : scanIn s collection = .ok records)
    (transforms : Transforms transform (records.take k) news) (done : upsertsIn collection news s = .ok () m) :
    Completes collection expected_version next_version codec transform batch_size m t := by
  obtain ⟨checked,⟨definition,read,version⟩,others,all,n,expected,next,also,transformed_all,written,first,second,migrated⟩ := completes
  cases scanned.symm.trans also
  have parts : all = news ++ all.drop k := by
    rw [transforms.one (List.forall₂_take k transformed_all),List.take_append_drop]
  rw [parts] at written
  obtain ⟨middle,start,behind⟩ := upserts_append.mp written
  rw [done] at start
  cases start
  have once : (news.map CollectionRecord.primary_key).Nodup := by
    have same := (@forall_mapped _ _ _ _ _ _ CollectionRecord.primary_key CollectionRecord.primary_key transforms
      (fun _ _ _ made => (transformed_key made).symm)).1
    rw [← same]
    exact (scanned_once scanned).sublist ((List.take_sublist k records).map _)
  refine ⟨checked,⟨definition,?_,version⟩,news ++ records.drop k,news ++ all.drop k,n,expected,next,?_,?_,?_,first,second,migrated⟩
  · rw [definition_known collection (upserts_known done collection)]
    exact read
  · refine @scan_after_upserts s m collection (records.take k) [] (records.drop k) news ?_ transforms.keys done
    rw [List.nil_append,List.take_append_drop]
    exact scanned
  · have again : Transforms transform news news := by
      refine List.forall₂_same.mpr (fun new member => ?_)
      obtain ⟨record,-,made⟩ := (@forall_mapped _ _ _ _ _ _ (fun _ => ()) (fun _ => ()) transforms (fun _ _ _ _ => rfl)).2 new member
      exact idempotent record new made
    exact List.rel_append again (List.forall₂_drop k transformed_all)
  · exact upserts_append.mpr ⟨m,standing_again (upserts_stand once done),behind⟩

end

/-! ## Interruptions -/

section
variable [Hashes] {collection codec : Bytes} {expected_version next_version batch_size : Int} {transform : Transformer}

/-- The stores that a run leaves which stops before it advances the version: after some of the records, or after all batches.
    It may have stopped because something has failed. -/
inductive Stopped (ios : Nat → Io) (collection : Bytes) (transform : Transformer) (batch_size : Int) (store : Store) : Store → Prop
  | within_records {records : List CollectionRecord} (scanned : store.scan_collection collection = .ok records) (n : Nat) :
      Stopped ios collection transform batch_size store (after (migrate_records ios collection transform batch_size false (records.take n) .start) store)
  | after_batches {records : List CollectionRecord} (scanned : store.scan_collection collection = .ok records) :
      Stopped ios collection transform batch_size store (after (migrate_batches ios collection transform batch_size false records) store)

/-- A batch is written, or nothing is. -/
theorem commit_batch_leaves (io : Io) (progress : MigrationProgress) (store : Store) :
    (∃ next t, commit_batch io collection false progress store = .ok next t ∧ upsertsIn collection progress.pending store.data = .ok () t.data) ∨
      ∃ e t, commit_batch io collection false progress store = .error e t ∧ t.data = store.data := by
  cases result : commit_batch io collection false progress store with
  | ok next t => exact .inl ⟨next,t,rfl,commit_in_ok ((commit_batch_mirrors io collection false progress).ok result)⟩
  | error e t =>
    refine .inr ⟨e,t,rfl,?_⟩
    unfold commit_batch at result
    split at result
    · cases result
    · rcases bind_error.mp result with failed | ⟨_,_,-,returned⟩
      · obtain ⟨d,failed,-⟩ := rethrow_error.mp failed
        rw [Store.data,within_error (upsert_records_carries io collection progress.pending) failed]
        rfl
      · cases returned

/-- Wherever the loop stops, it has written the first of the records as they are made. -/
theorem records_leave (ios : Nat → Io) (records : List CollectionRecord) (progress : MigrationProgress) (store : Store) :
    ∃ k news, Transforms transform (records.take k) news ∧ ∃ written rest, progress.pending ++ news = written ++ rest ∧
      upsertsIn collection written store.data =
        .ok () (after (migrate_records ios collection transform batch_size false records progress) store).data := by
  have nothing : ∀ (records : List CollectionRecord) (progress : MigrationProgress) (store : Store), ∃ k news,
      Transforms transform (records.take k) news ∧ ∃ written rest, progress.pending ++ news = written ++ rest ∧
        upsertsIn collection written store.data = .ok () store.data :=
    fun _ progress _ => ⟨0,[],.nil,[],progress.pending,by simp,rfl⟩
  induction records generalizing progress store with
  | nil => exact nothing [] progress store
  | cons record records ih =>
    unfold migrate_records after
    cases made : transformed transform record with
    | error e => exact nothing (record :: records) progress store
    | ok new =>
      rw [lift_ok_bind]
      by_cases full : batch_size ≤ (progress.add new).pending.length
      · rw [if_pos full]
        rcases @commit_batch_leaves _ collection (ios (progress.add new).batches) (progress.add new) store with
          ⟨next,m,committed,batch⟩ | ⟨e,m,failed,same⟩
        · rw [bind_of_ok committed]
          obtain ⟨k,news,transforms,written,rest,parts,reached⟩ := ih { next with pending := [] } m
          refine ⟨k + 1,new :: news,.cons made transforms,(progress.add new).pending ++ written,rest,?_,upserts_append.mpr ⟨_,batch,reached⟩⟩
          have both : news = written ++ rest := by simpa using parts
          simp [both,MigrationProgress.add]
        · rw [bind_of_error failed]
          obtain ⟨k,news,transforms,written,rest,parts,reached⟩ := nothing (record :: records) progress store
          refine ⟨k,news,transforms,written,rest,parts,?_⟩
          show _ = EStateM.Result.ok () m.data
          rw [same]
          exact reached
      · rw [if_neg full]
        obtain ⟨k,news,transforms,written,rest,parts,reached⟩ := ih (progress.add new) store
        refine ⟨k + 1,new :: news,.cons made transforms,written,rest,?_,reached⟩
        rw [← parts]
        simp [MigrationProgress.add]

/-- A stopped run has written the first records of the scan. -/
theorem Stopped.written {ios : Nat → Io} {store t : Store} (stopped : Stopped ios collection transform batch_size store t) :
    ∃ records k news, scanIn store.data collection = .ok records ∧ Transforms transform (records.take k) news ∧
      upsertsIn collection news store.data = .ok () t.data := by
  -- the written records are the first ones of those that were transformed
  have first_ones : ∀ {records news written rest : List CollectionRecord} {k : Nat}, Transforms transform (records.take k) news →
      news = written ++ rest → Transforms transform (records.take (min written.length k)) written := by
    intro records news written rest k transforms parts
    have front := List.forall₂_take written.length transforms
    rw [parts,List.take_left,List.take_take] at front
    exact front
  cases stopped with
  | @within_records records scanned n =>
    obtain ⟨k,news,transforms,written,rest,parts,reached⟩ := @records_leave _ collection batch_size transform ios (records.take n) .start store
    rw [List.take_take] at transforms
    exact ⟨records,_,written,by rw [← scan_eq]; exact scanned,first_ones transforms parts,reached⟩
  | @after_batches records scanned =>
    obtain ⟨k,news,transforms,written,rest,parts,reached⟩ := @records_leave _ collection batch_size transform ios records .start store
    refine ⟨records,?_⟩
    unfold migrate_batches after
    cases looped : migrate_records ios collection transform batch_size false records .start store with
    | error e m =>
      rw [bind_of_error looped]
      unfold after at reached
      rw [looped] at reached
      exact ⟨_,written,by rw [← scan_eq]; exact scanned,first_ones transforms parts,reached⟩
    | ok progress m =>
      rw [bind_of_ok looped]
      obtain ⟨all,transforms,written,parts,reached⟩ :=
        records_in_ok ((migrate_records_mirrors ios collection transform batch_size false records .start).ok looped)
      have both : all = written ++ progress.pending := by simpa [MigrationProgress.start] using parts
      have whole : Transforms transform (records.take records.length) all := by
        rw [List.take_length]
        exact transforms
      rcases @commit_batch_leaves _ collection (ios progress.batches) progress m with ⟨next,n,committed,batch⟩ | ⟨e,n,failed,same⟩
      · rw [committed]
        refine ⟨_,all,by rw [← scan_eq]; exact scanned,whole,?_⟩
        rw [both]
        exact upserts_append.mpr ⟨_,reached,batch⟩
      · rw [failed]
        refine ⟨_,written,by rw [← scan_eq]; exact scanned,first_ones whole both,?_⟩
        show _ = EStateM.Result.ok () n.data
        rw [same]
        exact reached

/-- A migration that was stopped before it advanced the version, and is run again while nothing else writes: the version is still the one
    it was; if it goes through it leaves what one does that was not stopped; and if that one goes through, nothing but the engine
    can make it fail. -/
theorem resumed_as_uninterrupted (idempotent : Idempotent transform) {ios : Nat → Io} {store t u : Store}
    (stopped : Stopped ios collection transform batch_size store t) (untouched : SameData t.state u.state) :
    u.collection_definition collection = store.collection_definition collection ∧
    ∀ direct report v, migrate_collection direct collection expected_version next_version codec transform batch_size false store = .ok report v →
      ∀ again, (∃ report w, migrate_collection again collection expected_version next_version codec transform batch_size false u = .ok report w ∧
          SameData v.state w.state) ∨
        ∃ refusal w, migrate_collection again collection expected_version next_version codec transform batch_size false u =
          .error (.Store (.Store refusal)) w := by
  obtain ⟨records,k,news,scanned,transforms,done⟩ := stopped.written
  have here : u.data = t.data := same_data_iff.mp untouched
  constructor
  · rw [definition_eq,definition_eq,here,definition_known collection (upserts_known done collection)]
  · intro direct report v uninterrupted again
    have completes := completes_iff.mp ⟨report,(migrate_collection_mirrors direct collection expected_version next_version codec transform
      batch_size false).ok uninterrupted⟩
    obtain ⟨report',resumed⟩ := completes_iff.mpr (completes.resumes idempotent scanned transforms done)
    rw [← here] at resumed
    rcases (migrate_collection_mirrors again collection expected_version next_version codec transform batch_size false).succeeds resumed with
      ⟨w,run,same⟩ | ⟨e,w,failed,refusal,rfl⟩
    · exact .inl ⟨report',w,run,same_data_iff.mpr same⟩
    · exact .inr ⟨refusal,w,failed⟩

end

/-- Each record gets the same value, and its primary key as the value of an index. -/
def stampRecord : Transformer := fun primary_key _ _ => some (.Tuple [.Bytes [9],.List [.Tuple [.Bytes [105],.Bytes primary_key]]])

theorem stamp_idempotent : Idempotent stampRecord := by
  intro record new made
  cases made
  rfl

/-- A collection with two records and a unique index. -/
def twoRecords : List (Move CollectionCall CollectionTxCall) :=
  [.Call (.CreateCollection calm [99] .default),.Call (.DefineIndex calm [99] ⟨[105],true⟩),
    .Call (.UpsertRecord calm [99] [1] [7] []),.Call (.UpsertRecord calm [99] [2] [8] [⟨[105],[2]⟩])]

/-- The store that the first batch leaves. -/
def firstBatch (store : Store) : Store :=
  after (@migrate_records crates (fun _ => calm) [99] stampRecord 1 false [⟨[1],[7],[]⟩] .start) store

theorem first_batch_stopped {store : Store} (scanned : store.scan_collection [99] = .ok [⟨[1],[7],[]⟩,⟨[2],[8],[⟨[105],[2]⟩]⟩]) :
    @Stopped crates (fun _ => calm) [99] stampRecord 1 store (firstBatch store) :=
  @Stopped.within_records crates (fun _ => calm) [99] stampRecord 1 store _ scanned 1

set_option maxRecDepth 20000 in
/-- Stopped after the first of two batches, and run again. -/
theorem first_batch_resumes : ∃ store left, @open_with_options crates calm ["a.vstore"] .default [] = .ok store left ∧
    let prepared := (@Play.steps crates _ _ _ _ (@collections crates) ⟨.Idle store,[]⟩ twoRecords).session.store
    ∃ report v, @migrate_collection crates (fun _ => calm) [99] 1 2 [98] stampRecord 1 false prepared = .ok report v ∧
      ∃ report w, @migrate_collection crates (fun _ => calm) [99] 1 2 [98] stampRecord 1 false (firstBatch prepared) = .ok report w ∧
        SameData v.state w.state := by
  have evaluated : passes (@open_with_options crates calm ["a.vstore"] .default []) (fun store _ =>
        let prepared := (@Play.steps crates _ _ _ _ (@collections crates) ⟨.Idle store,[]⟩ twoRecords).session.store
        decide ((prepared.scan_collection [99]).toOption = some [⟨[1],[7],[]⟩,⟨[2],[8],[⟨[105],[2]⟩]⟩]) &&
          passes (@migrate_collection crates (fun _ => calm) [99] 1 2 [98] stampRecord 1 false prepared) (fun _ _ => true) &&
          passes (@migrate_collection crates (fun _ => calm) [99] 1 2 [98] stampRecord 1 false (firstBatch prepared)) (fun _ _ => true)) = true := by
    rw [crates_eq_quick]
    decide +kernel
  obtain ⟨store,left,opened,evaluated⟩ := passes_iff.mp evaluated
  refine ⟨store,left,opened,?_⟩
  dsimp only at evaluated ⊢
  generalize (@Play.steps crates _ _ _ _ (@collections crates) ⟨.Idle store,[]⟩ twoRecords).session.store = prepared at evaluated ⊢
  rw [Bool.and_eq_true,Bool.and_eq_true] at evaluated
  obtain ⟨⟨scanned,direct⟩,again⟩ := evaluated
  have read := toOption_some.mp (of_decide_eq_true scanned)
  obtain ⟨report,v,uninterrupted,-⟩ := passes_iff.mp direct
  refine ⟨report,v,uninterrupted,?_⟩
  rcases (@resumed_as_uninterrupted crates [99] [98] 1 2 1 stampRecord stamp_idempotent _ prepared _ _ (first_batch_stopped read)
    (fun _ _ => rfl)).2 _ report v uninterrupted (fun _ => calm) with resumed | ⟨refusal,w,failed⟩
  · exact resumed
  · rw [failed] at again
    cases again

set_option maxRecDepth 20000 in
/-- The limit of the file has room for a whole migration, but not for one and a batch that is written again. -/
theorem resumed_over_quota : ∃ store left, @open_with_options crates calm ["a.vstore"] ⟨.Data,true,some 2900,none⟩ [] = .ok store left ∧
    let prepared := (@Play.steps crates _ _ _ _ (@collections crates) ⟨.Idle store,[]⟩ twoRecords).session.store
    Idempotent stampRecord ∧ @Stopped crates (fun _ => calm) [99] stampRecord 1 prepared (firstBatch prepared) ∧
      (∃ report v, @migrate_collection crates (fun _ => calm) [99] 1 2 [98] stampRecord 1 false prepared = .ok report v) ∧
      ∃ w, @migrate_collection crates (fun _ => calm) [99] 1 2 [98] stampRecord 1 false (firstBatch prepared) =
        .error (.Store (.Store (.StorageQuotaExceeded 2900))) w := by
  have evaluated : passes (@open_with_options crates calm ["a.vstore"] ⟨.Data,true,some 2900,none⟩ []) (fun store _ =>
        let prepared := (@Play.steps crates _ _ _ _ (@collections crates) ⟨.Idle store,[]⟩ twoRecords).session.store
        decide ((prepared.scan_collection [99]).toOption = some [⟨[1],[7],[]⟩,⟨[2],[8],[⟨[105],[2]⟩]⟩]) &&
          passes (@migrate_collection crates (fun _ => calm) [99] 1 2 [98] stampRecord 1 false prepared) (fun _ _ => true) &&
          decide (failure (@migrate_collection crates (fun _ => calm) [99] 1 2 [98] stampRecord 1 false (firstBatch prepared)) =
            some (.Store (.Store (.StorageQuotaExceeded 2900))))) = true := by
    rw [crates_eq_quick]
    decide +kernel
  obtain ⟨store,left,opened,evaluated⟩ := passes_iff.mp evaluated
  refine ⟨store,left,opened,stamp_idempotent,?_⟩
  dsimp only at evaluated ⊢
  generalize (@Play.steps crates _ _ _ _ (@collections crates) ⟨.Idle store,[]⟩ twoRecords).session.store = prepared at evaluated ⊢
  rw [Bool.and_eq_true,Bool.and_eq_true] at evaluated
  obtain ⟨⟨scanned,direct⟩,again⟩ := evaluated
  refine ⟨first_batch_stopped (toOption_some.mp (of_decide_eq_true scanned)),?_,failure_iff.mp (of_decide_eq_true again)⟩
  obtain ⟨report,v,uninterrupted,-⟩ := passes_iff.mp direct
  exact ⟨report,v,uninterrupted⟩

end VoodooStore
