import VoodooStore.Collections
import VoodooStore.Streams

/-!
# The keys of collections

Every key of a collection is a prefix of its kind and a tuple of names, values
and primary keys.
-/
namespace VoodooStore
open Collections
set_option linter.unusedSimpArgs false

theorem component_key_ok {ε : Type} {too_large : ε} {front key : Bytes} {components : List Bytes} :
    component_key too_large front components = .ok key ↔
      (∀ c ∈ components, c.length < 2 ^ 32) ∧ key = front ++ Tuples.tuple 4 components :=
  written_tuple_ok (fun _ => rfl) (fun _ _ _ => rfl)

def metaKey (name : Bytes) : Bytes := META_PREFIX ++ Tuples.tuple 4 [name]
def migrationSpace (name : Bytes) : Bytes := MIGRATION_PREFIX ++ Tuples.tuple 4 [name]
def migrationKey (name : Bytes) (from_version to_version : UInt32) : Bytes :=
  MIGRATION_PREFIX ++ Tuples.tuple 4 [name,from_version.to_be_bytes,to_version.to_be_bytes]
def recordSpace (collection : Bytes) : Bytes := RECORD_PREFIX ++ Tuples.tuple 4 [collection]
def recordKey (collection primary_key : Bytes) : Bytes := RECORD_PREFIX ++ Tuples.tuple 4 [collection,primary_key]
def indexMetaKey (collection index : Bytes) : Bytes := INDEX_META_PREFIX ++ Tuples.tuple 4 [collection,index]
def indexSpace (collection index value : Bytes) : Bytes := INDEX_PREFIX ++ Tuples.tuple 4 [collection,index,value]
def indexKey (collection index value primary_key : Bytes) : Bytes :=
  INDEX_PREFIX ++ Tuples.tuple 4 [collection,index,value,primary_key]

theorem meta_key_ok {name key : Bytes} : meta_key name = .ok key ↔ name.length < 2 ^ 32 ∧ key = metaKey name := by
  rw [meta_key,component_key_ok]
  simp [metaKey]

theorem migration_prefix_ok {name front : Bytes} :
     migration_prefix name = .ok front ↔ name.length < 2 ^ 32 ∧ front = migrationSpace name := by
  rw [Collections.migration_prefix,component_key_ok]
  simp [migrationSpace]

theorem migration_key_ok {name key : Bytes} {from_version to_version : UInt32} :
    migration_key name from_version to_version = .ok key ↔ name.length < 2 ^ 32 ∧ key = migrationKey name from_version to_version := by
  rw [migration_key,component_key_ok]
  simp [migrationKey]

theorem record_prefix_ok {collection front : Bytes} :
     record_prefix collection = .ok front ↔ collection.length < 2 ^ 32 ∧ front = recordSpace collection := by
  rw [Collections.record_prefix,component_key_ok]
  simp [recordSpace]

theorem record_key_ok {collection primary_key key : Bytes} : record_key collection primary_key = .ok key ↔
    (collection.length < 2 ^ 32 ∧ primary_key.length < 2 ^ 32) ∧ key = recordKey collection primary_key := by
  rw [record_key,component_key_ok]
  simp [recordKey]

theorem index_meta_key_ok {collection index key : Bytes} : index_meta_key collection index = .ok key ↔
    (collection.length < 2 ^ 32 ∧ index.length < 2 ^ 32) ∧ key = indexMetaKey collection index := by
  rw [index_meta_key,component_key_ok]
  simp [indexMetaKey]

theorem index_value_prefix_ok {collection index value front : Bytes} :
     index_value_prefix collection index value = .ok front ↔
      (collection.length < 2 ^ 32 ∧ index.length < 2 ^ 32 ∧ value.length < 2 ^ 32) ∧ front = indexSpace collection index value := by
  rw [Collections.index_value_prefix,component_key_ok]
  simp [indexSpace]

theorem index_entry_key_ok {collection index value primary_key key : Bytes} :
    index_entry_key collection index value primary_key = .ok key ↔
      (collection.length < 2 ^ 32 ∧ index.length < 2 ^ 32 ∧ value.length < 2 ^ 32 ∧ primary_key.length < 2 ^ 32) ∧
        key = indexKey collection index value primary_key := by
  rw [index_entry_key,component_key_ok]
  simp [indexKey]

/-! ## The keys of one collection -/

/-- The keys of a collection: its definition, its migrations, its records and its indexes. -/
def CollectionSpace (collection key : Bytes) : Prop := collection.length < 2 ^ 32 ∧ ∃ rest,
  key = META_PREFIX ++ (Tuples.component 4 collection ++ rest) ∨ key = MIGRATION_PREFIX ++ (Tuples.component 4 collection ++ rest) ∨
  key = RECORD_PREFIX ++ (Tuples.component 4 collection ++ rest) ∨ key = INDEX_META_PREFIX ++ (Tuples.component 4 collection ++ rest) ∨
  key = INDEX_PREFIX ++ (Tuples.component 4 collection ++ rest)

theorem collection_tuple (front collection : Bytes) (components : List Bytes) :
    front ++ Tuples.tuple 4 (collection :: components) = front ++ (Tuples.component 4 collection ++ Tuples.tuple 4 components) := by
  simp [Tuples.tuple]

theorem meta_key_space {collection key : Bytes} (made : meta_key collection = .ok key) : CollectionSpace collection key := by
  obtain ⟨fits,rfl⟩ := meta_key_ok.mp made
  exact ⟨fits,_,.inl (collection_tuple _ _ _)⟩

theorem migration_key_space {collection key : Bytes} {from_version to_version : UInt32}
    (made : migration_key collection from_version to_version = .ok key) : CollectionSpace collection key := by
  obtain ⟨fits,rfl⟩ := migration_key_ok.mp made
  exact ⟨fits,_,.inr (.inl (collection_tuple _ _ _))⟩

theorem record_key_space {collection primary_key key : Bytes} (made : record_key collection primary_key = .ok key) :
    CollectionSpace collection key := by
  obtain ⟨fits,rfl⟩ := record_key_ok.mp made
  exact ⟨fits.1,_,.inr (.inr (.inl (collection_tuple _ _ _)))⟩

theorem index_meta_key_space {collection index key : Bytes} (made : index_meta_key collection index = .ok key) :
    CollectionSpace collection key := by
  obtain ⟨fits,rfl⟩ := index_meta_key_ok.mp made
  exact ⟨fits.1,_,.inr (.inr (.inr (.inl (collection_tuple _ _ _))))⟩

theorem index_entry_key_space {collection index value primary_key key : Bytes}
    (made : index_entry_key collection index value primary_key = .ok key) : CollectionSpace collection key := by
  obtain ⟨fits,rfl⟩ := index_entry_key_ok.mp made
  exact ⟨fits.1,_,.inr (.inr (.inr (.inr (collection_tuple _ _ _))))⟩

end VoodooStore
