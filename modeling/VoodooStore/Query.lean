import VoodooStore.Collections

/-!
# Queries on indexes

A query over a range of index values looks at all entries of the index, takes
those within its bounds, and orders them by value and primary key.
-/
namespace VoodooStore
open Effects Reading
set_option linter.unusedSimpArgs false

inductive QueryBound
  | Unbounded
  | Included (bound : Bytes)
  | Excluded (bound : Bytes)
  deriving DecidableEq

inductive QueryOrder
  | Ascending
  | Descending
  deriving DecidableEq

structure IndexRangeQuery where
  start : QueryBound
  stop : QueryBound
  order : QueryOrder
  limit : Option Nat
  deriving DecidableEq

def IndexRangeQuery.default : IndexRangeQuery := ⟨.Unbounded,.Unbounded,.Ascending,none⟩

structure IndexedRecord where
  index_value : Bytes
  record : CollectionRecord
  deriving DecidableEq

inductive QueryError
  | Collection (error : CollectionError)
  | EmptyName
  | IndexNotFound
  | ComponentTooLarge
  | CorruptIndexMetadata
  | CorruptIndexEntry
  | DanglingIndexEntry
  deriving DecidableEq

instance : Corrupt QueryError := ⟨.CorruptIndexEntry⟩

namespace Query

def component_key (front : Bytes) (components : List Bytes) : Except QueryError Bytes :=
  Collections.component_key .ComponentTooLarge front components

def validate_index_exists (store : Store) (collection index : Bytes) : Except QueryError Unit := do
  let key ← component_key Collections.INDEX_META_PREFIX [collection,index]
  let encoded ← ok_or .IndexNotFound (store.get key)
  match encoded with
  | [version,unique] => if version ≠ Collections.FORMAT_VERSION ∨ unique > 1 then .error .CorruptIndexMetadata else .ok ()
  | _ => .error .CorruptIndexMetadata

def after_start (value : Bytes) : QueryBound → Bool
  | .Unbounded => true
  | .Included bound => (compare value bound).isGE
  | .Excluded bound => (compare value bound).isGT

def before_end (value : Bytes) : QueryBound → Bool
  | .Unbounded => true
  | .Included bound => (compare value bound).isLE
  | .Excluded bound => (compare value bound).isLT

def within_bounds (value : Bytes) (start stop : QueryBound) : Bool :=
  after_start value start && before_end value stop

def read_component : Fields QueryError Bytes := do
  let len_bytes ← Fields.take 4
  Fields.take (Endian.ofBe len_bytes)

/-- The cursor starts behind the prefix, and has to end with the key. -/
def decode_index_entry (front key : Bytes) : Except QueryError (Bytes × Bytes) :=
  if !starts_with key front then .error .CorruptIndexEntry else
  match (do return (← read_component,← read_component) : Fields QueryError (Bytes × Bytes)) (.at front (key.drop front.length)) with
  | .ok entry cursor => if cursor.finished then .ok entry else .error .CorruptIndexEntry
  | .error error _ => .error error

/-- The loop over the entries. -/
def matching (front : Bytes) (query : IndexRangeQuery) : List (Bytes × Bytes) → Except QueryError (List (Bytes × Bytes))
  | [] => .ok []
  | (key,owner) :: entries => do
    let (index_value,primary_key) ← decode_index_entry front key
    if owner ≠ primary_key then .error .CorruptIndexEntry else
    let rest ← matching front query entries
    return if within_bounds index_value query.start query.stop then (index_value,primary_key) :: rest else rest

/-- The loop that fetches the records. -/
def fetch (store : Store) (collection : Bytes) : List (Bytes × Bytes) → Except QueryError (List IndexedRecord)
  | [] => .ok []
  | (index_value,primary_key) :: found => do
    let record ← (store.get_record collection primary_key).mapError .Collection
    let record ← ok_or .DanglingIndexEntry record
    let records ← fetch store collection found
    return ⟨index_value,record⟩ :: records

end Query
open Query

def Store.query_index_range (self : Store) (collection index : Bytes) (query : IndexRangeQuery) : Except QueryError (List IndexedRecord) := do
  if collection = [] ∨ index = [] then .error .EmptyName else
  validate_index_exists self collection index
  if query.limit = some 0 then return [] else
  let front ← component_key Collections.INDEX_PREFIX [collection,index]
  let found ← matching front query (Store.scan_prefix self front)
  let found := found.mergeSort (fun left right => ((compare left.1 right.1).then (compare left.2 right.2)).isLE)
  let found := if query.order = .Descending then found.reverse else found
  let found := match query.limit with
    | some limit => found.take limit
    | none => found
  fetch self collection found

end VoodooStore
