import VoodooStore.CollectionIndexes

/-!
# Migrating the records of a collection

The helper of the Python binding: it transforms the records of a collection in
batches, each of them a transaction of its own, and advances the version of the
schema after all of them. What it does to the map is what the same steps do to a
map, unless the engine refuses one of its transactions.
-/
namespace VoodooStore
open Effects Reading Collections
set_option linter.unusedSimpArgs false

/-! ## Transformers -/

/-- What a transformer may return: bytes, a tuple, something else that can be iterated, or something that cannot. -/
inductive PyObject
  | Bytes (bytes : Bytes)
  | Tuple (items : List PyObject)
  | List (items : List PyObject)
  | Other

inductive MigrationProblem
  | CollectionNotNonEmptyBytes
  | CodecNotNonEmptyBytes
  | NextVersionNotGreater
  | BatchSizeNotPositive
  | CollectionDoesNotExist
  | TupleNotValueAndIndexes
  | ValueNotBytes
  | IndexesNotTuples
  | IndexesNotBytes
  deriving DecidableEq

inductive MigrationConflict
  | Expected (expected_version found : Int)
  | ChangedDuringMigration
  deriving DecidableEq

/-- What `migrate_collection` raises. A version that is no `u32` overflows in the binding. -/
inductive MigrationFailure
  | MigrationError (problem : MigrationProblem)
  | MigrationConflict (conflict : MigrationConflict)
  | Transform
  | TypeError
  | OverflowError
  | Store (error : CollectionError)
  deriving DecidableEq

/-- A transformer is called with a primary key, a value and indexes, and may raise. -/
def Transformer : Type := Bytes → Bytes → List IndexValue → Option PyObject

namespace Migrations

/-- What a loop over the object goes through. The items of bytes are numbers. -/
def iterated : PyObject → Except MigrationFailure (List PyObject)
  | .Bytes bytes => .ok (bytes.map (fun _ => .Other))
  | .Tuple items => .ok items
  | .List items => .ok items
  | .Other => .error .TypeError

def normalized_index : PyObject → Except MigrationFailure IndexValue
  | .Tuple [.Bytes index_name,.Bytes index_value] => .ok ⟨index_name,index_value⟩
  | .Tuple [_,_] => .error (.MigrationError .IndexesNotBytes)
  | _ => .error (.MigrationError .IndexesNotTuples)

def index_tuples (indexes : List IndexValue) : PyObject :=
  .List (indexes.map (fun index => .Tuple [.Bytes index.index,.Bytes index.value]))

/-- The value and the indexes that the transformer has returned. -/
def unpacked (indexes : List IndexValue) : PyObject → Except MigrationFailure (PyObject × PyObject)
  | .Tuple [value,indexes] => .ok (value,indexes)
  | .Tuple _ => .error (.MigrationError .TupleNotValueAndIndexes)
  | result => .ok (result,index_tuples indexes)

/-- What the loop of `migrate_collection` makes of a record. -/
def transformed (transform : Transformer) (record : CollectionRecord) : Except MigrationFailure CollectionRecord := do
  let result ← ok_or .Transform (transform record.primary_key record.value record.indexes)
  let (value,indexes) ← unpacked record.indexes result
  match value with
  | .Bytes value => do
    let items ← iterated indexes
    let indexes ← items.mapM normalized_index
    return ⟨record.primary_key,value,indexes⟩
  | _ => .error (.MigrationError .ValueNotBytes)

/-! ## Batches -/

structure MigrationProgress where
  pending : List CollectionRecord
  seen : Nat
  migrated : Nat
  batches : Nat

def MigrationProgress.start : MigrationProgress := ⟨[],0,0,0⟩

/-- The record is transformed and waits for its batch. -/
def MigrationProgress.add (progress : MigrationProgress) (record : CollectionRecord) : MigrationProgress :=
  { progress with pending := progress.pending ++ [record], seen := progress.seen + 1, migrated := progress.migrated + 1 }

/-- A version as the binding takes it. -/
def u32_argument (version : Int) : Except MigrationFailure UInt32 :=
  if 0 ≤ version ∧ version < 2 ^ 32 then .ok (UInt32.ofNat version.toNat) else .error .OverflowError

end Migrations
open Migrations

structure MigrationReport where
  collection : Bytes
  from_version : Int
  to_version : Int
  records_seen : Nat
  records_migrated : Nat
  batches_committed : Nat
  dry_run : Bool

section
variable [Hashes]

/-- The operations of a transaction of the binding, when it is committed. -/
def upsert_records (io : Io) (collection : Bytes) : List CollectionRecord → EStateM CollectionError Transaction Unit
  | [] => pure ()
  | record :: records => do
    upsert_record io collection record.primary_key record.value record.indexes
    upsert_records io collection records

def commit_batch (io : Io) (collection : Bytes) (dry_run : Bool) (progress : MigrationProgress) : EStateM MigrationFailure Store MigrationProgress :=
  if dry_run ∨ progress.pending = [] then return progress else do
  rethrow .Store (within .Store io (upsert_records io collection progress.pending))
  return { progress with batches := progress.batches + 1 }

/-- The loop of `migrate_collection`. -/
def migrate_records (ios : Nat → Io) (collection : Bytes) (transform : Transformer) (batch_size : Int) (dry_run : Bool) :
    List CollectionRecord → MigrationProgress → EStateM MigrationFailure Store MigrationProgress
  | [], progress => pure progress
  | record :: records, progress => do
    let new ← lift (transformed transform record)
    let progress := progress.add new
    if batch_size ≤ progress.pending.length then do
      let progress ← commit_batch (ios progress.batches) collection dry_run progress
      migrate_records ios collection transform batch_size dry_run records { progress with pending := [] }
    else migrate_records ios collection transform batch_size dry_run records progress

/-- All batches, the last of which may be a smaller one. -/
def migrate_batches (ios : Nat → Io) (collection : Bytes) (transform : Transformer) (batch_size : Int) (dry_run : Bool)
    (records : List CollectionRecord) : EStateM MigrationFailure Store MigrationProgress := do
  let progress ← migrate_records ios collection transform batch_size dry_run records .start
  commit_batch (ios progress.batches) collection dry_run progress

def migrate_collection (ios : Nat → Io) (collection : Bytes) (expected_version next_version : Int) (codec : Bytes) (transform : Transformer)
    (batch_size : Int) (dry_run : Bool) : EStateM MigrationFailure Store MigrationReport := do
  if collection = [] then throw (.MigrationError .CollectionNotNonEmptyBytes) else
  if codec = [] then throw (.MigrationError .CodecNotNonEmptyBytes) else
  if expected_version < 1 ∨ next_version ≤ expected_version then throw (.MigrationError .NextVersionNotGreater) else
  if batch_size < 1 then throw (.MigrationError .BatchSizeNotPositive) else do
  match ← lift (((← get).collection_definition collection).mapError .Store) with
  | none => throw (.MigrationError .CollectionDoesNotExist)
  | some definition =>
  if (definition.schema_version.toNat : Int) ≠ expected_version then
    throw (.MigrationConflict (.Expected expected_version definition.schema_version.toNat)) else do
  let records ← lift (((← get).scan_collection collection).mapError .Store)
  let progress ← migrate_batches ios collection transform batch_size dry_run records
  let report : MigrationReport :=
    ⟨collection,expected_version,next_version,progress.seen,progress.migrated,progress.batches,dry_run⟩
  if dry_run then return report else do
  let expected ← lift (u32_argument expected_version)
  let next ← lift (u32_argument next_version)
  if ← rethrow .Store (migrate_collection_schema (ios progress.batches) collection expected next codec) then return report
  else throw (.MigrationConflict .ChangedDuringMigration)

end

/-! ## On maps -/

def upsertsIn (collection : Bytes) : List CollectionRecord → EStateM CollectionError State Unit
  | [] => pure ()
  | record :: records => do
    upsertIn collection record.primary_key record.value record.indexes
    upsertsIn collection records

def commitIn (collection : Bytes) (dry_run : Bool) (progress : MigrationProgress) : EStateM MigrationFailure State MigrationProgress :=
  if dry_run ∨ progress.pending = [] then return progress else do
  rethrow .Store (atomically (upsertsIn collection progress.pending))
  return { progress with batches := progress.batches + 1 }

def recordsIn (collection : Bytes) (transform : Transformer) (batch_size : Int) (dry_run : Bool) :
    List CollectionRecord → MigrationProgress → EStateM MigrationFailure State MigrationProgress
  | [], progress => pure progress
  | record :: records, progress => do
    let new ← lift (transformed transform record)
    let progress := progress.add new
    if batch_size ≤ progress.pending.length then do
      let progress ← commitIn collection dry_run progress
      recordsIn collection transform batch_size dry_run records { progress with pending := [] }
    else recordsIn collection transform batch_size dry_run records progress

def batchesIn (collection : Bytes) (transform : Transformer) (batch_size : Int) (dry_run : Bool) (records : List CollectionRecord) :
    EStateM MigrationFailure State MigrationProgress := do
  let progress ← recordsIn collection transform batch_size dry_run records .start
  commitIn collection dry_run progress

def definitionIn (state : State) (name : Bytes) : Except CollectionError (Option CollectionDefinition) := do
  let key ← meta_key name
  state[key]?.mapM decode_collection_definition

def scanIn (state : State) (collection : Bytes) : Except CollectionError (List CollectionRecord) := do
  let front ← record_prefix collection
  (scan state front).mapM (fun entry => do
    let primary_key ← decode_record_primary_key front entry.1
    let decoded ← decode_record_value entry.2
    return ⟨primary_key,decoded.value,decoded.indexes⟩)

def migrateCollectionIn (collection : Bytes) (expected_version next_version : Int) (codec : Bytes) (transform : Transformer)
    (batch_size : Int) (dry_run : Bool) : EStateM MigrationFailure State MigrationReport := do
  if collection = [] then throw (.MigrationError .CollectionNotNonEmptyBytes) else
  if codec = [] then throw (.MigrationError .CodecNotNonEmptyBytes) else
  if expected_version < 1 ∨ next_version ≤ expected_version then throw (.MigrationError .NextVersionNotGreater) else
  if batch_size < 1 then throw (.MigrationError .BatchSizeNotPositive) else do
  match ← lift ((definitionIn (← get) collection).mapError .Store) with
  | none => throw (.MigrationError .CollectionDoesNotExist)
  | some definition =>
  if (definition.schema_version.toNat : Int) ≠ expected_version then
    throw (.MigrationConflict (.Expected expected_version definition.schema_version.toNat)) else do
  let records ← lift ((scanIn (← get) collection).mapError .Store)
  let progress ← batchesIn collection transform batch_size dry_run records
  let report : MigrationReport :=
    ⟨collection,expected_version,next_version,progress.seen,progress.migrated,progress.batches,dry_run⟩
  if dry_run then return report else do
  let expected ← lift (u32_argument expected_version)
  let next ← lift (u32_argument next_version)
  if ← rethrow .Store (migrateIn collection expected next codec) then return report
  else throw (.MigrationConflict .ChangedDuringMigration)

section
variable [Hashes]

/-- The engine refuses a transaction of a migration. -/
def EngineRefuses (e : MigrationFailure) : Prop := ∃ d, e = .Store (.Store d)

omit [Hashes] in
theorem refusal_passed (e : CollectionError) (refused : EngineRefusal e) : EngineRefuses (.Store e) := by
  obtain ⟨d,rfl⟩ := refused
  exact ⟨d,rfl⟩

theorem upsert_records_mirrors (io : Io) (collection : Bytes) (records : List CollectionRecord) :
    Mirrors Transaction.data EngineRefusal (upsert_records io collection records) (upsertsIn collection records) := by
  induction records with
  | nil => exact mirrors_pure ()
  | cons record records ih => exact (upsert_record_mirrors io collection _ _ _).bind (fun _ => ih)

theorem upsert_records_confined (io : Io) (collection : Bytes) (records : List CollectionRecord) :
    OrderlyView (CollectionSpace collection) False (upsert_records io collection records) := by
  induction records with
  | nil => exact orderly_view_of_reads (reads_pure _)
  | cons record records ih => exact (upsert_record_orderly False.elim collection _ _ _).bind (fun _ => ih)

theorem upsert_records_carries (io : Io) (collection : Bytes) (records : List CollectionRecord) (tx : Transaction) :
    Carries tx (after (upsert_records io collection records) tx) := (upsert_records_confined io collection records).confined.carries tx

theorem commit_batch_mirrors (io : Io) (collection : Bytes) (dry_run : Bool) (progress : MigrationProgress) :
    Mirrors Store.data EngineRefuses (commit_batch io collection dry_run progress) (commitIn collection dry_run progress) := by
  unfold commit_batch commitIn
  by_cases nothing : dry_run ∨ progress.pending = []
  · rw [if_pos nothing,if_pos nothing]
    exact mirrors_pure _
  rw [if_neg nothing,if_neg nothing]
  have batch : Mirrors Store.data EngineRefusal (within .Store io (upsert_records io collection progress.pending))
      (atomically (upsertsIn collection progress.pending)) :=
    within_mirrors (upsert_records_carries io collection _) (upsert_records_mirrors io collection _)
  exact (batch.rethrow refusal_passed).bind (fun _ => mirrors_pure _)

theorem migrate_records_mirrors (ios : Nat → Io) (collection : Bytes) (transform : Transformer) (batch_size : Int) (dry_run : Bool)
    (records : List CollectionRecord) (progress : MigrationProgress) :
    Mirrors Store.data EngineRefuses (migrate_records ios collection transform batch_size dry_run records progress)
      (recordsIn collection transform batch_size dry_run records progress) := by
  induction records generalizing progress with
  | nil => exact mirrors_pure _
  | cons record records ih =>
    refine .lifted (fun new _ => ?_)
    by_cases full : batch_size ≤ (progress.add new).pending.length
    · dsimp only
      rw [if_pos full,if_pos full]
      exact (commit_batch_mirrors _ collection dry_run _).bind (fun _ => ih _)
    · dsimp only
      rw [if_neg full,if_neg full]
      exact ih _

theorem migrate_batches_mirrors (ios : Nat → Io) (collection : Bytes) (transform : Transformer) (batch_size : Int) (dry_run : Bool)
    (records : List CollectionRecord) : Mirrors Store.data EngineRefuses (migrate_batches ios collection transform batch_size dry_run records)
      (batchesIn collection transform batch_size dry_run records) :=
  (migrate_records_mirrors ios collection transform batch_size dry_run records .start).bind
    (fun progress => commit_batch_mirrors _ collection dry_run progress)

omit [Hashes] in
theorem definition_eq (store : Store) (name : Bytes) : store.collection_definition name = definitionIn store.data name := by
  unfold Store.collection_definition definitionIn
  cases made : meta_key name with
  | error e => rfl
  | ok key =>
    obtain ⟨-,rfl⟩ := meta_key_ok.mp made
    rw [ok_bind,ok_bind,Store.data,data_outside (collection_key_outside (meta_key_own name))]
    rfl

omit [Hashes] in
theorem scan_eq (store : Store) (collection : Bytes) : store.scan_collection collection = scanIn store.data collection := by
  unfold Store.scan_collection scanIn
  cases made : record_prefix collection with
  | error e => rfl
  | ok front =>
    obtain ⟨-,rfl⟩ := record_prefix_ok.mp made
    rw [ok_bind,ok_bind,scan_prefix_eq,Store.data,scan_data]
    intro key inside
    have under : RECORD_PREFIX <+: key := (List.prefix_append _ _).trans ((starts_with_iff _ _).mp inside)
    exact collection_key_outside (under_collections (by decide) under)

theorem migrate_collection_mirrors (ios : Nat → Io) (collection : Bytes) (expected_version next_version : Int) (codec : Bytes)
    (transform : Transformer) (batch_size : Int) (dry_run : Bool) : Mirrors Store.data EngineRefuses
      (migrate_collection ios collection expected_version next_version codec transform batch_size dry_run)
      (migrateCollectionIn collection expected_version next_version codec transform batch_size dry_run) := by
  unfold migrate_collection migrateCollectionIn
  by_cases empty : collection = []
  · rw [if_pos empty,if_pos empty]
    exact mirrors_throw _
  rw [if_neg empty,if_neg empty]
  by_cases uncoded : codec = []
  · rw [if_pos uncoded,if_pos uncoded]
    exact mirrors_throw _
  rw [if_neg uncoded,if_neg uncoded]
  by_cases backwards : expected_version < 1 ∨ next_version ≤ expected_version
  · rw [if_pos backwards,if_pos backwards]
    exact mirrors_throw _
  rw [if_neg backwards,if_neg backwards]
  by_cases unsized : batch_size < 1
  · rw [if_pos unsized,if_pos unsized]
    exact mirrors_throw _
  rw [if_neg unsized,if_neg unsized]
  refine .looks (fun store => congrArg _ (definition_eq store collection)) (fun _ found _ => ?_)
  cases found with
  | none => exact mirrors_throw _
  | some definition =>
    by_cases other : (definition.schema_version.toNat : Int) ≠ expected_version
    · dsimp only
      rw [if_pos other,if_pos other]
      exact mirrors_throw _
    dsimp only
    rw [if_neg other,if_neg other]
    refine .looks (fun store => congrArg _ (scan_eq store collection)) (fun _ records _ => ?_)
    refine (migrate_batches_mirrors ios collection transform batch_size dry_run records).bind (fun progress => ?_)
    by_cases dry : dry_run = true
    · rw [if_pos dry,if_pos dry]
      exact mirrors_pure _
    rw [if_neg dry,if_neg dry]
    refine .lifted (fun expected _ => .lifted (fun next _ => ?_))
    refine ((migrate_schema_mirrors _ collection expected next codec).rethrow refusal_passed).bind (fun advanced => ?_)
    cases advanced with
    | true => exact mirrors_pure _
    | false => exact mirrors_throw _

end

end VoodooStore
