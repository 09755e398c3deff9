import VoodooStore.Queue
import VoodooStore.Quota

/-!
# Health and storage accounting

The report on a store counts its keys and their bytes: those of users, those of
the engine, and those under the prefix of each of its namespaces.
-/
namespace VoodooStore
set_option linter.unusedSimpArgs false

structure StorageStats where
  file_bytes : UInt64
  live_keys : Nat
  user_keys : Nat
  internal_keys : Nat
  key_bytes : UInt64
  value_bytes : UInt64
  deriving DecidableEq

def StorageStats.live_bytes (self : StorageStats) : UInt64 := self.key_bytes + self.value_bytes

structure NamespaceStats where
  name : String
  keys : Nat
  value_bytes : UInt64
  deriving DecidableEq

structure HealthReport where
  store_id : ByteArr 16
  format_major : UInt16
  format_minor : UInt16
  storage : StorageStats
  namespaces : List NamespaceStats
  max_bytes : Option UInt64
  namespace_max_bytes : Option UInt64
  metrics : StoreMetrics
  lock_contentions_total : UInt64
  object_reads_total : UInt64
  object_bytes_read_total : UInt64
  compaction_backlog_bytes : UInt64
  queue_ready : UInt64
  queue_leased : UInt64
  queue_dead : UInt64
  queue_total : UInt64
  queue_oldest_ready_at_ms : Option Int64
  queue_ready_lag_ms : Option UInt64
  within_limit : Bool

inductive OperationsError
  | Store (error : EngineError)
  | Queue (error : QueueError)
  | Io (error : IoError)
  | AccountingOverflow
  deriving DecidableEq

/-- What a report asks the world around the store: the length of the file at
    its path, the time, which is zero before the epoch, and the counters of the
    process. -/
structure Surroundings where
  metadata : Except IoError UInt64
  now_ms : UInt64
  lock_contentions : UInt64
  object_reads : UInt64
  object_bytes_read : UInt64

/-- The loop of `storage_stats`. -/
def count_storage (stats : StorageStats) : List (Bytes × Bytes) → Except OperationsError StorageStats
  | [] => .ok stats
  | (key,value) :: entries => do
    let stats := if starts_with key INTERNAL_KEY_PREFIX then { stats with internal_keys := stats.internal_keys + 1 }
      else { stats with user_keys := stats.user_keys + 1 }
    let key_bytes ← ok_or .AccountingOverflow (stats.key_bytes.checked_add (.ofNat key.length))
    let value_bytes ← ok_or .AccountingOverflow (stats.value_bytes.checked_add (.ofNat value.length))
    count_storage { stats with key_bytes, value_bytes } entries

def Store.storage_stats (self : Store) (around : Surroundings) : Except OperationsError StorageStats := do
  let file_bytes ← around.metadata.mapError .Io
  let entries := Store.scan_prefix self []
  count_storage ⟨file_bytes,entries.length,0,0,0,0⟩ entries

/-- The namespaces of the report, with their prefixes. -/
def NAMESPACES : List (String × Bytes) := [
  ("ttl",INTERNAL_KEY_PREFIX ++ ascii "ttl:"),
  ("collections",INTERNAL_KEY_PREFIX ++ ascii "col:"),
  ("queues",INTERNAL_KEY_PREFIX ++ ascii "q:"),
  ("jobs",INTERNAL_KEY_PREFIX ++ ascii "job:"),
  ("schedules",INTERNAL_KEY_PREFIX ++ ascii "schedule:"),
  ("cron",INTERNAL_KEY_PREFIX ++ ascii "cron:"),
  ("triggers",INTERNAL_KEY_PREFIX ++ ascii "trigger:"),
  ("outbox",INTERNAL_KEY_PREFIX ++ ascii "outbox:"),
  ("rpc",INTERNAL_KEY_PREFIX ++ ascii "rpc:"),
  ("cdc",INTERNAL_KEY_PREFIX ++ ascii "cdc:"),
  ("streams",INTERNAL_KEY_PREFIX ++ ascii "stream:"),
  ("subscriptions",INTERNAL_KEY_PREFIX ++ ascii "sub:"),
  ("consumer_groups",INTERNAL_KEY_PREFIX ++ ascii "cg:"),
  ("objects",INTERNAL_KEY_PREFIX ++ ascii "obj:"),
  ("workflows",INTERNAL_KEY_PREFIX ++ ascii "wf:")]

/-- The sum over the values of a namespace. -/
def sum_values (total : UInt64) : List (Bytes × Bytes) → Except OperationsError UInt64
  | [] => .ok total
  | (_,value) :: entries => do
    let total ← ok_or .AccountingOverflow (total.checked_add (.ofNat value.length))
    sum_values total entries

def Store.namespace_stats (self : Store) (entry : String × Bytes) : Except OperationsError NamespaceStats := do
  let entries := Store.scan_prefix self entry.2
  let value_bytes ← sum_values 0 entries
  return ⟨entry.1,entries.length,value_bytes⟩

/-- How long a message has been ready. -/
def ready_lag_ms (now_ms : UInt64) (timestamp : Int64) : UInt64 :=
  let ready_at_ms := if timestamp < 0 then 0 else timestamp.toUInt64
  now_ms.saturating_sub ready_at_ms

def Store.health_report (self : Store) (around : Surroundings) : Except OperationsError HealthReport := do
  let storage ← self.storage_stats around
  let namespaces ← NAMESPACES.mapM self.namespace_stats
  let queues ← (aggregate_stats self).mapError .Queue
  return {
    store_id := self.header.store_id
    format_major := self.header.format_major
    format_minor := self.header.format_minor
    storage
    namespaces
    max_bytes := self.options.max_bytes
    namespace_max_bytes := self.options.namespace_max_bytes
    metrics := self.metrics
    lock_contentions_total := around.lock_contentions
    object_reads_total := around.object_reads
    object_bytes_read_total := around.object_bytes_read
    compaction_backlog_bytes := storage.file_bytes.saturating_sub storage.live_bytes
    queue_ready := queues.ready
    queue_leased := queues.leased
    queue_dead := queues.dead
    queue_total := queues.total
    queue_oldest_ready_at_ms := queues.oldest_ready_at_ms
    queue_ready_lag_ms := queues.oldest_ready_at_ms.map (ready_lag_ms around.now_ms)
    within_limit := self.options.max_bytes.all (fun max => storage.file_bytes ≤ max) }

end VoodooStore
