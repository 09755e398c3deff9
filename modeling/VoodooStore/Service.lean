import VoodooStore.ApiCalls
import VoodooStore.Reachable

/-!
# The whole interface in use

All that a program can do with a store: the calls of every domain on it and on
its open transaction, and reopening it, copying it or rewriting it as a
generation. Every reserved key that comes about lies in the key space of some
domain or of the feed (`Served.covered`).
-/
namespace VoodooStore
open Effects Collections
set_option linter.unusedSimpArgs false

inductive ApiCall
  | Keys (call : KeyCall)
  | Queues (call : QueueCall)
  | Streams (call : StreamCall)
  | Objects (call : ObjectCall)
  | Jobs (call : JobCall)
  | Schedules (call : ScheduleCall)
  | Crons (call : CronCall)
  | Outbox (call : OutboxCall)
  | Rpc (call : RpcCall)
  | Workflows (call : WorkflowStoreCall)
  | CreateTrigger (io : Io) (entropy : Option (ByteArr 16)) (name : Bytes) (source : TriggerSource) (job : JobSpec)
  | SetTriggerEnabled (io : Io) (id : TriggerId) (enabled : Bool)
  | FireTrigger (io : Io) (entropy : Option (ByteArr 16)) (id : TriggerId) (event_payload : Bytes) (now_ms : Int64)
  | CreateCollection (io : Io) (name : Bytes) (definition : CollectionDefinition)
  | MigrateCollectionSchema (io : Io) (name : Bytes) (expected_version next_version : UInt32) (codec : Bytes)
  | DefineIndex (io : Io) (collection : Bytes) (definition : IndexDefinition)
  | UpsertRecord (io : Io) (collection primary_key value : Bytes) (indexes : List IndexValue)
  | DeleteRecord (io : Io) (collection primary_key : Bytes)
  | PruneChangesThrough (io : Io) (tx_id : UInt64) (limit : Nat)

inductive ApiTxCall
  | Keys (call : KeyTxCall)
  | Queues (call : QueueTxCall)
  | Streams (call : StreamTxCall)
  | Objects (call : ObjectTxCall)
  | Outbox (call : OutboxTxCall)
  | Rpc (call : RpcTxCall)
  | Workflows (call : WorkflowCall)
  | EnqueueJob (io : Io) (entropy : Option (ByteArr 16)) (spec : JobSpec) (now_ms : Int64)
  | FireTrigger (io : Io) (entropy : Option (ByteArr 16)) (id : TriggerId) (event_payload : Bytes) (now_ms : Int64)
  | UpsertRecord (io : Io) (collection primary_key value : Bytes) (indexes : List IndexValue)
  | DeleteRecord (io : Io) (collection primary_key : Bytes)

/-- No write of the call fails. -/
def ApiCall.Durable : ApiCall → Prop
  | .Keys call => call.io.Durable
  | .Queues call => call.io.Durable
  | .Streams call => call.io.Durable
  | .Objects call => call.Durable
  | .Jobs call => call.io.Durable
  | .Schedules call => call.io.Durable
  | .Crons call => call.io.Durable
  | .Outbox call => call.io.Durable
  | .Rpc call => call.Durable
  | .Workflows call => call.Durable
  | .CreateTrigger io _ _ _ _ => io.Durable
  | .SetTriggerEnabled io _ _ => io.Durable
  | .FireTrigger io _ _ _ _ => io.Durable
  | .CreateCollection io _ _ => io.Durable
  | .MigrateCollectionSchema io _ _ _ _ => io.Durable
  | .DefineIndex io _ _ => io.Durable
  | .UpsertRecord io _ _ _ _ => io.Durable
  | .DeleteRecord io _ _ => io.Durable
  | .PruneChangesThrough io _ _ => io.Durable

def ApiTxCall.Durable : ApiTxCall → Prop
  | .Keys call => call.io.Durable
  | .Queues call => call.io.Durable
  | .Streams call => call.io.Durable
  | .Objects call => call.Durable
  | .Outbox call => call.io.Durable
  | .Rpc call => call.Durable
  | .Workflows call => call.io.Durable
  | .EnqueueJob io _ _ _ => io.Durable
  | .FireTrigger io _ _ _ _ => io.Durable
  | .UpsertRecord io _ _ _ _ => io.Durable
  | .DeleteRecord io _ _ => io.Durable

/-- The computation; what it returns is not looked at. -/
def silent {ε σ α : Type} (x : EStateM ε σ α) : EStateM Unit σ Unit := rethrow (fun _ => ()) (do let _ ← x)

section
variable [Hashes]

def api : Domain Unit ApiCall ApiTxCall Unit where
  on_store
    | .Keys call => silent (keys.on_store call)
    | .Queues call => silent (queues.on_store call)
    | .Streams call => silent (streams.on_store call)
    | .Objects call => silent (objects.on_store call)
    | .Jobs call => silent (jobs.on_store call)
    | .Schedules call => silent call.run
    | .Crons call => silent (crons.on_store call)
    | .Outbox call => silent (outbox.on_store call)
    | .Rpc call => silent (rpc.on_store call)
    | .Workflows call => silent (workflows.on_store call)
    | .CreateTrigger io entropy name source job => silent (create_trigger io entropy name source job)
    | .SetTriggerEnabled io id enabled => silent (set_trigger_enabled io id enabled)
    | .FireTrigger io entropy id event_payload now_ms => silent (fire_trigger io entropy id event_payload now_ms)
    | .CreateCollection io name definition => silent (create_collection io name definition)
    | .MigrateCollectionSchema io name expected_version next_version codec =>
      silent (migrate_collection_schema io name expected_version next_version codec)
    | .DefineIndex io collection definition => silent (define_index io collection definition)
    | .UpsertRecord io collection primary_key value indexes => silent (Store.upsert_record io collection primary_key value indexes)
    | .DeleteRecord io collection primary_key => silent (Store.delete_record io collection primary_key)
    | .PruneChangesThrough io tx_id limit => silent (prune_changes_through io tx_id limit)
  on_tx
    | .Keys call => silent (keys.on_tx call)
    | .Queues call => silent (queues.on_tx call)
    | .Streams call => silent (streams.on_tx call)
    | .Objects call => silent (objects.on_tx call)
    | .Outbox call => silent (outbox.on_tx call)
    | .Rpc call => silent (rpc.on_tx call)
    | .Workflows call => silent call.on_tx
    | .EnqueueJob io entropy spec now_ms => silent (enqueue_job io entropy spec now_ms)
    | .FireTrigger io entropy id event_payload now_ms => silent (fire_trigger_tx io entropy id event_payload now_ms)
    | .UpsertRecord io collection primary_key value indexes => silent (upsert_record io collection primary_key value indexes)
    | .DeleteRecord io collection primary_key => silent (delete_record io collection primary_key)

end

/-! ## Which keys are written -/

/-- A key that a call may write: one of a user or of a domain. -/
def Civil (key : Bytes) : Prop := UserKey key ∨ DomainKey key

theorem civil_front {front key : Bytes} (member : front ∈ DOMAIN_PREFIXES) (starts : front <+: key) : Civil key :=
  .inr ⟨front,member,starts⟩

theorem civil_starting {front key : Bytes} (member : front ∈ DOMAIN_PREFIXES) (starts : starts_with key front = true) : Civil key :=
  civil_front member ((starts_with_iff _ _).mp starts)

theorem key_call_civil {call : KeyCall} {key : Bytes} (own : call.own key) : Civil key := by
  have expiry : ∀ user_key, Civil (ttlKey user_key) := fun user_key =>
    civil_front (show TTL_PREFIX ∈ DOMAIN_PREFIXES by decide) (List.prefix_append _ _)
  cases call with
  | Put io user_key value => obtain ⟨user,rfl⟩ := own; exact .inl user
  | PutWithTtl io user_key value expires_at_ms =>
    rcases own with ⟨user,rfl⟩ | rfl
    · exact .inl user
    · exact expiry user_key
  | Delete io user_key => obtain ⟨user,rfl⟩ := own; exact .inl user
  | CompareAndSwap io user_key expected replacement => obtain ⟨user,rfl⟩ := own; exact .inl user
  | IncrementI64 io user_key delta => obtain ⟨user,rfl⟩ := own; exact .inl user
  | ClearTtl io user_key => cases own; exact expiry user_key
  | PurgeExpired io now_ms limit =>
    rcases own with user | starts
    · exact .inl user
    · exact civil_front (show TTL_PREFIX ∈ DOMAIN_PREFIXES by decide) starts

theorem key_tx_civil {call : KeyTxCall} {key : Bytes} (own : call.own key) : Civil key := by
  cases call with
  | Put io user_key value => obtain ⟨user,rfl⟩ := own; exact .inl user
  | Delete io user_key => obtain ⟨user,rfl⟩ := own; exact .inl user

theorem queue_civil {name key : Bytes} (own : starts_with key (queueSpace name) = true) : Civil key :=
  civil_starting (show QUEUE_PREFIX ∈ DOMAIN_PREFIXES by decide) (queue_space_inside own)

theorem stream_civil {name key : Bytes} (own : starts_with key (streamSpace name) = true) : Civil key := by
  refine civil_front (show STREAM_PREFIX ∈ DOMAIN_PREFIXES by decide) ?_
  exact (List.prefix_append _ _).trans ((starts_with_iff _ _).mp own)

theorem stream_call_civil {call : StreamCall} {key : Bytes} (own : call.own key) : Civil key := by
  have subscription : ∀ topic subscription, Civil (subKey topic subscription) := fun topic subscription =>
    civil_front (show SUB_PREFIX ∈ DOMAIN_PREFIXES by decide) (List.prefix_append _ _)
  have group : ∀ stream group, Civil (groupKey stream group) := fun stream group =>
    civil_front (show GROUP_PREFIX ∈ DOMAIN_PREFIXES by decide) (List.prefix_append _ _)
  cases call with
  | Append io stream payload => exact stream_civil own.2
  | AcknowledgeThrough io topic name offset => obtain ⟨-,-,rfl⟩ := own; exact subscription topic name
  | ResetSubscription io topic name next_offset => obtain ⟨-,-,rfl⟩ := own; exact subscription topic name
  | GroupClaim io stream name consumer now_ms lease_duration_ms => obtain ⟨-,-,rfl⟩ := own; exact group stream name
  | GroupAck io stream name consumer offset lease_generation => obtain ⟨-,-,rfl⟩ := own; exact group stream name
  | GroupNack io stream name consumer offset lease_generation => obtain ⟨-,-,rfl⟩ := own; exact group stream name
  | GroupReset io stream name next_offset => obtain ⟨-,-,rfl⟩ := own; exact group stream name

theorem theirs_civil {ids : List ObjectId} {key : Bytes} (theirs : Theirs ids key) : Civil key := by
  obtain ⟨id,-,rfl | rfl⟩ := theirs
  · exact civil_starting (show OBJECT_PREFIX ∈ DOMAIN_PREFIXES by decide) (object_key_own id)
  · exact civil_starting (show Objects.METADATA_PREFIX ∈ DOMAIN_PREFIXES by decide) (metadata_key_own id)

theorem reference_civil (ns name : Bytes) : Civil (refKey ns name) :=
  civil_starting (show Objects.REF_PREFIX ∈ DOMAIN_PREFIXES by decide) (ref_key_own ns name)

theorem job_civil {key : Bytes} (own : jobSpace key) : Civil key := by
  rcases own with data | history
  · exact civil_front (show JOB_PREFIX ∈ DOMAIN_PREFIXES by decide) data
  · exact civil_front (show HISTORY_PREFIX ∈ DOMAIN_PREFIXES by decide) history

theorem schedule_civil {key : Bytes} (own : ScheduleSpace key) : Civil key := by
  rcases own with job | schedule
  · exact job_civil job
  · exact civil_front (show SCHEDULE_PREFIX ∈ DOMAIN_PREFIXES by decide) schedule

theorem cron_civil {key : Bytes} (own : CronSpace key) : Civil key := by
  rcases own with job | schedule
  · exact job_civil job
  · exact civil_front (show CRON_PREFIX ∈ DOMAIN_PREFIXES by decide) schedule

theorem trigger_civil {key : Bytes} (own : TriggerSpace key) : Civil key := by
  rcases own with job | trigger
  · exact job_civil job
  · exact civil_front (show TRIGGER_PREFIX ∈ DOMAIN_PREFIXES by decide) trigger

theorem outbox_civil {key : Bytes} (own : OUTBOX_PREFIX <+: key) : Civil key :=
  civil_front (show OUTBOX_PREFIX ∈ DOMAIN_PREFIXES by decide) own

theorem rpc_civil {key : Bytes} (own : RpcSpace key) : Civil key := by
  rcases own with request | response
  · exact civil_front (show REQUEST_PREFIX ∈ DOMAIN_PREFIXES by decide) request
  · exact civil_front (show RESPONSE_PREFIX ∈ DOMAIN_PREFIXES by decide) response

theorem workflow_civil {key : Bytes} (own : WorkflowSpace key) : Civil key := by
  rcases own with data | history
  · exact civil_front (show Workflow.INSTANCE_PREFIX ∈ DOMAIN_PREFIXES by decide) data
  · exact civil_front (show Workflow.HISTORY_PREFIX ∈ DOMAIN_PREFIXES by decide) history

theorem collection_civil {collection key : Bytes} (own : CollectionSpace collection key) : Civil key := by
  obtain ⟨-,rest,rfl | rfl | rfl | rfl | rfl⟩ := own
  · exact civil_front (show META_PREFIX ∈ DOMAIN_PREFIXES by decide) (List.prefix_append _ _)
  · exact civil_front (show MIGRATION_PREFIX ∈ DOMAIN_PREFIXES by decide) (List.prefix_append _ _)
  · exact civil_front (show RECORD_PREFIX ∈ DOMAIN_PREFIXES by decide) (List.prefix_append _ _)
  · exact civil_front (show INDEX_META_PREFIX ∈ DOMAIN_PREFIXES by decide) (List.prefix_append _ _)
  · exact civil_front (show INDEX_PREFIX ∈ DOMAIN_PREFIXES by decide) (List.prefix_append _ _)

section
variable [Hashes]

theorem object_call_civil {call : ObjectCall} {key : Bytes} (own : call.own key) : Civil key := by
  cases call with
  | PutObject io content => exact theirs_civil own
  | PutObjectWithMetadata io metadata_io content metadata => exact theirs_civil own
  | LinkObject io ns name id => cases own; exact reference_civil ns name
  | UnlinkObject io ns name => cases own; exact reference_civil ns name
  | GcOrphanObjects io limit => obtain ⟨ids,theirs⟩ := own; exact theirs_civil theirs
  | PurgeExpiredObjects io now_unix limit => obtain ⟨ids,theirs⟩ := own; exact theirs_civil theirs

theorem object_tx_civil {call : ObjectTxCall} {key : Bytes} (own : call.own key) : Civil key := by
  cases call with
  | PutObject io content => exact theirs_civil own
  | LinkObject io ns name id => cases own; exact reference_civil ns name
  | UnlinkObject io ns name => cases own; exact reference_civil ns name

theorem Orderly.silent {ε α : Type} {own : Bytes → Prop} {safe : Prop} {x : EStateM ε Store α} (orderly : Orderly own safe x)
    (inside : ∀ key, own key → Civil key) : Orderly Civil safe (silent x) :=
  ((orderly.mono inside).returning (fun _ => ())).rethrow

theorem OrderlyView.silent {ε α : Type} {own : Bytes → Prop} {safe : Prop} {x : EStateM ε Transaction α}
    (orderly : OrderlyView own safe x) (inside : ∀ key, own key → Civil key) : OrderlyView Civil safe (silent x) :=
  ((orderly.mono inside).returning (fun _ => ())).rethrow

/-- Whatever fails, a call changes only keys of users, of domains and of the feed. -/
theorem api_call_orderly (call : ApiCall) : Orderly Civil call.Durable (api.on_store call) := by
  cases call with
  | Keys call => exact (key_call_orderly call).silent (fun _ => key_call_civil)
  | Queues call => exact (queue_call_orderly call).silent (fun _ => queue_civil)
  | Streams call => exact (stream_call_orderly call).silent (fun _ => stream_call_civil)
  | Objects call => exact (object_call_orderly call).silent (fun _ => object_call_civil)
  | Jobs call => exact (job_call_orderly call).silent (fun _ => schedule_civil)
  | Schedules call => exact (schedule_call_orderly call).silent (fun _ => schedule_civil)
  | Crons call => exact (cron_call_orderly call).silent (fun _ => cron_civil)
  | Outbox call => exact (outbox_call_orderly call).silent (fun _ => outbox_civil)
  | Rpc call => exact (rpc_call_orderly call).silent (fun _ => rpc_civil)
  | Workflows call => exact (workflow_store_orderly call).silent (fun _ => workflow_civil)
  | CreateTrigger io entropy name source job => exact (create_trigger_orderly id entropy name source job).silent (fun _ => trigger_civil)
  | SetTriggerEnabled io trigger_id enabled => exact (set_trigger_orderly id trigger_id enabled).silent (fun _ => trigger_civil)
  | FireTrigger io entropy trigger_id event_payload now_ms =>
    exact (within_orderly id (fire_trigger_orderly id entropy trigger_id event_payload now_ms)).silent (fun _ => trigger_civil)
  | CreateCollection io name definition => exact (create_collection_orderly id name definition).silent (fun _ => collection_civil)
  | MigrateCollectionSchema io name expected_version next_version codec =>
    exact (migrate_schema_orderly id name expected_version next_version codec).silent (fun _ => collection_civil)
  | DefineIndex io collection definition => exact (define_index_orderly id collection definition).silent (fun _ => collection_civil)
  | UpsertRecord io collection primary_key value indexes =>
    exact (within_orderly id (upsert_record_orderly id collection primary_key value indexes)).silent (fun _ => collection_civil)
  | DeleteRecord io collection primary_key =>
    exact (within_orderly id (delete_record_orderly id collection primary_key)).silent (fun _ => collection_civil)
  | PruneChangesThrough io tx_id limit => exact (prune_orderly id tx_id limit).silent (fun _ => False.elim)

theorem api_tx_orderly (call : ApiTxCall) : OrderlyView Civil call.Durable (api.on_tx call) := by
  cases call with
  | Keys call => exact (key_tx_orderly call).silent (fun _ => key_tx_civil)
  | Queues call =>
    obtain ⟨io,queue,payload,options⟩ := call
    exact ((queue_tx_orderly io queue payload options).returning _).rethrow.silent (fun _ => queue_civil)
  | Streams call =>
    refine (stream_tx_orderly call).silent (fun _ own => ?_)
    obtain ⟨io,stream,payload⟩ := call
    exact stream_civil own.2
  | Objects call => exact (object_tx_orderly call).silent (fun _ => object_tx_civil)
  | Outbox call => exact (outbox_tx_orderly call).silent (fun _ => outbox_civil)
  | Rpc call => exact (rpc_tx_orderly call).silent (fun _ => rpc_civil)
  | Workflows call => exact (workflow_tx_orderly call).silent (fun _ => workflow_civil)
  | EnqueueJob io entropy spec now_ms => exact (enqueue_job_orderly id entropy spec now_ms _).rethrow.silent (fun _ => job_civil)
  | FireTrigger io entropy trigger_id event_payload now_ms =>
    exact (fire_trigger_orderly id entropy trigger_id event_payload now_ms).silent (fun _ => trigger_civil)
  | UpsertRecord io collection primary_key value indexes =>
    exact (upsert_record_orderly id collection primary_key value indexes).silent (fun _ => collection_civil)
  | DeleteRecord io collection primary_key => exact (delete_record_orderly id collection primary_key).silent (fun _ => collection_civil)

end

/-! ## What the map holds -/

/-- Every reserved key is one of a domain or of the feed. -/
def Covered (state : State) : Prop := ∀ key value, state[key]? = some value → starts_with key INTERNAL_KEY_PREFIX = true →
  DomainKey key ∨ CDC_PREFIX <+: key

theorem covered_empty : Covered ∅ := by
  intro key value found
  simp at found

theorem Covered.elsewhere {s t : State} (covered : Covered s) (agrees : Elsewhere Civil s t) : Covered t := by
  intro key value found reserved
  by_cases feed : starts_with key CDC_PREFIX = true
  · exact .inr ((starts_with_iff _ _).mp feed)
  by_cases civil : Civil key
  · rcases civil with user | domain
    · rw [UserKey,ensure_user_key,reserved] at user
      cases user
    · exact .inl domain
  · rw [agrees key (Bool.eq_false_iff.mpr feed) civil] at found
    exact covered key value found reserved

theorem Covered.same {s t : State} (covered : Covered s) (same : SameData s t) : Covered t :=
  covered.elsewhere (fun key outside _ => same key outside)

section
variable [Hashes]

/-- Only the interface writes, and no write fails. -/
def apiTerms : Terms Unit ApiCall ApiTxCall Unit := .plain (fun _ => True) ApiCall.Durable ApiTxCall.Durable

theorem api_preserved : Preserved api apiTerms (fun state view _ => Covered state ∧ ∀ seen, view = some seen → Covered seen) := by
  constructor
  · exact fun c _ durable => (api_call_orderly c).steady durable
  · exact fun c _ durable => (api_tx_orderly c).stages durable
  · rintro c store log - ⟨now,-⟩
    exact ⟨now.elsewhere ((api_call_orderly c).confined.elsewhere store),by simp⟩
  · rintro state log ⟨now,-⟩
    refine ⟨now,?_⟩
    rintro _ ⟨⟩
    exact now
  · rintro c tx log - ⟨now,seen⟩
    refine ⟨now,?_⟩
    rintro _ ⟨⟩
    exact (seen _ rfl).elsewhere ((api_tx_orderly c).confined.elsewhere tx)
  · rintro state view next log same ⟨now,seen⟩
    refine ⟨now,?_⟩
    rintro _ ⟨⟩
    exact (seen _ rfl).elsewhere (fun key _ _ => same key trivial)
  · rintro state view next log - same ⟨-,seen⟩
    exact ⟨(seen _ rfl).same same,by simp⟩
  · rintro state view log ⟨now,-⟩
    exact ⟨now,by simp⟩

/-! ## Every store that the interface can lead to -/

/-- A store that was made by the interface, with nothing lost of what it wrote. -/
inductive Served : Store → Prop
  | new {io : Io} {path : Path} {options : StoreOptions} {store : Store} {left : Bytes}
      (opened : open_with_options io path options [] = .ok store left) : Served store
  | used {store next : Store} {moves : List (Move ApiCall ApiTxCall)} (served : Served store)
      (along : (Play.mk (.Idle store) []).Along api apiTerms moves)
      (closed : (Play.steps api ⟨.Idle store,[]⟩ moves).session = .Idle next) : Served next
  | copied {source store : Store} {destination path : Path} {disk made : Disk} {file left : Bytes} {io : Io}
      {options : StoreOptions} (served : Served source) (copied : Copied source destination disk made)
      (there : made destination = some file) (opened : open_with_options io path options file = .ok store left) : Served store
  | generated {source store : Store} {destination path : Path} {disk made : Disk} {file left : Bytes} {io : Io}
      {options : StoreOptions} {build : GenerationIo} {report : GenerationReport} (served : Served source)
      (built : compact_generation_to build source destination disk = .ok report made)
      (there : made destination = some file) (opened : open_with_options io path options file = .ok store left) : Served store

/-- What a sound and whole file leads to when it is opened. -/
theorem opened_as_written {io : Io} {path : Path} {options : StoreOptions} {file left : Bytes} {store : Store}
    (opened : open_with_options io path options file = .ok store left) (sound : FileSound file) (whole : fragment file = []) :
    store.Sound ∧ fragment store.file = [] ∧ store.state = committedState (records file) := by
  obtain ⟨-,-,recovery,started,opens⟩ := open_ok opened
  obtain ⟨stored,read,tail⟩ := open_sound opens (.inr sound)
  rw [whole,ite_self] at tail
  refine ⟨stored,tail,?_⟩
  rw [stored.state,read]

theorem Served.kept {store : Store} (served : Served store) : store.Sound ∧ fragment store.file = [] ∧ Covered store.state := by
  induction served with
  | new opened =>
    obtain ⟨sound,-,whole,empty,-,-⟩ := new_store opened
    refine ⟨sound,whole,?_⟩
    rw [empty]
    exact covered_empty
  | @used store next moves served along closed ih =>
    obtain ⟨sound,whole,covered⟩ := ih
    have start : (Play.mk (.Idle store) []).Kept (fun state view (_ : List (Happened Unit ApiCall ApiTxCall Unit)) =>
        Covered state ∧ ∀ seen, view = some seen → Covered seen) := ⟨sound,whole,covered,by simp [Session.view]⟩
    obtain ⟨session,left,holds,-⟩ := start.steps api_preserved along
    rw [closed] at session left holds
    exact ⟨session,left,holds⟩
  | @copied source store destination path disk made file left io options served copied there opened ih =>
    obtain ⟨-,-,covered⟩ := ih
    obtain ⟨written,rfl,rewritten⟩ := copied_rewritten copied
    rw [write_same] at there
    cases there
    obtain ⟨sound,whole,state⟩ := opened_as_written opened rewritten.sound rewritten.whole
    refine ⟨sound,whole,?_⟩
    rw [state,rewritten.state]
    exact covered
  | @generated source store destination path disk made file left io options build report served built there opened ih =>
    obtain ⟨-,-,covered⟩ := ih
    obtain ⟨written,rs,marker,found,generated⟩ := compact_generation_ok built
    rw [found] at there
    cases there
    obtain ⟨-,txAhead,sequenceAhead⟩ := generated.opened opened
    have fileSound := generated.sound (Nat.lt_of_le_of_lt txAhead (UInt64.toNat_lt _)) (Nat.lt_of_le_of_lt sequenceAhead (UInt64.toNat_lt _))
    obtain ⟨sound,whole,state⟩ := opened_as_written opened fileSound generated.whole
    refine ⟨sound,whole,?_⟩
    rw [state,generated.state]
    exact covered

/-! ## Whatever fails -/

/-- A move of the interface on an open store; its writes may fail. -/
def Move.Stays {σ τ : Type} : Move σ τ → Prop
  | .Write _ _ => False
  | .Reopen _ _ _ => False
  | _ => True

/-- Both what is committed and what the open transaction sees is covered. -/
def Session.Covered (session : Session) : Prop :=
  VoodooStore.Covered session.store.state ∧ ∀ seen, session.view = some seen → VoodooStore.Covered seen

theorem stays_covered {play : Play Unit ApiCall ApiTxCall Unit} {move : Move ApiCall ApiTxCall} (stays : move.Stays)
    (covered : play.session.Covered) : (play.step api move).session.Covered := by
  obtain ⟨session,log⟩ := play
  obtain ⟨now,seen⟩ := covered
  have idle : ∀ store : Store, Covered store.state → (Session.Idle store).Covered := fun store held => ⟨held,by simp [Session.view]⟩
  have busy : ∀ tx : Transaction, Covered tx.store.state → Covered tx.view → (Session.Busy tx).Covered := by
    intro tx held viewed
    refine ⟨held,?_⟩
    rintro _ ⟨⟩
    exact viewed
  cases session with
  | Idle store =>
    cases move with
    | Call call => exact idle _ (now.elsewhere ((api_call_orderly call).confined.elsewhere store))
    | Begin =>
      cases begun : begin_tx store with
      | error e =>
        have stands : Play.step api ⟨.Idle store,log⟩ .Begin = ⟨.Idle store,log⟩ := by simp only [Play.step,begun]
        rw [stands]
        exact ⟨now,seen⟩
      | ok tx =>
        have begins : Play.step api ⟨.Idle store,log⟩ .Begin = ⟨.Busy tx,log ++ [Happened.Began]⟩ := by simp only [Play.step,begun]
        rw [begins]
        obtain ⟨view,state,-,-⟩ := begin_view begun
        refine busy tx ?_ ?_
        · rw [state]
          exact now
        · rw [view]
          exact now
    | Reopen io path options => exact stays.elim
    | Write io operation => exact stays.elim
    | CallTx call => exact ⟨now,seen⟩
    | Commit io => exact ⟨now,seen⟩
    | Rollback => exact ⟨now,seen⟩
  | Busy tx =>
    cases move with
    | CallTx call =>
      refine busy _ ?_ ((seen _ rfl).elsewhere ((api_tx_orderly call).confined.elsewhere tx))
      rw [((api_tx_orderly call).confined.carries tx).state]
      exact now
    | Commit io =>
      cases committed : commit io tx with
      | ok x u =>
        have closes : Play.step api ⟨.Busy tx,log⟩ (.Commit io) = ⟨.Idle u.store,log ++ [Happened.Committed]⟩ := by
          simp only [Play.step,committed]
        rw [closes]
        exact idle _ ((seen _ rfl).same (commit_view committed))
      | error e u =>
        have closes : Play.step api ⟨.Busy tx,log⟩ (.Commit io) = ⟨.Idle u.store,log ++ [Happened.Abandoned]⟩ := by
          simp only [Play.step,committed]
        rw [closes]
        refine idle _ ?_
        rw [commit_keeps committed]
        exact now
    | Rollback => exact idle _ now
    | Write io operation => exact stays.elim
    | Call call => exact ⟨now,seen⟩
    | Begin => exact ⟨now,seen⟩
    | Reopen io path options => exact stays.elim

/-- Whatever fails on an open store, its reserved keys are those of domains and of the feed. -/
theorem Served.covered {store next : Store} {moves : List (Move ApiCall ApiTxCall)} (served : Served store)
    (stays : ∀ move ∈ moves, move.Stays) (closed : (Play.steps api ⟨.Idle store,[]⟩ moves).session = .Idle next) : Covered next.state := by
  have all : ∀ (moves : List (Move ApiCall ApiTxCall)) (play : Play Unit ApiCall ApiTxCall Unit), (∀ move ∈ moves, move.Stays) →
      play.session.Covered → (play.steps api moves).session.Covered := by
    intro moves
    induction moves with
    | nil => exact fun _ _ covered => covered
    | cons move moves ih =>
      intro play stays covered
      exact ih _ (fun other member => stays other (by simp [member])) (stays_covered (stays move (by simp)) covered)
  have held := all moves ⟨.Idle store,[]⟩ stays ⟨served.kept.2.2,by simp [Session.view]⟩
  rw [closed] at held
  exact held.1

end

end VoodooStore
