import VoodooStore.Orderly
import VoodooStore.LifetimeRuns
import VoodooStore.QueueHealth
import VoodooStore.ObjectRuns
import VoodooStore.JobRuns
import VoodooStore.CronVisits
import VoodooStore.RpcRuns
import VoodooStore.StreamRuns
import VoodooStore.Triggers
import VoodooStore.WorkflowRuns
import VoodooStore.CollectionKeys
import VoodooStore.ScheduleRuns

/-!
# The calls of every domain are orderly

Each call writes under the prefixes of its own domain, and those that schedule
or trigger jobs under the prefixes of jobs too.
-/
namespace VoodooStore
open Effects Collections
set_option linter.unusedSimpArgs false

/-! ## Keys of users -/

/-- The keys that a call may write. -/
def KeyCall.own : KeyCall → Bytes → Prop
  | .Put _ user_key _, key => UserKey user_key ∧ key = user_key
  | .PutWithTtl _ user_key _ _, key => UserKey user_key ∧ key = user_key ∨ key = ttlKey user_key
  | .Delete _ user_key, key => UserKey user_key ∧ key = user_key
  | .CompareAndSwap _ user_key _ _, key => UserKey user_key ∧ key = user_key
  | .IncrementI64 _ user_key _, key => UserKey user_key ∧ key = user_key
  | .ClearTtl _ user_key, key => key = ttlKey user_key
  | .PurgeExpired _ _ _, key => UserKey key ∨ TTL_PREFIX <+: key

def KeyTxCall.own : KeyTxCall → Bytes → Prop
  | .Put _ user_key _, key => UserKey user_key ∧ key = user_key
  | .Delete _ user_key, key => UserKey user_key ∧ key = user_key

/-- What a purge has found are keys of expiries. -/
theorem expired_entries_inside {self : Store} {now_ms : Int64} {limit scanned count : Nat} {found entries : List ExpiredEntry}
    {metadata : List (Bytes × Bytes)} (done : expired_entries self now_ms limit scanned found metadata = .ok (count,entries))
    (before : ∀ entry ∈ found, TTL_PREFIX <+: entry.1) (inside : ∀ entry ∈ metadata, TTL_PREFIX <+: entry.1) :
    ∀ entry ∈ entries, TTL_PREFIX <+: entry.1 := by
  induction metadata generalizing scanned found with
  | nil =>
    cases done
    exact before
  | cons entry metadata ih =>
    obtain ⟨metadata_key,metadata_value⟩ := entry
    have rest : ∀ entry ∈ metadata, TTL_PREFIX <+: entry.1 := fun entry member => inside entry (by simp [member])
    have more : ∀ present user_key, ∀ entry ∈ found ++ [((metadata_key,user_key,present) : ExpiredEntry)], TTL_PREFIX <+: entry.1 := by
      intro present user_key entry member
      rcases List.mem_append.mp member with old | new
      · exact before entry old
      · rw [List.mem_singleton.mp new]
        exact inside (metadata_key,metadata_value) (by simp)
    unfold expired_entries at done
    obtain ⟨ttl,-,done⟩ := bind_ok_iff.mp done
    split at done
    · obtain ⟨user_key,-,done⟩ := bind_ok_iff.mp done
      dsimp only at done
      split at done
      · cases done
        exact more _ _
      · exact ih done (more _ _) rest
    · exact ih done before rest

/-- Taking objects away changes no other keys. -/
theorem Taken.elsewhere {store t : Store} {ids : List ObjectId} (taken : Taken store t ids) :
    Elsewhere (fun key => ∃ ids, Theirs ids key) store.state t.state := by
  intro key outside other
  rw [taken.left key outside]
  exact removed_others (fun theirs => other ⟨ids,theirs⟩) _

theorem scan_starts (state : State) (front : Bytes) : ∀ entry ∈ scan state front, front <+: entry.1 := by
  rintro ⟨key,value⟩ member
  exact (starts_with_iff _ _).mp (mem_scan.mp member).1

/-- What is pruned was found. -/
theorem prune_keys_inside {front : Bytes} {tx_id : UInt64} {limit : Nat} {before keys : List Bytes} {entries : List (Bytes × Bytes)}
    (done : prune_keys tx_id limit before entries = .ok keys) (earlier : ∀ key ∈ before, front <+: key)
    (inside : ∀ entry ∈ entries, front <+: entry.1) : ∀ key ∈ keys, front <+: key := by
  induction entries generalizing before with
  | nil =>
    cases done
    exact earlier
  | cons entry entries ih =>
    obtain ⟨found,encoded⟩ := entry
    have more : ∀ key ∈ before ++ [found], front <+: key := by
      intro key member
      rcases List.mem_append.mp member with old | new
      · exact earlier key old
      · rw [List.mem_singleton.mp new]
        exact inside (found,encoded) (by simp)
    unfold prune_keys at done
    obtain ⟨change,-,done⟩ := bind_ok_iff.mp done
    split at done
    · cases done
      exact earlier
    split at done
    · cases done
      exact more
    · exact ih done more (fun entry member => inside entry (by simp [member]))

section
variable [Hashes] {safe : Prop}

theorem remove_expired_orderly {io : Io} (durable : safe → io.Durable) {entries : List ExpiredEntry}
    (inside : ∀ entry ∈ entries, TTL_PREFIX <+: entry.1) :
    OrderlyView (fun key => UserKey key ∨ TTL_PREFIX <+: key) safe (remove_expired io entries) := by
  induction entries with
  | nil => exact orderly_view_of_reads (reads_pure _)
  | cons entry entries ih =>
    obtain ⟨metadata_key,user_key,present⟩ := entry
    have rest := ih (fun entry member => inside entry (by simp [member]))
    have own := inside (metadata_key,user_key,present) (by simp)
    have gone : OrderlyView (fun key => UserKey key ∨ TTL_PREFIX <+: key) safe (delete_internal io metadata_key) := delete_orderly durable (.inr own)
    have tail := gone.bind (fun _ => rest)
    unfold remove_expired
    cases present with
    | true => exact (user_delete_orderly durable .inl).bind (fun _ => tail)
    | false => exact tail

theorem key_call_orderly (call : KeyCall) : Orderly call.own call.io.Durable (keys.on_store call) := by
  cases call with
  | Put io key value =>
    exact (within_orderly id (user_put_orderly id (fun user => ⟨user,rfl⟩) value)).rethrow.returning (fun _ => KeyReply.Done)
  | PutWithTtl io key value expires_at_ms =>
    refine Orderly.returning (.rethrow (.lifted (fun metadata_key made => ?_))) (fun _ => KeyReply.Done)
    obtain ⟨-,rfl⟩ := ttl_key_ok.mp made
    refine within_orderly id (OrderlyView.bind (.rethrow ?_) (fun _ => .rethrow ?_))
    · exact user_put_orderly id (fun user => .inl ⟨user,rfl⟩) value
    · exact put_orderly id (.inr rfl) _
  | Delete io key =>
    exact (within_orderly id (user_delete_orderly id (fun user => ⟨user,rfl⟩))).rethrow.returning (fun _ => KeyReply.Done)
  | CompareAndSwap io key expected replacement =>
    refine Orderly.returning (.rethrow (.after_reads reads_get (fun store => ?_))) _
    split
    · exact orderly_of_reads (reads_pure _)
    refine (within_orderly id ?_).returning (fun _ => CasOutcome.Swapped)
    cases replacement with
    | some value => exact user_put_orderly id (fun user => ⟨user,rfl⟩) value
    | none => exact user_delete_orderly id (fun user => ⟨user,rfl⟩)
  | IncrementI64 io key delta =>
    refine Orderly.returning (.rethrow (.after_reads reads_get (fun store => .after_reads (reads_lift _) (fun current => ?_)))) _
    refine .after_reads (reads_lift _) (fun next => Orderly.returning (.rethrow ?_) (fun _ => next))
    exact within_orderly id (user_put_orderly id (fun user => ⟨user,rfl⟩) _)
  | ClearTtl io key =>
    refine Orderly.returning (.rethrow (.lifted (fun metadata_key made => .after_reads reads_get (fun store => ?_)))) _
    obtain ⟨-,rfl⟩ := ttl_key_ok.mp made
    split
    · exact orderly_of_reads (reads_pure _)
    · refine Orderly.returning (.rethrow (delete_alone_orderly id ?_)) (fun _ => true)
      exact rfl
  | PurgeExpired io now_ms limit =>
    refine .after_reads reads_get (fun before => Orderly.bind (.rethrow ?_) (fun report => ?_))
    · unfold purge_expired
      split
      · exact orderly_of_reads (reads_pure _)
      refine .after_reads reads_get (fun self => .lifted ?_)
      rintro ⟨scanned,entries⟩ found
      have inside := expired_entries_inside found (by simp) (scan_starts self.state TTL_PREFIX)
      dsimp only
      split
      · exact orderly_of_reads (reads_pure _)
      · exact (within_orderly id (remove_expired_orderly id inside).rethrow).returning (fun _ => TtlSweepReport.mk _ _ _)
    · exact orderly_of_reads (reads_get.bind (fun _ => reads_pure _))

theorem key_tx_orderly (call : KeyTxCall) : OrderlyView call.own call.io.Durable (keys.on_tx call) := by
  cases call with
  | Put io key value => exact (user_put_orderly id (fun user => ⟨user,rfl⟩) value).rethrow.returning (fun _ => KeyReply.Done)
  | Delete io key => exact (user_delete_orderly id (fun user => ⟨user,rfl⟩)).rethrow.returning (fun _ => KeyReply.Done)

/-! ## Queues -/

theorem queue_call_orderly (call : QueueCall) :
    Orderly (fun key => starts_with key (queueSpace call.name) = true) call.io.Durable (queues.on_store call) := by
  refine Orderly.rethrow (.lifted (fun queue made => ?_))
  obtain ⟨-,rfl⟩ := queue_new_ok made
  cases call with
  | Push io name payload options =>
    refine Orderly.returning (.after_reads reads_get (fun store => .after_reads (reads_lift _) (fun id => ?_))) _
    refine .after_reads (reads_lift _) (fun next_id => (within_orderly (fun d => d) ?_).returning (fun _ => id))
    refine OrderlyView.bind (.rethrow (put_orderly (fun d => d) (meta_inside name) _)) (fun _ => .after_reads (reads_lift _) (fun encoded => ?_))
    exact (put_orderly (fun d => d) (message_inside name _) _).rethrow
  | Claim io name now_ms lease_duration_ms =>
    refine Orderly.returning (.after_reads (reads_lift _) (fun duration => .after_reads (reads_lift _) (fun until_ms => ?_))) _
    refine .after_reads reads_get (fun store => .lifted (fun picked found => ?_))
    cases picked with
    | none => exact orderly_of_reads (reads_pure _)
    | some picked =>
      obtain ⟨key,message⟩ := picked
      have inside : starts_with key (queueSpace name) = true := by
        rcases pick_message_ok found with none | ⟨value,member,-,-⟩
        · cases none
        · exact message_prefix_inside name (mem_scan.mp member).1
      refine .after_reads (reads_lift _) (fun attempts => .after_reads (reads_lift _) (fun encoded => ?_))
      exact ((put_alone_orderly (fun d => d) inside _).rethrow).returning _
  | Ack io name id lease_generation =>
    refine Orderly.returning (.after_reads (leased_message_reads _ id lease_generation) (fun message => ?_)) (fun _ => QueueReply.Settled)
    exact (delete_alone_orderly (fun d => d) (message_inside name id)).rethrow
  | Nack io name id lease_generation available_at_ms =>
    refine Orderly.returning (.after_reads (leased_message_reads _ id lease_generation) (fun message => ?_)) (fun _ => QueueReply.Settled)
    exact .after_reads (reads_lift _) (fun encoded => (put_alone_orderly (fun d => d) (message_inside name id) _).rethrow)
  | DeadLetter io name id lease_generation =>
    refine Orderly.returning (.after_reads (leased_message_reads _ id lease_generation) (fun message => ?_)) (fun _ => QueueReply.Settled)
    exact .after_reads (reads_lift _) (fun encoded => (put_alone_orderly (fun d => d) (message_inside name id) _).rethrow)
  | PurgeDead io name =>
    refine Orderly.returning (.after_reads reads_get (fun store => .lifted (fun keys found => ?_))) _
    have inside : ∀ key ∈ keys, starts_with key (queueSpace name) = true := by
      intro key member
      rcases (dead_keys_ok found key).mp member with none | ⟨value,message,scanned,-,-⟩
      · cases none
      · exact message_prefix_inside name (mem_scan.mp scanned).1
    split
    · exact orderly_of_reads (reads_pure _)
    · refine .after_reads (reads_lift _) (fun count => ?_)
      exact (within_orderly (fun d => d) (delete_keys_orderly (fun d => d) inside).rethrow).returning (fun _ => count)

/-- What a push or an append stages. -/
theorem stage_numbered_orderly {own : Bytes → Prop} {io : Io} (durable : safe → io.Durable) {next_key entry_key : Bytes}
    (counts : own next_key) (holds : own entry_key) (next : UInt64) (encoded : Except DomainTransactionError Bytes) :
    OrderlyView own safe (stage_numbered io next_key next entry_key encoded) := by
  refine OrderlyView.bind (.rethrow (put_orderly durable counts _)) (fun _ => .after_reads (reads_lift _) (fun entry => ?_))
  exact (put_orderly durable holds _).rethrow

theorem queue_tx_orderly (io : Io) (queue payload : Bytes) (options : PushOptions) :
    OrderlyView (fun key => starts_with key (queueSpace queue) = true) io.Durable (push_queue io queue payload options) := by
  unfold push_queue
  split
  · exact orderly_view_of_reads (reads_throw _)
  refine .lifted (fun ns made => ?_)
  obtain ⟨-,rfl⟩ := queue_namespace_ok made
  refine .after_reads reads_get (fun tx => .after_reads (reads_lift _) (fun id => .after_reads (reads_lift _) (fun next => ?_)))
  exact (stage_numbered_orderly (fun d => d) (meta_inside queue) (message_inside queue id) next _).returning (fun _ => id)

/-! ## Streams -/

theorem stream_call_orderly (call : StreamCall) : Orderly call.own call.io.Durable (streams.on_store call) :=
  ⟨stream_call_confined call,fun durable => (stream_call_atomic durable).steady⟩

theorem stream_tx_orderly (call : StreamTxCall) : OrderlyView call.own call.io.Durable (streams.on_tx call) := by
  refine ⟨?_,on_tx_stages⟩
  obtain ⟨io,stream,payload⟩ := call
  exact (append_stream_confined io stream payload).rethrow.bind (fun _ => confined_view_of_reads (reads_pure _))

/-! ## Objects -/

/-- The keys that a call may write. -/
def ObjectCall.own : ObjectCall → Bytes → Prop
  | .PutObject _ content, key => Theirs [Objects.object_id content] key
  | .PutObjectWithMetadata _ _ content _, key => Theirs [Objects.object_id content] key
  | .LinkObject _ ns name _, key => key = refKey ns name
  | .UnlinkObject _ ns name, key => key = refKey ns name
  | .GcOrphanObjects _ _, key => ∃ ids, Theirs ids key
  | .PurgeExpiredObjects _ _ _, key => ∃ ids, Theirs ids key

def ObjectTxCall.own : ObjectTxCall → Bytes → Prop
  | .PutObject _ content, key => Theirs [Objects.object_id content] key
  | .LinkObject _ ns name _, key => key = refKey ns name
  | .UnlinkObject _ ns name, key => key = refKey ns name

theorem object_call_orderly (call : ObjectCall) : Orderly call.own call.Durable (objects.on_store call) := by
  refine ⟨?_,object_call_steady⟩
  have reads : ∀ {ε α : Type} {own : Bytes → Prop} {x : EStateM ε Store α}, Reads x → Confined own x := confined_of_reads
  have puts : ∀ (io metadata_io : Io) (content : Bytes) (metadata : MetadataEntries),
      Confined (Theirs [Objects.object_id content]) (Store.put_object_with_metadata io metadata_io content metadata) := by
    intro io metadata_io content metadata
    refine (reads (reads_lift _)).bind (fun values => (reads reads_get).bind (fun store => ?_))
    split
    · refine (reads (reads_lift _)).bind (fun encoded => Confined.bind (.rethrow (put_alone_confined io ?_ _)) (fun _ => ?_))
      · exact ⟨_,by simp,.inl rfl⟩
      split
      · refine (reads (reads_lift _)).bind (fun encoded => Confined.bind (.rethrow (put_alone_confined metadata_io ?_ _)) (fun _ => ?_))
        · exact ⟨_,by simp,.inr rfl⟩
        exact reads (reads_pure _)
      · exact reads (reads_pure _)
    · exact reads (reads_pure _)
  cases call with
  | PutObject io content => exact (puts io io content []).rethrow.bind (fun _ => reads (reads_pure _))
  | PutObjectWithMetadata io metadata_io content metadata =>
    exact (puts io metadata_io content metadata).rethrow.bind (fun _ => reads (reads_pure _))
  | LinkObject io ns name id =>
    refine Confined.bind (.rethrow ((reads reads_get).bind (fun store => (reads (reads_lift _)).bind (fun found => ?_)))) (fun _ => reads (reads_pure _))
    split
    · exact reads (reads_throw _)
    refine .lifted (fun key made => .rethrow (put_alone_confined io ?_ _))
    obtain ⟨-,-,-,rfl⟩ := object_reference_key_ok.mp made
    exact rfl
  | UnlinkObject io ns name =>
    refine Confined.bind (.rethrow (.lifted (fun key made => (reads reads_get).bind (fun store => ?_)))) (fun _ => reads (reads_pure _))
    obtain ⟨-,-,-,rfl⟩ := object_reference_key_ok.mp made
    split
    · exact reads (reads_pure _)
    · refine Confined.bind (.rethrow (delete_alone_confined io ?_)) (fun _ => reads (reads_pure _))
      exact rfl
  | GcOrphanObjects io limit =>
    refine Confined.bind (.rethrow (confined_of_elsewhere (fun store => ?_))) (fun _ => reads (reads_pure _))
    obtain ⟨ids,taken,-⟩ := gc_taken io limit store
    exact taken.elsewhere
  | PurgeExpiredObjects io now_unix limit =>
    refine Confined.bind (.rethrow (confined_of_elsewhere (fun store => ?_))) (fun _ => reads (reads_pure _))
    obtain ⟨ids,taken,-⟩ := purge_taken io now_unix limit store
    exact taken.elsewhere

theorem object_tx_orderly (call : ObjectTxCall) : OrderlyView call.own call.Durable (objects.on_tx call) := by
  refine ⟨?_,object_call_stages⟩
  have reads : ∀ {ε α : Type} {own : Bytes → Prop} {x : EStateM ε Transaction α}, Reads x → ConfinedView own x := confined_view_of_reads
  cases call with
  | PutObject io content =>
    refine ConfinedView.bind (.rethrow ((reads reads_get).bind (fun tx => ?_))) (fun _ => reads (reads_pure _))
    split
    · refine (reads (reads_lift _)).bind (fun encoded => ConfinedView.bind (.rethrow (put_confined io ?_ _)) (fun _ => reads (reads_pure _)))
      exact ⟨Hashes.sha256 content,List.mem_singleton.mpr rfl,.inl rfl⟩
    · exact reads (reads_pure _)
  | LinkObject io ns name id =>
    refine ConfinedView.bind (.rethrow ((reads reads_get).bind (fun tx => ?_))) (fun _ => reads (reads_pure _))
    split
    · exact reads (reads_throw _)
    refine .lifted (fun key made => .rethrow (put_confined io ?_ _))
    obtain ⟨-,-,-,rfl⟩ := reference_key_ok.mp made
    exact rfl
  | UnlinkObject io ns name =>
    refine ConfinedView.bind (.rethrow (.lifted (fun key made => (reads reads_get).bind (fun tx => ?_)))) (fun _ => reads (reads_pure _))
    obtain ⟨-,-,-,rfl⟩ := reference_key_ok.mp made
    split
    · refine ConfinedView.bind (.rethrow (delete_confined io ?_)) (fun _ => reads (reads_pure _))
      exact rfl
    · exact reads (reads_pure _)

/-! ## Jobs and what submits them -/

theorem write_job_orderly {io : Io} (durable : safe → io.Durable) (job : DurableJob) (entry : JobHistoryEntry) :
    OrderlyView jobSpace safe (write_job_tx io job entry) :=
  ⟨write_job_confined io job entry,fun safely => write_job_stages (durable safely).1 job entry⟩

theorem persist_history_orderly {io : Io} (durable : safe → io.Durable) (job : DurableJob) (at_ms : Int64) (kind : JobHistoryKind)
    (detail : Bytes) : Orderly jobSpace safe (persist_job_with_history io job at_ms kind detail) :=
  ⟨persist_job_confined io job at_ms kind detail,fun safely => (persist_job_atomic (durable safely) job at_ms kind detail).steady⟩

theorem submit_job_orderly {io : Io} (durable : safe → io.Durable) (entropy : Option (ByteArr 16)) (spec : JobSpec) (now_ms : Int64) :
    Orderly jobSpace safe (submit_job io entropy spec now_ms) :=
  ⟨submit_job_confined io entropy spec now_ms,fun safely => (submit_job_atomic (durable safely) entropy spec now_ms).steady⟩

theorem enqueue_job_orderly {io : Io} (durable : safe → io.Durable) (entropy : Option (ByteArr 16)) (spec : JobSpec) (now_ms : Int64)
    (detail : Bytes) : OrderlyView jobSpace safe (enqueue_job_tx io entropy spec now_ms detail) := by
  obtain ⟨lookup,reads,same⟩ := enqueue_job_lookup io entropy spec now_ms detail
  rw [same]
  refine .after_reads (reads_lift _) (fun _ => .after_reads reads (fun existing => ?_))
  cases existing with
  | some id => exact orderly_view_of_reads (reads_pure _)
  | none => exact .after_reads (reads_lift _) (fun job => (write_job_orderly durable job _).returning (fun _ => job.id))

/-- The keys of jobs, their histories and schedules. -/
def ScheduleSpace (key : Bytes) : Prop := jobSpace key ∨ SCHEDULE_PREFIX <+: key

theorem fire_schedule_orderly {io : Io} (durable : safe → io.Durable) (job : DurableJob) (now_ms : Int64) (schedule : DurableSchedule) :
    OrderlyView ScheduleSpace safe (fire_schedule_tx io job now_ms schedule) := by
  refine ((write_job_orderly durable job _).mono (fun _ => .inl)).bind (fun _ => .after_reads (reads_lift _) (fun encoded => ?_))
  exact (put_orderly durable (.inr (List.prefix_append _ _)) encoded).rethrow

theorem tick_each_orderly {io : Io} (durable : safe → io.Durable) (entropy : Nat → Option (ByteArr 16)) (now_ms : Int64) (limit fired : Nat)
    (entries : List (Bytes × Bytes)) : Orderly ScheduleSpace safe (tick_each io entropy now_ms limit fired entries) := by
  induction entries generalizing fired with
  | nil => exact orderly_of_reads (reads_pure _)
  | cons entry entries ih =>
    rw [tick_each]
    split
    · exact orderly_of_reads (reads_pure _)
    · refine .after_reads (reads_lift _) (fun schedule => ?_)
      split
      · exact ih fired
      · refine .after_reads (reads_lift _) (fun job => .after_reads (reads_lift _) (fun next => Orderly.bind ?_ (fun _ => ih _)))
        exact within_orderly durable (fire_schedule_orderly durable job now_ms next)

theorem bury_overdue_orderly {io : Io} (durable : safe → io.Durable) (now_ms : Int64) (jobs : List DurableJob) :
    Orderly jobSpace safe (bury_overdue io now_ms jobs) := by
  induction jobs with
  | nil => exact orderly_of_reads (reads_pure _)
  | cons job jobs ih => exact (persist_history_orderly durable _ _ _ _).bind (fun _ => ih)

theorem release_each_orderly {io : Io} (durable : safe → io.Durable) (now_ms : Int64) (expired : List DurableJob) :
    Orderly jobSpace safe (release_each io now_ms expired) := by
  induction expired with
  | nil => exact orderly_of_reads (reads_pure _)
  | cons job expired ih =>
    rw [release_each]
    split
    · exact (persist_history_orderly durable _ _ _ _).bind (fun _ => ih)
    · exact (persist_history_orderly durable _ _ _ _).bind (fun _ => ih)

theorem persist_job_orderly {io : Io} (durable : safe → io.Durable) (job : DurableJob) : Orderly jobSpace safe (persist_job io job) :=
  .after_reads (reads_lift _) (fun encoded => (put_alone_orderly durable (job_key_space job.id) encoded).rethrow)

/-- The calls that look a job up first. -/
theorem looked_up_orderly {α : Type} {own : Bytes → Prop} {id : JobId} {missing : α} {found : DurableJob → EStateM JobError Store α}
    (orderly : ∀ job, Orderly own safe (found job)) : Orderly own safe (do
      match ← lift ((← get).get_job id) with
      | none => return missing
      | some job => found job) := by
  refine .after_reads reads_get (fun store => .after_reads (reads_lift _) (fun looked => ?_))
  cases looked with
  | none => exact orderly_of_reads (reads_pure _)
  | some job => exact orderly job

theorem job_call_orderly (call : JobCall) : Orderly ScheduleSpace call.io.Durable (jobs.on_store call) := by
  have silent : ∀ {α : Type} {x : EStateM JobError Store α}, Orderly jobSpace call.io.Durable x →
      Orderly ScheduleSpace call.io.Durable (do let _ ← x) :=
    fun orderly => (orderly.mono (fun _ => .inl)).returning (fun _ => ())
  have stays : ∀ {α : Type} (a : α), Orderly jobSpace call.io.Durable (pure a : EStateM JobError Store α) :=
    fun a => orderly_of_reads (reads_pure a)
  have persists := fun {io : Io} (durable : call.io.Durable → io.Durable) => @persist_history_orderly _ _ io durable
  cases call with
  | SubmitJob io entropy spec now_ms => exact silent (submit_job_orderly id entropy spec now_ms)
  | ClaimJobForHandlers io now_ms lease_duration_ms handlers =>
    refine silent (.after_reads (reads_lift _) (fun lease => .after_reads (reads_lift _) (fun lease_until_ms => ?_)))
    refine .after_reads reads_get (fun store => .after_reads (reads_lift _) (fun survey => ?_))
    refine (bury_overdue_orderly id now_ms survey.expired).bind (fun _ => ?_)
    split
    · exact stays _
    refine .after_reads (reads_lift _) (fun attempts => ?_)
    split
    · exact (persists id _ _ _ _).returning _
    · exact (persists id _ _ _ _).returning _
  | HeartbeatJob io job_id lease_generation now_ms lease_duration_ms =>
    refine silent (looked_up_orderly (fun job => ?_))
    split
    · exact stays _
    · refine .after_reads (reads_lift _) (fun duration => .after_reads (reads_lift _) (fun lease_until_ms => ?_))
      exact (persist_job_orderly id _).returning _
  | CompleteJob io job_id lease_generation now_ms =>
    refine Orderly.mono ?_ (fun _ => .inl)
    exact .after_reads (leased_job_reads job_id lease_generation) (fun job => persists id _ _ _ _)
  | FailJob io job_id lease_generation now_ms detail =>
    refine silent (.after_reads (leased_job_reads job_id lease_generation) (fun job => ?_))
    split
    · exact (persists id _ _ _ _).returning _
    · refine .after_reads (reads_lift _) (fun delay => .after_reads (reads_lift _) (fun available_at_ms => ?_))
      exact (persists id _ _ _ _).returning _
  | ReleaseJob io job_id lease_generation now_ms =>
    refine silent (looked_up_orderly (fun job => ?_))
    split
    · exact stays _
    · exact (persists id _ _ _ _).returning _
  | ReleaseExpiredJobs io now_ms =>
    refine silent (.after_reads reads_get (fun store => .after_reads (reads_lift _) (fun expired => ?_)))
    exact (release_each_orderly id now_ms expired).returning _
  | RetryJob io job_id now_ms =>
    refine silent (looked_up_orderly (fun job => ?_))
    split
    · exact stays _
    · exact (persists id _ _ _ _).returning _
  | CancelJob io job_id now_ms =>
    refine silent (looked_up_orderly (fun job => ?_))
    split
    · exact stays _
    · exact (persists id _ _ _ _).returning _
  | TickSchedules io entropy now_ms limit =>
    refine Orderly.returning (.after_reads reads_get (fun store => ?_)) (fun _ => ())
    exact (tick_each_orderly id entropy now_ms limit 0 _).returning _

theorem schedule_call_orderly (call : ScheduleCall) : Orderly ScheduleSpace call.io.Durable call.run := by
  cases call with
  | CreateSchedule io entropy job mode first_run_ms =>
    refine Orderly.returning (.after_reads (reads_lift _) (fun _ => ?_)) (fun _ => ())
    split
    · exact orderly_of_reads (reads_throw _)
    refine .after_reads (reads_lift _) (fun new => .after_reads (reads_lift _) (fun encoded => ?_))
    exact (put_alone_orderly id (.inr (List.prefix_append _ _)) encoded).rethrow.returning (fun _ => new)
  | SetScheduleEnabled io schedule_id enabled =>
    refine Orderly.returning (.after_reads reads_get (fun store => .after_reads (reads_lift _) (fun found => ?_))) (fun _ => ())
    cases found with
    | none => exact orderly_of_reads (reads_pure _)
    | some schedule =>
      refine .after_reads (reads_lift _) (fun encoded => ?_)
      exact (put_alone_orderly id (.inr (List.prefix_append _ _)) encoded).rethrow.returning (fun _ => true)
  | TickSchedules io entropy now_ms limit =>
    refine Orderly.returning (.after_reads reads_get (fun store => ?_)) (fun _ => ())
    exact (tick_each_orderly id entropy now_ms limit 0 _).returning _

/-- The keys of jobs, their histories and cron schedules. -/
def CronSpace (key : Bytes) : Prop := jobSpace key ∨ CRON_PREFIX <+: key

theorem tick_cron_orderly {io : Io} (durable : safe → io.Durable) (entropy : Nat → Option (ByteArr 16)) (now_ms : Int64) (limit : Nat)
    (fired : List (CronScheduleId × Int64)) (schedules : List DurableCronSchedule) :
    Orderly CronSpace safe (tick_cron_traced io entropy now_ms limit fired schedules) := by
  induction schedules generalizing fired with
  | nil => exact orderly_of_reads (reads_pure _)
  | cons schedule schedules ih =>
    rw [tick_cron_traced]
    split
    · exact orderly_of_reads (reads_pure _)
    split
    · exact ih fired
    refine Orderly.bind (.after_reads (reads_lift _) (fun cron => ?_)) (fun _ => ih _)
    refine ((submit_job_orderly durable _ _ _).mono (fun _ => .inl)).rethrow.bind (fun _ => .after_reads (reads_lift _) (fun next => ?_))
    refine .after_reads (reads_lift _) (fun encoded => ?_)
    exact (put_alone_orderly durable (.inr (List.prefix_append _ _)) encoded).rethrow

theorem cron_call_orderly (call : CronCall) : Orderly CronSpace call.io.Durable (crons.on_store call) := by
  cases call with
  | CreateCronSchedule io entropy expression job after_ms =>
    refine Orderly.returning (.after_reads (reads_lift _) (fun _ => .after_reads (reads_lift _) (fun cron => ?_))) CronReply.Created
    refine .after_reads (reads_lift _) (fun new => .after_reads (reads_lift _) (fun next_run_ms => .after_reads (reads_lift _) ?_))
    exact fun encoded => (put_alone_orderly id (.inr (List.prefix_append _ _)) encoded).rethrow.returning (fun _ => new)
  | SetCronScheduleEnabled io schedule_id enabled =>
    refine Orderly.returning (.after_reads reads_get (fun store => .after_reads (reads_lift _) (fun found => ?_))) CronReply.Switched
    cases found with
    | none => exact orderly_of_reads (reads_pure _)
    | some schedule =>
      refine .after_reads (reads_lift _) (fun encoded => ?_)
      exact (put_alone_orderly id (.inr (List.prefix_append _ _)) encoded).rethrow.returning (fun _ => true)
  | TickCronSchedules io entropy ties now_ms limit =>
    refine Orderly.bind (.after_reads reads_get (fun store => .after_reads (reads_lift _) (fun schedules => ?_)))
      (fun _ => orderly_of_reads (reads_pure _))
    exact (tick_cron_orderly id entropy now_ms limit [] schedules).returning _

/-- The keys of jobs, their histories and triggers. -/
def TriggerSpace (key : Bytes) : Prop := jobSpace key ∨ TRIGGER_PREFIX <+: key

theorem fire_trigger_orderly {io : Io} (durable : safe → io.Durable) (entropy : Option (ByteArr 16)) (id : TriggerId)
    (event_payload : Bytes) (now_ms : Int64) : OrderlyView TriggerSpace safe (fire_trigger_tx io entropy id event_payload now_ms) := by
  refine .after_reads reads_get (fun tx => ?_)
  split
  · exact orderly_view_of_reads (reads_throw _)
  refine .after_reads (reads_lift _) (fun trigger => ?_)
  split
  · exact orderly_view_of_reads (reads_pure _)
  refine .after_reads (reads_lift _) (fun _ => OrderlyView.bind ?_ (fun job_id => ?_))
  · exact ((enqueue_job_orderly durable _ _ _ _).mono (fun _ => .inl)).rethrow.rethrow
  refine .after_reads (reads_lift _) (fun fire_count => .after_reads (reads_lift _) (fun encoded => ?_))
  exact (put_orderly durable (.inr (List.prefix_append _ _)) encoded).rethrow.returning (fun _ => some job_id)

theorem create_trigger_orderly {io : Io} (durable : safe → io.Durable) (entropy : Option (ByteArr 16)) (name : Bytes)
    (source : TriggerSource) (job : JobSpec) : Orderly TriggerSpace safe (create_trigger io entropy name source job) := by
  unfold create_trigger
  split
  · exact orderly_of_reads (reads_throw _)
  refine .after_reads (reads_lift _) (fun _ => .after_reads (reads_lift _) (fun _ => .after_reads (reads_lift _) (fun id => ?_)))
  refine .after_reads (reads_lift _) (fun encoded => ?_)
  exact (put_alone_orderly durable (.inr (List.prefix_append _ _)) encoded).rethrow.returning (fun _ => id)

theorem set_trigger_orderly {io : Io} (durable : safe → io.Durable) (id : TriggerId) (enabled : Bool) :
    Orderly TriggerSpace safe (set_trigger_enabled io id enabled) := by
  refine .after_reads reads_get (fun store => .after_reads (reads_lift _) (fun found => ?_))
  cases found with
  | none => exact orderly_of_reads (reads_pure _)
  | some trigger =>
    refine .after_reads (reads_lift _) (fun encoded => ?_)
    exact (put_alone_orderly durable (.inr (List.prefix_append _ _)) encoded).rethrow.returning (fun _ => true)

/-! ## Events, requests and workflows -/

theorem emit_event_orderly {io : Io} (durable : safe → io.Durable) (entropy : Option (ByteArr 16)) (topic payload : Bytes)
    (created_at_ms : Int64) : OrderlyView (OUTBOX_PREFIX <+: ·) safe (emit_event io entropy topic payload created_at_ms) := by
  unfold emit_event
  split
  · exact orderly_view_of_reads (reads_throw _)
  refine .after_reads (reads_lift _) (fun nonce => .after_reads reads_get (fun tx => .after_reads (reads_lift _) (fun encoded => ?_)))
  exact (put_orderly durable (List.prefix_append _ _) encoded).rethrow.returning (fun _ => OutboxEventId.mk tx.tx_id nonce)

theorem outbox_call_orderly (call : OutboxCall) : Orderly (OUTBOX_PREFIX <+: ·) call.io.Durable (outbox.on_store call) := by
  cases call with
  | EmitOutboxEvent io entropy topic payload created_at_ms =>
    exact (within_orderly id (emit_event_orderly id entropy topic payload created_at_ms)).returning (fun _ => ())
  | AckOutboxEvent io event_id =>
    refine Orderly.returning (.after_reads reads_get (fun store => ?_)) (fun _ => ())
    split
    · exact orderly_of_reads (reads_pure _)
    · exact (delete_alone_orderly id (List.prefix_append _ _)).rethrow.returning (fun _ => true)

theorem outbox_tx_orderly (call : OutboxTxCall) : OrderlyView (OUTBOX_PREFIX <+: ·) call.io.Durable (outbox.on_tx call) := by
  obtain ⟨io,entropy,topic,payload,created_at_ms⟩ := call
  exact (emit_event_orderly id entropy topic payload created_at_ms).returning (fun _ => ())

/-- The keys of requests and responses. -/
def RpcSpace (key : Bytes) : Prop := REQUEST_PREFIX <+: key ∨ RESPONSE_PREFIX <+: key

theorem request_rpc_orderly {io : Io} (durable : safe → io.Durable) (entropy : Option (ByteArr 16)) (method payload : Bytes)
    (created_at_ms : Int64) (deadline_ms : Option Int64) :
    OrderlyView RpcSpace safe (request_rpc io entropy method payload created_at_ms deadline_ms) := by
  unfold request_rpc
  split
  · exact orderly_view_of_reads (reads_throw _)
  refine .after_reads (reads_lift _) (fun nonce => .after_reads reads_get (fun tx => .after_reads (reads_lift _) (fun encoded => ?_)))
  exact (put_orderly durable (.inl (List.prefix_append _ _)) encoded).rethrow.returning (fun _ => RpcRequestId.mk tx.tx_id nonce)

theorem respond_rpc_orderly {io : Io} (durable : safe → io.Durable) (id : RpcRequestId) (payload : Bytes) (completed_at_ms : Int64)
    (is_error : Bool) : Orderly RpcSpace safe (respond_rpc io id payload completed_at_ms is_error) := by
  refine .after_reads reads_get (fun store => ?_)
  split
  · split
    · exact orderly_of_reads (reads_throw _)
    · exact orderly_of_reads (reads_throw _)
  refine within_orderly durable (OrderlyView.bind (.rethrow (delete_orderly durable (.inl (List.prefix_append _ _)))) (fun _ => ?_))
  exact .after_reads (reads_lift _) (fun encoded => (put_orderly durable (.inr (List.prefix_append _ _)) encoded).rethrow)

theorem expire_pending_orderly {ios : Nat → Io} (durable : safe → ∀ i, (ios i).Durable) (now_ms : Int64) (limit expired : Nat)
    (pending : List (Bytes × Bytes)) : Orderly RpcSpace safe (expire_pending ios now_ms limit expired pending) := by
  induction pending generalizing expired with
  | nil => exact orderly_of_reads (reads_pure _)
  | cons entry pending ih =>
    rw [expire_pending]
    split
    · exact orderly_of_reads (reads_pure _)
    refine .after_reads (reads_lift _) (fun request => ?_)
    split
    · exact (respond_rpc_orderly (fun safely => durable safely expired) _ _ _ _).bind (fun _ => ih _)
    · exact ih expired

theorem rpc_call_orderly (call : RpcCall) : Orderly RpcSpace call.Durable (rpc.on_store call) := by
  cases call with
  | SubmitRpcRequest io entropy method payload created_at_ms deadline_ms =>
    exact (within_orderly id (request_rpc_orderly id entropy method payload created_at_ms deadline_ms)).returning (fun _ => ())
  | RespondRpc io request_id payload completed_at_ms is_error => exact respond_rpc_orderly id request_id payload completed_at_ms is_error
  | AckRpcResponse io request_id =>
    refine Orderly.returning (.after_reads reads_get (fun store => ?_)) (fun _ => ())
    split
    · exact orderly_of_reads (reads_pure _)
    · exact (delete_alone_orderly id (.inr (List.prefix_append _ _))).rethrow.returning (fun _ => true)
  | ExpireRpcRequests ios now_ms limit =>
    refine Orderly.returning (.after_reads reads_get (fun store => ?_)) (fun _ => ())
    exact (expire_pending_orderly id now_ms limit 0 _).returning _

theorem rpc_tx_orderly (call : RpcTxCall) : OrderlyView RpcSpace call.Durable (rpc.on_tx call) := by
  obtain ⟨io,entropy,method,payload,created_at_ms,deadline_ms⟩ := call
  exact (request_rpc_orderly id entropy method payload created_at_ms deadline_ms).returning (fun _ => ())

/-- The keys of workflows and their histories. -/
def WorkflowSpace (key : Bytes) : Prop := Workflow.INSTANCE_PREFIX <+: key ∨ Workflow.HISTORY_PREFIX <+: key

theorem write_workflow_orderly {io : Io} (durable : safe → io.Durable) (self : WorkflowInstance) (entry : WorkflowHistoryEntry) :
    OrderlyView WorkflowSpace safe (write_workflow io self entry) := by
  refine .after_reads (reads_lift _) (fun encoded => OrderlyView.bind (.rethrow (put_orderly durable ?_ encoded)) (fun _ => ?_))
  · exact .inl (List.prefix_append _ _)
  refine .after_reads (reads_lift _) (fun history => .rethrow (put_orderly durable ?_ history))
  exact .inr ((List.prefix_append _ _).trans (List.prefix_append _ _))

theorem workflow_call_orderly (call : WorkflowCall) :
    Orderly WorkflowSpace call.io.Durable call.on_store := by
  refine ⟨confined_of_elsewhere (fun store => ?_),fun durable => @store_call_steady _ (.Operation call) durable⟩
  by_cases absent : call.CancelsAbsent store
  · unfold after
    rw [cancel_absent_answers absent]
    exact .refl _ _
  have plans : Confined WorkflowSpace (lift (call.plan store.lookup) >>= Plan.commit call.io) := by
    refine (confined_of_reads (reads_lift _)).bind (fun plan => ?_)
    unfold Plan.commit
    split
    · exact confined_of_reads (reads_pure _)
    · exact ((within_orderly id (write_workflow_orderly id _ _)).returning (fun _ => plan.reply)).confined
  have agrees := plans.elsewhere store
  unfold after at agrees ⊢
  rw [on_store_eq absent]
  exact agrees

theorem workflow_tx_orderly (call : WorkflowCall) :
    OrderlyView WorkflowSpace call.io.Durable call.on_tx := by
  have plans : ∀ tx : Transaction, OrderlyView WorkflowSpace call.io.Durable
      (lift (call.plan tx.lookup) >>= Plan.stage call.io) := by
    intro tx
    refine .after_reads (reads_lift _) (fun plan => ?_)
    unfold Plan.stage
    split
    · exact orderly_view_of_reads (reads_pure _)
    · exact (write_workflow_orderly id _ _).returning (fun _ => plan.reply)
  refine ⟨⟨?_,?_⟩,workflow_call_stages⟩
  · intro seen tx before
    rw [on_tx_eq call tx]
    exact (plans tx).confined.keeps seen tx before
  · intro tx
    have carried := (plans tx).confined.carries tx
    unfold after at carried ⊢
    rw [on_tx_eq call tx]
    exact carried

theorem resume_each_orderly {ios : Nat → Io} (durable : safe → ∀ round, (ios round).Durable) (now_ms : Int64) (round : Nat)
    (due : List WorkflowInstance) :
    Orderly WorkflowSpace safe (resume_each ios now_ms round due) := by
  induction due generalizing round with
  | nil => exact orderly_of_reads (reads_pure _)
  | cons self due ih =>
    refine Orderly.bind (.after_reads reads_get (fun store => .after_reads (reads_lift _) (fun sequence => ?_))) (fun _ => ih _)
    exact within_orderly (fun safely => durable safely round) (write_workflow_orderly (fun safely => durable safely round) _ _)

theorem workflow_store_orderly (call : WorkflowStoreCall) :
    Orderly WorkflowSpace call.Durable (workflows.on_store call) := by
  cases call with
  | Operation call => exact workflow_call_orderly call
  | ResumeDueWorkflows ios now_ms limit =>
    refine Orderly.returning (.after_reads reads_get (fun store => .after_reads (reads_lift _) (fun due => ?_))) WorkflowReply.Resumed
    exact (resume_each_orderly id now_ms 0 due).returning _

/-! ## Collections -/

theorem delete_index_orderly {io : Io} (durable : safe → io.Durable) (collection primary_key : Bytes) (indexes : List IndexValue) :
    OrderlyView (CollectionSpace collection) safe (delete_index_entries io collection primary_key indexes) := by
  induction indexes with
  | nil => exact orderly_view_of_reads (reads_pure _)
  | cons index indexes ih =>
    refine .lifted (fun key made => ?_)
    exact (delete_orderly durable (index_entry_key_space made)).rethrow.bind (fun _ => ih)

theorem put_index_orderly {io : Io} (durable : safe → io.Durable) (collection primary_key : Bytes) (indexes : List IndexValue) :
    OrderlyView (CollectionSpace collection) safe (put_index_entries io collection primary_key indexes) := by
  induction indexes with
  | nil => exact orderly_view_of_reads (reads_pure _)
  | cons index indexes ih =>
    refine .lifted (fun key made => ?_)
    exact (put_orderly durable (index_entry_key_space made) _).rethrow.bind (fun _ => ih)

theorem upsert_record_orderly {io : Io} (durable : safe → io.Durable) (collection primary_key value : Bytes) (indexes : List IndexValue) :
    OrderlyView (CollectionSpace collection) safe (upsert_record io collection primary_key value indexes) := by
  refine .after_reads reads_get (fun tx => .after_reads (reads_lift _) (fun _ => ?_))
  split
  · exact orderly_view_of_reads (reads_throw _)
  refine .lifted (fun key made => .after_reads reads_get (fun tx => .after_reads (reads_lift _) (fun existing => ?_)))
  refine .after_reads reads_get (fun tx => .after_reads (reads_lift _) (fun _ => ?_))
  refine (delete_index_orderly durable collection primary_key _).bind (fun _ => .after_reads (reads_lift _) (fun encoded => ?_))
  exact (put_orderly durable (record_key_space made) encoded).rethrow.bind (fun _ => put_index_orderly durable collection primary_key indexes)

theorem delete_record_orderly {io : Io} (durable : safe → io.Durable) (collection primary_key : Bytes) :
    OrderlyView (CollectionSpace collection) safe (delete_record io collection primary_key) := by
  refine .lifted (fun key made => .after_reads reads_get (fun tx => .after_reads (reads_lift _) (fun existing => ?_)))
  cases existing with
  | none => exact orderly_view_of_reads (reads_pure _)
  | some existing =>
    refine OrderlyView.bind (.rethrow (delete_orderly durable (record_key_space made))) (fun _ => ?_)
    exact (delete_index_orderly durable collection primary_key existing.indexes).returning (fun _ => true)

theorem create_collection_orderly {io : Io} (durable : safe → io.Durable) (name : Bytes) (definition : CollectionDefinition) :
    Orderly (CollectionSpace name) safe (create_collection io name definition) := by
  refine .after_reads (reads_lift _) (fun _ => .lifted (fun key made => .after_reads reads_get (fun store => ?_)))
  split
  · exact orderly_of_reads (reads_pure _)
  refine .after_reads (reads_lift _) (fun encoded => ?_)
  exact (put_alone_orderly durable (meta_key_space made) encoded).rethrow.returning (fun _ => true)

theorem migrate_schema_orderly {io : Io} (durable : safe → io.Durable) (name : Bytes) (expected_version next_version : UInt32)
    (codec : Bytes) : Orderly (CollectionSpace name) safe (migrate_collection_schema io name expected_version next_version codec) := by
  refine .lifted (fun key made => .after_reads reads_get (fun store => .after_reads (reads_lift _) (fun current => ?_)))
  refine .after_reads (reads_lift _) (fun definition => ?_)
  split
  · exact orderly_of_reads (reads_pure _)
  split
  · exact orderly_of_reads (reads_throw _)
  refine (within_orderly durable (.after_reads (reads_lift _) (fun encoded => ?_))).returning (fun _ => true)
  refine OrderlyView.bind (.rethrow (put_orderly durable (meta_key_space made) encoded)) (fun _ => .lifted (fun entry_key spelled => ?_))
  exact .after_reads (reads_lift _) (fun entry => (put_orderly durable (migration_key_space spelled) entry).rethrow)

theorem define_index_orderly {io : Io} (durable : safe → io.Durable) (collection : Bytes) (definition : IndexDefinition) :
    Orderly (CollectionSpace collection) safe (define_index io collection definition) := by
  refine .after_reads reads_get (fun store => .after_reads (reads_lift _) (fun _ => .after_reads (reads_lift _) (fun _ => ?_)))
  refine .lifted (fun key made => .after_reads reads_get (fun store => ?_))
  split
  · exact orderly_of_reads (reads_pure _)
  · exact (put_alone_orderly durable (index_meta_key_space made) _).rethrow.returning (fun _ => true)

/-! ## The feed -/

/-- Pruning changes nothing but the feed. -/
theorem prune_orderly {io : Io} (durable : safe → io.Durable) (tx_id : UInt64) (limit : Nat) :
    Orderly (fun _ => False) safe (prune_changes_through io tx_id limit) := by
  have deletes : ∀ keys : List Bytes, (∀ key ∈ keys, starts_with key CDC_PREFIX = true) → Orderly (fun _ => False) safe
      (store_error (in_transaction begin_without_cdc (do delete_keys io keys; commit io))) := by
    intro keys inside
    have reached : ∀ store : Store, ∃ t, (after (store_error (in_transaction begin_without_cdc (do delete_keys io keys; commit io))) store) = t ∧
        Elsewhere (fun _ => False) store.state t.state ∧ Reaches io store t := by
      intro store
      unfold after store_error
      cases result : in_transaction begin_without_cdc (do delete_keys io keys; commit io) store with
      | ok x t =>
        obtain ⟨state,reaches⟩ := delete_transaction_ok result
        refine ⟨t,rfl,?_,reaches⟩
        intro key outside _
        rw [state]
        refine apply_elsewhere ?_
        rintro _ member rfl
        obtain ⟨deleted,listed,rfl⟩ := List.mem_map.mp member
        rw [show (Operation.Delete deleted).key = deleted from rfl,inside deleted listed] at outside
        cases outside
      | error e t =>
        obtain ⟨state,reaches⟩ := delete_transaction_error result
        refine ⟨t,rfl,?_,reaches⟩
        rw [state]
        exact .refl _ _
    refine ⟨confined_of_elsewhere (fun store => ?_),fun safely store sound whole => ?_⟩
    · obtain ⟨t,rfl,agrees,-⟩ := reached store
      exact agrees
    · obtain ⟨t,rfl,-,reaches⟩ := reached store
      obtain ⟨stored,left,-⟩ := reaches.sound (durable safely) sound whole
      exact ⟨stored,left⟩
  unfold prune_changes_through
  split
  · exact orderly_of_reads (reads_pure _)
  refine .after_reads reads_get (fun store => .lifted (fun keys found => ?_))
  split
  · exact orderly_of_reads (reads_pure _)
  refine (deletes keys ?_).returning (fun _ => keys.length)
  intro key member
  exact (starts_with_iff _ _).mpr (prune_keys_inside found (by simp) (scan_starts store.state CDC_PREFIX) key member)

end

end VoodooStore
