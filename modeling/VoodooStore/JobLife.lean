import VoodooStore.CronVisits
import VoodooStore.JobUses

/-!
# The life of jobs

All that is done with jobs, as one domain: workers, clients, schedules, cron
schedules and triggers, on a store and in a transaction. What a call does is told
by the chain of writes that it makes (`job_use_does`, `job_tx_use_does`).
-/
namespace VoodooStore
open Effects
set_option linter.unusedSimpArgs false

/-! ## Calls in a transaction -/

/-- A job is made, or none, or its record alone. -/
inductive Enqueues {ε α : Type} (entropy : Option (ByteArr 16)) : Except ε α → List JobFact → Prop
  | none (result : Except ε α) : Enqueues entropy result []
  | made (result : Except ε α) {job : DurableJob} (entry : JobHistoryEntry) (drawn : entropy = some job.id) :
      Enqueues entropy result [.Submitted job entry]
  | halved (e : ε) {job : DurableJob} (drawn : entropy = some job.id) : Enqueues entropy (.error e) [.Halved job]

section
variable [Hashes] {store : Store} {tx : Transaction} {io : Io}

omit [Hashes] in
theorem find_existing_tx_free (book : JobBook tx.view) {key : Bytes}
    (looked : find_active_job key (tx.scan_prefix_internal JOB_PREFIX) = .ok none) : KeyFree tx.view key := by
  rw [scan_prefix_internal_eq] at looked
  exact find_active_none book looked

theorem enqueue_walks (book : JobBook tx.view) (entropy : Option (ByteArr 16)) (spec : JobSpec) (now_ms : Int64) (detail : Bytes) :
    Walks Transaction.view tx (enqueue_job_tx io entropy spec now_ms detail) (Enqueues entropy) := by
  have writes : (∀ key, spec.idempotency_key = some key → KeyFree tx.view key) →
      Walks Transaction.view tx (do
        let job ← lift (build_job spec entropy)
        write_job_tx io job ⟨0,now_ms,.Submitted,detail⟩
        return job.id) (Enqueues entropy) := by
    intro free
    refine .lifted (fun e _ => .none _) (fun job built => Walks.returning ?_)
    obtain ⟨new,drawn,keyed⟩ := build_job_ok built
    rw [← keyed,← kept_key] at free
    rw [← kept_id] at drawn
    rcases write_job_outcome io job ⟨0,now_ms,.Submitted,detail⟩ tx with ⟨done,-,-,-⟩ | ⟨⟨e,failed⟩,same | ⟨recorded,view⟩⟩
    · refine ⟨[.Submitted job.kept ⟨0,now_ms,.Submitted,detail⟩],?_,.made _ _ drawn⟩
      exact .one (write_job_step rfl rfl (.submitted new ⟨rfl,rfl⟩ free) done)
    · refine ⟨[],?_,.none _⟩
      rw [same]
      exact .refl _
    · refine ⟨[.Halved job.kept],.one ⟨.halved new free,recorded,(fun _ given => nomatch given),?_⟩,?_⟩
      · intro key own
        rw [view]
        unfold JobFact.written JobFact.entry JobFact.job
        dsimp only
        rw [kept_id,kept_spelling]
      · rw [returned,failed]
        exact .halved e drawn
  unfold enqueue_job_tx
  refine .lifted (fun e _ => .none _) (fun _ _ => ?_)
  cases given : spec.idempotency_key with
  | none => exact writes (fun key none => by rw [given] at none; cases none)
  | some key =>
    refine .read reads_get (fun e t failed => by cases failed) (fun self read => ?_)
    cases read
    refine .lifted (fun e _ => .none _) (fun existing looked => ?_)
    cases existing with
    | some id => exact walks_of_reads (reads_pure id) (.none _)
    | none =>
      refine writes (fun other same => ?_)
      rw [given] at same
      cases same
      exact find_existing_tx_free book looked

omit [Hashes] in
/-- What is written elsewhere is not a write of a job. -/
theorem walks_of_confined {ε α : Type} {own : Bytes → Prop} {x : EStateM ε Store α} (confined : Confined own x)
    (apart : ∀ key, own key → ¬ jobSpace key) : Walks Store.state store x (fun _ facts => facts = []) :=
  ⟨[],.stay (fun key inside => confined.elsewhere store key (job_space_outside inside) (fun mine => apart key mine inside)),rfl⟩

omit [Hashes] in
theorem walks_of_confined_view {ε α : Type} {own : Bytes → Prop} {x : EStateM ε Transaction α} (confined : ConfinedView own x)
    (apart : ∀ key, own key → ¬ jobSpace key) : Walks Transaction.view tx x (fun _ facts => facts = []) :=
  ⟨[],.stay (fun key inside => confined.elsewhere tx key (job_space_outside inside) (fun mine => apart key mine inside)),rfl⟩

omit [Hashes] in
theorem trigger_not_job {key : Bytes} (own : TRIGGER_PREFIX <+: key) : ¬ jobSpace key := by
  rintro (job | history)
  · exact prefixes_apart (by decide) own job
  · exact prefixes_apart (by decide) own history

theorem fire_trigger_tx_walks (book : JobBook tx.view) (entropy : Option (ByteArr 16)) (id : TriggerId) (event_payload : Bytes) (now_ms : Int64) :
    Walks Transaction.view tx (fire_trigger_tx io entropy id event_payload now_ms) (Enqueues entropy) := by
  refine .read reads_get (fun e t failed => by cases failed) (fun self read => ?_)
  cases read
  split
  · exact walks_of_reads (reads_throw _) (.none _)
  refine .lifted (fun e _ => .none _) (fun trigger _ => ?_)
  split
  · exact walks_of_reads (reads_pure _) (.none _)
  refine .lifted (fun e _ => .none _) (fun _ _ => ?_)
  have first : Walks Transaction.view tx (rethrow TriggerError.Transactional (enqueue_job io entropy (trigger.occurrence event_payload) now_ms))
      (Enqueues entropy) := by
    refine Walks.rethrow (Walks.rethrow ((enqueue_walks book entropy _ now_ms _).mono ?_))
    rintro result facts (_ | ⟨_,entry,drawn⟩ | ⟨e,drawn⟩)
    · exact .none _
    · exact .made _ entry drawn
    · exact .halved _ drawn
  refine first.bind ?_ (fun job_id u facts _ _ told => ?_)
  · rintro e facts (_ | ⟨_,entry,drawn⟩ | ⟨_,drawn⟩)
    · exact .none _
    · exact .made _ entry drawn
    · exact .halved _ drawn
  have settled : ∀ result : Except TriggerError (Option JobId), Enqueues entropy result facts := by
    intro result
    cases told with
    | none _ => exact .none _
    | made _ entry drawn => exact .made _ entry drawn
  refine .lifted (fun e _ => by rw [List.append_nil]; exact settled _) (fun fire_count _ => ?_)
  refine .lifted (fun e _ => by rw [List.append_nil]; exact settled _) (fun encoded _ => Walks.returning ?_)
  refine (walks_of_confined_view (put_confined io (List.prefix_append TRIGGER_PREFIX _) encoded).rethrow
    (fun key own => trigger_not_job own)).mono ?_
  rintro result rest rfl
  rw [List.append_nil]
  exact settled _

/-- A job is made for a key that was looked up, or none. -/
def Makes (entropy : Option (ByteArr 16)) (facts : List JobFact) : Prop :=
  facts = [] ∨ ∃ job entry, facts = [.Submitted job entry] ∧ entropy = some job.id

theorem fire_trigger_walks (book : JobBook store.state) (entropy : Option (ByteArr 16)) (id : TriggerId) (event_payload : Bytes)
    (now_ms : Int64) : Walks Store.state store (fire_trigger io entropy id event_payload now_ms) (fun _ facts => Makes entropy facts) := by
  refine Walks.mono (@within_walks _ store _ _ TriggerError.Store io _ (fun _ facts => Makes entropy facts) ?_ ?_) ?_
  · exact (@fire_trigger_orderly _ False io False.elim entropy id event_payload now_ms).confined.carries
  · intro tx a u sees done
    obtain ⟨facts,path,told⟩ := @fire_trigger_tx_walks _ tx io (by rw [sees]; exact book) entropy id event_payload now_ms
    rw [after,done,sees] at path
    rw [returned,done] at told
    refine ⟨facts,path,?_⟩
    cases told with
    | none _ => exact .inl rfl
    | made _ entry drawn => exact .inr ⟨_,entry,rfl,drawn⟩
  · rintro result facts (⟨-,rfl⟩ | ⟨a,-,told⟩)
    · exact .inl rfl
    · exact told

/-! ## Cron schedules -/

/-- The keys of the runs that are due. -/
def dueOccurrences (now_ms : Int64) (schedules : List DurableCronSchedule) : List Bytes :=
  (schedules.filter (fun schedule => schedule.enabled ∧ schedule.next_run_ms ≤ now_ms)).map
    (fun schedule => occurrence_key schedule.id schedule.next_run_ms)

/-- What a tick of the cron schedules makes: jobs for runs that are due. -/
structure Ticks (draws : Nat → Option JobId) (start : Nat) (due : List Bytes) (facts : List JobFact) : Prop where
  only : ∀ fact ∈ facts, ∃ job entry key, fact = .Submitted job entry ∧ job.idempotency_key = some key ∧ key ∈ due
  drawn : Drawn draws start (facts.filterMap JobFact.made)

omit [Hashes] in
theorem ticks_none (draws : Nat → Option JobId) (start : Nat) (due : List Bytes) : Ticks draws start due [] :=
  ⟨by simp,drawn_none _ _⟩

theorem fire_cron_walks (book : JobBook store.state) (entropy : Option (ByteArr 16)) (now_ms : Int64) (schedule : DurableCronSchedule) :
    Walks Store.state store (fire_cron_schedule io entropy now_ms schedule) (fun _ facts => facts = [] ∨ ∃ job entry,
      facts = [.Submitted job entry] ∧ entropy = some job.id ∧
        job.idempotency_key = some (occurrence_key schedule.id schedule.next_run_ms)) := by
  refine .lifted (fun e _ => .inl rfl) (fun cron _ => ?_)
  have first : Walks Store.state store (rethrow CronSchedulerError.Job (submit_job io entropy schedule.occurrence now_ms))
      (fun _ facts => facts = [] ∨ ∃ job entry, facts = [.Submitted job entry] ∧ entropy = some job.id ∧
        job.idempotency_key = some (occurrence_key schedule.id schedule.next_run_ms)) :=
    .rethrow (submit_walks book entropy schedule.occurrence now_ms)
  refine first.bind (fun e facts told => told) (fun _ t facts _ _ told => ?_)
  refine .lifted (fun e _ => by rw [List.append_nil]; exact told) (fun next _ => ?_)
  refine .lifted (fun e _ => by rw [List.append_nil]; exact told) (fun encoded _ => ?_)
  refine (walks_of_confined (put_alone_confined io (cron_key_own next.id) encoded).rethrow (fun key own => cron_not_job own)).mono ?_
  rintro result rest rfl
  rw [List.append_nil]
  exact told

omit [Hashes] in
theorem due_occurrences_skip {now_ms : Int64} {schedule : DurableCronSchedule} (schedules : List DurableCronSchedule)
    (waits : ¬ (schedule.enabled = true ∧ schedule.next_run_ms ≤ now_ms)) :
    dueOccurrences now_ms (schedule :: schedules) = dueOccurrences now_ms schedules := by
  unfold dueOccurrences
  rw [List.filter_cons_of_neg (by simpa using waits)]

omit [Hashes] in
theorem due_occurrences_cons {now_ms : Int64} {schedule : DurableCronSchedule} (schedules : List DurableCronSchedule)
    (due : schedule.enabled = true ∧ schedule.next_run_ms ≤ now_ms) : dueOccurrences now_ms (schedule :: schedules) =
    occurrence_key schedule.id schedule.next_run_ms :: dueOccurrences now_ms schedules := by
  unfold dueOccurrences
  rw [List.filter_cons_of_pos (by simpa using due),List.map_cons]

theorem tick_cron_walks (book : JobBook store.state) {entropy : Nat → Option (ByteArr 16)} {now_ms : Int64} {limit fired : Nat}
    {schedules : List DurableCronSchedule} (few : fired ≤ limit) :
    Walks Store.state store (tick_cron_each io entropy now_ms limit fired schedules)
      (fun _ facts => Ticks entropy fired ((dueOccurrences now_ms schedules).take (limit - fired)) facts) := by
  induction schedules generalizing fired store with
  | nil => exact walks_of_reads (reads_pure _) (ticks_none _ _ _)
  | cons schedule schedules ih =>
    rw [tick_cron_each]
    split
    · exact walks_of_reads (reads_pure _) (ticks_none _ _ _)
    rename_i room
    split
    · rename_i waits
      rw [due_occurrences_skip]
      · exact ih book few
      · rintro ⟨on,now⟩
        rcases waits with off | later
        · rw [on] at off
          cases off
        · exact absurd now (Int64.not_le.mpr later)
    rename_i due
    have is_due : schedule.enabled = true ∧ schedule.next_run_ms ≤ now_ms := by
      rw [not_or,Bool.not_eq_true',Bool.not_eq_false] at due
      exact ⟨due.1,Int64.not_lt.mp due.2⟩
    have left : limit - fired = (limit - (fired + 1)) + 1 := by omega
    rw [due_occurrences_cons schedules is_due,left,List.take_succ_cons]
    refine (fire_cron_walks book (entropy fired) now_ms schedule).bind ?_ ?_
    · rintro e facts (rfl | ⟨job,entry,rfl,drawn,keyed⟩)
      · exact ticks_none _ _ _
      · refine ⟨?_,(drawn_none entropy (fired + 1)).next drawn⟩
        intro fact member
        exact ⟨job,entry,_,List.mem_singleton.mp member,keyed,by simp⟩
    · intro _ t facts _ path told
      refine (ih (path.book book) (show fired + 1 ≤ limit by omega)).mono (fun result rest later => ?_)
      have behind : ∀ fact ∈ rest, ∃ job entry key, fact = .Submitted job entry ∧ job.idempotency_key = some key ∧
          key ∈ occurrence_key schedule.id schedule.next_run_ms :: (dueOccurrences now_ms schedules).take (limit - (fired + 1)) := by
        intro fact member
        obtain ⟨job,entry,key,is,keyed,due⟩ := later.only fact member
        exact ⟨job,entry,key,is,keyed,by simp [due]⟩
      rcases told with rfl | ⟨job,entry,rfl,drawn,keyed⟩
      · exact ⟨behind,later.drawn.earlier⟩
      · refine ⟨?_,later.drawn.next drawn⟩
        intro fact member
        rcases List.mem_cons.mp member with first | other
        · exact ⟨job,entry,_,first,keyed,by simp⟩
        · exact behind fact other

end

/-! ## All calls -/

inductive JobUse
  | Job (call : JobCall)
  | FireTrigger (io : Io) (entropy : Option (ByteArr 16)) (id : TriggerId) (event_payload : Bytes) (now_ms : Int64)
  | TickCronSchedules (io : Io) (entropy : Nat → Option (ByteArr 16)) (ties : DurableCronSchedule → Nat) (now_ms : Int64) (limit : Nat)

inductive JobTxUse
  | EnqueueJob (io : Io) (entropy : Option (ByteArr 16)) (spec : JobSpec) (now_ms : Int64)
  | FireTrigger (io : Io) (entropy : Option (ByteArr 16)) (id : TriggerId) (event_payload : Bytes) (now_ms : Int64)

def JobUse.io : JobUse → Io
  | .Job call => call.io
  | .FireTrigger io _ _ _ _ => io
  | .TickCronSchedules io _ _ _ _ => io

def JobTxUse.io : JobTxUse → Io
  | .EnqueueJob io _ _ _ => io
  | .FireTrigger io _ _ _ _ => io

/-- Whether a worker presents a lease, and which. -/
def JobCall.presents : JobCall → Option (JobId × UInt32)
  | .HeartbeatJob _ id lease_generation _ _ => some (id,lease_generation)
  | .CompleteJob _ id lease_generation _ => some (id,lease_generation)
  | .FailJob _ id lease_generation _ _ => some (id,lease_generation)
  | .ReleaseJob _ id lease_generation _ => some (id,lease_generation)
  | _ => none

/-- The ids that may be drawn for new jobs. -/
def JobUse.draws : JobUse → Nat → Option JobId
  | .Job (.SubmitJob _ entropy _ _), n => if n = 0 then entropy else none
  | .Job (.TickSchedules _ entropy _ _), n => entropy n
  | .FireTrigger _ entropy _ _ _, n => if n = 0 then entropy else none
  | .TickCronSchedules _ entropy _ _ _, n => entropy n
  | _, _ => none

def JobTxUse.draws : JobTxUse → Option JobId
  | .EnqueueJob _ entropy _ _ => entropy
  | .FireTrigger _ entropy _ _ _ => entropy

inductive JobUseError
  | Job (error : JobError)
  | Trigger (error : TriggerError)
  deriving DecidableEq

/-- What is seen of a call. A tick of the cron schedules is watched, whether it fails
    or not: which runs were due, which keys were held, and which jobs were made. -/
inductive JobTold
  | Done
  | Claimed (job : Option DurableJob)
  | Acted (accepted : Bool)
  | Retried (job : Option DurableJob) (sequence : Option UInt64)
  | Ticked (due held : List Bytes) (made : List DurableJob)
  | Staged (orphaned : Bool)
  deriving DecidableEq

/-- The jobs of a map, as far as they can be read. -/
def jobsIn (s : State) : List DurableJob := (scan s JOB_PREFIX).filterMap (fun entry => (decode_job entry.2).toOption)

/-- The jobs that are in the second map alone. -/
def jobsBetween (s t : State) : List DurableJob := (jobsIn t).filter (fun job => s[job_key job.id]? = none)

/-- A job that is in the second map alone has no history. -/
def orphaned (s t : State) : Bool := (jobsBetween s t).any (fun job => scan t (VoodooStore.history_prefix job.id) = [])

/-- The computation as it is watched from outside. -/
def watched {ε φ σ α β : Type} (x : EStateM ε σ α) (tell : σ → σ → β) : EStateM φ σ β := fun s => .ok (tell s (after x s)) (after x s)

/-- The keys of the active jobs of a map. -/
def heldKeys (s : State) : List Bytes := ((jobsIn s).filter (fun job => job.state.active)).filterMap DurableJob.idempotency_key

def watchTick (ties : DurableCronSchedule → Nat) (now_ms : Int64) (limit : Nat) (s t : Store) : JobTold :=
  let due := match s.list_cron_schedules ties with
    | .ok schedules => (dueOccurrences now_ms schedules).take limit
    | .error _ => []
  .Ticked due (heldKeys s.state) (jobsBetween s.state t.state)

section
variable [Hashes]

def JobCall.told : JobCall → EStateM JobError Store JobTold
  | .SubmitJob io entropy spec now_ms => do return (fun _ => .Done) (← submit_job io entropy spec now_ms)
  | .ClaimJobForHandlers io now_ms lease_duration_ms handlers => do
    return .Claimed (← claim_job_for_handlers io now_ms lease_duration_ms handlers)
  | .HeartbeatJob io id lease_generation now_ms lease_duration_ms => do
    return .Acted (← heartbeat_job io id lease_generation now_ms lease_duration_ms)
  | .CompleteJob io id lease_generation now_ms => do return (fun _ => .Acted true) (← complete_job io id lease_generation now_ms)
  | .FailJob io id lease_generation now_ms detail => do
    return (fun _ => .Acted true) (← fail_job io id lease_generation now_ms detail)
  | .ReleaseJob io id lease_generation now_ms => do return .Acted (← release_job io id lease_generation now_ms)
  | .ReleaseExpiredJobs io now_ms => do return (fun _ => .Done) (← release_expired_jobs io now_ms)
  | .RetryJob io id now_ms => do
    let store ← get
    return .Retried (← retry_job io id now_ms) (store.next_history_sequence id).toOption
  | .CancelJob io id now_ms => do return (fun _ => .Done) (← cancel_job io id now_ms)
  | .TickSchedules io entropy now_ms limit => do return (fun _ => .Done) (← tick_schedules io entropy now_ms limit)

/-- Everything that is done with jobs. -/
def jobLife : Domain JobUseError JobUse JobTxUse JobTold where
  on_store
    | .Job call => rethrow .Job call.told
    | .FireTrigger io entropy id event_payload now_ms => do
      return (fun _ => .Done) (← rethrow .Trigger (fire_trigger io entropy id event_payload now_ms))
    | .TickCronSchedules io entropy ties now_ms limit =>
      watched (tick_cron_schedules io entropy ties now_ms limit) (watchTick ties now_ms limit)
  on_tx
    | .EnqueueJob io entropy spec now_ms => watched (enqueue_job io entropy spec now_ms) (fun s t => .Staged (orphaned s.view t.view))
    | .FireTrigger io entropy id event_payload now_ms =>
      watched (fire_trigger_tx io entropy id event_payload now_ms) (fun s t => .Staged (orphaned s.view t.view))

end

/-! ## What a call does -/

/-- The leases that are reported. -/
def JobTold.handed : Except JobUseError JobTold → List (JobId × UInt32)
  | .ok (.Claimed (some job)) => [(job.id,job.lease_generation)]
  | _ => []

/-- The dead jobs that are reported to be tried again, and the numbers of the entries that tell. -/
def JobTold.again : Except JobUseError JobTold → List (JobId × UInt64)
  | .ok (.Retried (some job) (some sequence)) => [(job.id,sequence)]
  | _ => []

/-- The keys of the runs that a tick of the schedules may fire. -/
def JobUse.due (s : State) : JobUse → List (Option Bytes)
  | .Job (.TickSchedules _ _ now_ms limit) => (dueKeys now_ms (scan s SCHEDULE_PREFIX)).take limit
  | _ => []

/-- What a call does, by the writes that it makes. -/
structure Does (store : Store) (call : JobUse) (told : Except JobUseError JobTold) (facts : List JobFact) : Prop where
  handed : facts.filterMap JobFact.handed = JobTold.handed told
  again : facts.filterMap JobFact.again = JobTold.again told
  drawn : Drawn call.draws 0 (facts.filterMap JobFact.made)
  scheduled : facts.filterMap JobFact.scheduled <+: call.due store.state
  ticks : facts.filterMap JobFact.scheduled ≠ [] → ∀ fact ∈ facts, ∃ job entry, fact = .Scheduled job entry
  revives : ∀ old new entry, .Turned old new entry ∈ facts → old.state = .Dead →
    facts = [.Turned old new entry] ∧ ∃ io now_ms, call = .Job (.RetryJob io old.id now_ms) ∧ JobIn store.state old
  accepted : ∀ job_call id lease_generation, call = .Job job_call → job_call.presents = some (id,lease_generation) →
    told = .ok (.Acted true) → ∃ job, HoldsLease store.state id lease_generation job
  ticked : ∀ io entropy ties now_ms limit, call = .TickCronSchedules io entropy ties now_ms limit →
    ∀ fact ∈ facts, ∃ job entry key schedules, fact = .Submitted job entry ∧ job.idempotency_key = some key ∧
      store.list_cron_schedules ties = .ok schedules ∧ key ∈ (dueOccurrences now_ms schedules).take limit
  whole : ∀ job, .Halved job ∉ facts

section
variable {store : Store} {facts : List JobFact}

/-- Work on active jobs. -/
theorem does_work {call : JobCall} {told : Except JobUseError JobTold} (worked : ∀ fact ∈ facts, fact.Worked)
    (handed : facts.filterMap JobFact.handed = JobTold.handed told) (again : JobTold.again told = [])
    (accepted : ∀ id lease_generation, call.presents = some (id,lease_generation) → told = .ok (.Acted true) →
      ∃ job, HoldsLease store.state id lease_generation job) : Does store (.Job call) told facts where
  handed := handed
  again := by
    rw [again,List.filterMap_eq_nil_iff]
    exact fun fact member => (worked fact member).again
  drawn := by
    rw [List.filterMap_eq_nil_iff.mpr (fun fact member => (worked fact member).made)]
    exact drawn_none _ _
  scheduled := by
    rw [List.filterMap_eq_nil_iff.mpr (fun fact member => (worked fact member).scheduled)]
    exact List.nil_prefix
  ticks := by
    rw [List.filterMap_eq_nil_iff.mpr (fun fact member => (worked fact member).scheduled)]
    exact fun some_there => absurd rfl some_there
  revives := fun old new entry member dead => absurd dead (active_not_dead (worked _ member))
  accepted := by
    rintro job_call id lease_generation ⟨⟩
    exact accepted id lease_generation
  ticked := by rintro io entropy ties now_ms limit ⟨⟩
  whole := fun job member => worked _ member

theorem does_among {call : JobCall} {told : Except JobUseError JobTold} (among : ∃ jobs, Among jobs facts)
    (silent : JobTold.handed told = []) (again : JobTold.again told = [])
    (accepted : ∀ id lease_generation, call.presents = some (id,lease_generation) → told = .ok (.Acted true) →
      ∃ job, HoldsLease store.state id lease_generation job) : Does store (.Job call) told facts := by
  obtain ⟨jobs,among⟩ := among
  refine does_work (fun fact member => (among fact member).1.1) ?_ again accepted
  rw [silent,List.filterMap_eq_nil_iff]
  exact fun fact member => (among fact member).1.2

/-- One job is made, or none. -/
theorem does_make {call : JobUse} {told : Except JobUseError JobTold} {entropy : Option (ByteArr 16)} (makes : Makes entropy facts)
    (draws : call.draws 0 = entropy) (silent : JobTold.handed told = []) (again : JobTold.again told = [])
    (presents : ∀ job_call, call = .Job job_call → job_call.presents = none)
    (ticks : ∀ io entropy ties now_ms limit, call ≠ .TickCronSchedules io entropy ties now_ms limit) : Does store call told facts := by
  have other : ∀ job_call id lease_generation, call = .Job job_call → job_call.presents = some (id,lease_generation) →
      told = .ok (.Acted true) → ∃ job, HoldsLease store.state id lease_generation job := by
    intro job_call id lease_generation is presented _
    rw [presents job_call is] at presented
    cases presented
  rcases makes with rfl | ⟨job,entry,rfl,drawn⟩
  · exact ⟨silent.symm,again.symm,drawn_none _ _,List.nil_prefix,by simp,by simp,other,by simp,by simp⟩
  · refine ⟨silent.symm,again.symm,(drawn_none call.draws 1).next (draws.trans drawn),List.nil_prefix,fun none => absurd rfl none,by simp,other,?_,by simp⟩
    intro io entropy ties now_ms limit is
    exact absurd is (ticks io entropy ties now_ms limit)

end

section
variable [Hashes] {store : Store}

omit [Hashes] in
theorem worker_does {α : Type} {call : JobCall} {id : JobId} {lease_generation : UInt32} {accepted : α → Prop} {f : α → JobTold}
    {x : EStateM JobError Store α} (presents : call.presents = some (id,lease_generation))
    (tells : ∀ a, ∃ b, f a = .Acted b ∧ (b = true → accepted a)) (walks : Walks Store.state store x (Acts store.state id lease_generation accepted)) :
    Walks Store.state store (rethrow JobUseError.Job (do return f (← x))) (Does store (.Job call)) := by
  refine .rethrow (Walks.returning (walks.mono (fun result facts acts => ?_)))
  refine does_among acts.among ?_ ?_ ?_
  · cases result with
    | error e => rfl
    | ok a =>
      obtain ⟨b,is,-⟩ := tells a
      show JobTold.handed (.ok (f a)) = []
      rw [is]
      rfl
  · cases result with
    | error e => rfl
    | ok a =>
      obtain ⟨b,is,-⟩ := tells a
      show JobTold.again (.ok (f a)) = []
      rw [is]
      rfl
  · intro other generation presented told
    rw [presents] at presented
    cases presented
    cases result with
    | error e => cases told
    | ok a =>
      obtain ⟨b,is,accepts⟩ := tells a
      have same : f a = .Acted true := Except.ok.inj told
      rw [is] at same
      cases same
      exact acts.holds a rfl (accepts rfl)

omit [Hashes] in
theorem silent_does {α : Type} {call : JobCall} {x : EStateM JobError Store α} (presents : call.presents = none)
    (walks : Walks Store.state store x (fun _ facts => ∃ jobs, Among jobs facts)) :
    Walks Store.state store (rethrow JobUseError.Job (do return (fun _ => JobTold.Done) (← x))) (Does store (.Job call)) := by
  refine .rethrow (Walks.returning (walks.mono (fun result facts among => ?_)))
  refine does_among among (by cases result <;> rfl) (by cases result <;> rfl) ?_
  intro id lease_generation presented
  rw [presents] at presented
  cases presented

theorem claim_does (book : JobBook store.state) (io : Io) (now_ms : Int64) (lease_duration_ms : UInt64) (handlers : List Bytes) :
    Walks Store.state store (rethrow JobUseError.Job (JobCall.told (.ClaimJobForHandlers io now_ms lease_duration_ms handlers)))
      (Does store (.Job (.ClaimJobForHandlers io now_ms lease_duration_ms handlers))) := by
  refine .rethrow (Walks.returning ((claim_walks book now_ms lease_duration_ms handlers).mono (fun result facts hands => ?_)))
  refine does_work hands.worked ?_ ?_ (by rintro id lease_generation ⟨⟩)
  · rw [hands.handed]
    rcases result with e | (_ | job) <;> rfl
  · rcases result with e | (_ | job) <;> rfl

theorem retry_does (book : JobBook store.state) (io : Io) (id : JobId) (now_ms : Int64) :
    Walks Store.state store (rethrow JobUseError.Job (JobCall.told (.RetryJob io id now_ms))) (Does store (.Job (.RetryJob io id now_ms))) := by
  refine .rethrow ?_
  refine .read reads_get (fun e t failed => by cases failed) (fun self read => ?_)
  cases read
  obtain ⟨facts,path,told⟩ := @retry_walks _ store io id now_ms book
  refine Walks.returning ⟨facts,path,?_⟩
  generalize returned (retry_job io id now_ms) store = result at told
  cases told with
  | @revived old has own dead entry is later =>
    subst own
    cases path with
    | go first rest =>
      cases first.allowed with
      | turned here becomes next =>
        have told : (store.next_history_sequence old.id).toOption = some entry.sequence := by
          rw [next_sequence_eq,next]
          rfl
        refine ⟨?_,?_,drawn_none _ _,List.nil_prefix,fun none => absurd rfl none,?_,by rintro job_call id lease_generation ⟨⟩ ⟨⟩,
          by rintro _ _ _ _ _ ⟨⟩,by simp⟩
        · rw [List.filterMap_cons_none (show JobFact.handed (.Turned old (old.revived later) entry) = none from if_neg (by rw [is]; decide))]
          rfl
        · rw [List.filterMap_cons_some (show JobFact.again (.Turned old (old.revived later) entry) = some _ from if_pos dead),told]
          rfl
        · intro before new other member _
          cases List.mem_singleton.mp member
          exact ⟨rfl,io,now_ms,rfl,has⟩
  | passed result silent =>
    refine does_among ⟨[],among_none _⟩ ?_ ?_ (by rintro id lease_generation ⟨⟩)
    · rcases result with e | (_ | job)
      · rfl
      · rfl
      · rfl
    · rcases result with e | (_ | job)
      · rfl
      · rfl
      · exact absurd rfl (silent job)

omit [Hashes] in
theorem Walks.watched {ε φ α β σ : Type} {look : σ → State} {s : σ} {x : EStateM ε σ α} {said : List JobFact → Prop}
    (walks : Walks look s x (fun _ facts => said facts)) (tell : σ → σ → β) :
    Walks look s (watched x tell : EStateM φ σ β) (fun result facts => result = .ok (tell s (after x s)) ∧ said facts) := by
  obtain ⟨facts,path,told⟩ := walks
  exact ⟨facts,path,rfl,told⟩

theorem tick_walks (book : JobBook store.state) (io : Io) (entropy : Nat → Option (ByteArr 16)) (ties : DurableCronSchedule → Nat)
    (now_ms : Int64) (limit : Nat) : Walks Store.state store (tick_cron_schedules io entropy ties now_ms limit) (fun _ facts =>
      facts = [] ∨ ∃ schedules, store.list_cron_schedules ties = .ok schedules ∧ Ticks entropy 0 ((dueOccurrences now_ms schedules).take limit) facts) := by
  refine .read reads_get (fun e t failed => by cases failed) (fun self read => ?_)
  cases read
  refine .lifted (fun e _ => .inl rfl) (fun schedules listed => Walks.returning ?_)
  exact (tick_cron_walks book (Nat.zero_le limit)).mono (fun result facts ticks => .inr ⟨schedules,listed,ticks⟩)

/-- Every call on a store makes a chain of writes and tells what they were. -/
theorem job_use_does (book : JobBook store.state) (call : JobUse) : Walks Store.state store (jobLife.on_store call) (Does store call) := by
  cases call with
  | Job call =>
    cases call with
    | SubmitJob io entropy spec now_ms =>
      refine .rethrow (Walks.returning ((submit_walks book entropy spec now_ms).mono (fun result facts makes => ?_)))
      refine @does_make _ _ (.Job (.SubmitJob io entropy spec now_ms)) _ entropy ?_ rfl (by cases result <;> rfl) (by cases result <;> rfl)
        (by rintro _ ⟨⟩; rfl) (by rintro _ _ _ _ _ ⟨⟩)
      rcases makes with rfl | ⟨job,entry,rfl,drawn,-⟩
      · exact .inl rfl
      · exact .inr ⟨job,entry,rfl,drawn⟩
    | ClaimJobForHandlers io now_ms lease_duration_ms handlers => exact claim_does book io now_ms lease_duration_ms handlers
    | HeartbeatJob io id lease_generation now_ms lease_duration_ms =>
      exact worker_does rfl (fun a => ⟨a,rfl,fun is => is⟩) (heartbeat_walks book lease_duration_ms)
    | CompleteJob io id lease_generation now_ms =>
      exact worker_does rfl (fun _ => ⟨true,rfl,fun _ => trivial⟩) (complete_walks book)
    | FailJob io id lease_generation now_ms detail =>
      exact worker_does rfl (fun _ => ⟨true,rfl,fun _ => trivial⟩) (fail_walks book detail)
    | ReleaseJob io id lease_generation now_ms => exact worker_does rfl (fun a => ⟨a,rfl,fun is => is⟩) (release_walks book)
    | ReleaseExpiredJobs io now_ms => exact silent_does rfl (release_expired_walks book now_ms)
    | RetryJob io id now_ms => exact retry_does book io id now_ms
    | CancelJob io id now_ms => exact silent_does rfl (cancel_walks book)
    | TickSchedules io entropy now_ms limit =>
      refine .rethrow (Walks.returning ?_)
      refine .read reads_get (fun e t failed => by cases failed) (fun self read => ?_)
      cases read
      rw [scan_prefix_eq]
      refine Walks.returning ((tick_each_walks (Nat.zero_le limit)).mono (fun result facts schedules => ?_))
      have quiet : facts.filterMap JobFact.handed = [] ∧ facts.filterMap JobFact.again = [] := by
        constructor
        · rw [List.filterMap_eq_nil_iff]
          intro fact member
          obtain ⟨job,entry,rfl⟩ := schedules.only fact member
          rfl
        · rw [List.filterMap_eq_nil_iff]
          intro fact member
          obtain ⟨job,entry,rfl⟩ := schedules.only fact member
          rfl
      refine ⟨?_,?_,schedules.drawn,schedules.keyed,fun _ => schedules.only,?_,by rintro _ _ _ ⟨⟩ ⟨⟩,by rintro _ _ _ _ _ ⟨⟩,
        fun job member => ?_⟩
      · rw [quiet.1]
        cases result <;> rfl
      · rw [quiet.2]
        cases result <;> rfl
      · intro old new entry member
        obtain ⟨job,other,is⟩ := schedules.only _ member
        cases is
      · obtain ⟨made,other,is⟩ := schedules.only _ member
        cases is
  | FireTrigger io entropy id event_payload now_ms =>
    refine Walks.returning (.rethrow ((fire_trigger_walks book entropy id event_payload now_ms).mono (fun result facts makes => ?_)))
    exact @does_make _ _ (.FireTrigger io entropy id event_payload now_ms) _ entropy makes rfl (by cases result <;> rfl)
      (by cases result <;> rfl) (by rintro _ ⟨⟩) (by rintro _ _ _ _ _ ⟨⟩)
  | TickCronSchedules io entropy ties now_ms limit =>
    refine ((tick_walks book io entropy ties now_ms limit).watched (watchTick ties now_ms limit)).mono ?_
    rintro result facts ⟨rfl,ticked⟩
    rcases ticked with rfl | ⟨schedules,listed,ticks⟩
    · exact ⟨rfl,rfl,drawn_none _ _,List.nil_prefix,by simp,by simp,by rintro _ _ _ ⟨⟩,by simp,by simp⟩
    have each : ∀ fact ∈ facts, fact.handed = none ∧ fact.again = none ∧ fact.scheduled = none := by
      intro fact member
      obtain ⟨job,entry,key,rfl,-⟩ := ticks.only fact member
      exact ⟨rfl,rfl,rfl⟩
    refine ⟨?_,?_,ticks.drawn,?_,?_,?_,by rintro _ _ _ ⟨⟩,?_,fun job member => ?_⟩
    · rw [List.filterMap_eq_nil_iff.mpr (fun fact member => (each fact member).1)]
      rfl
    · rw [List.filterMap_eq_nil_iff.mpr (fun fact member => (each fact member).2.1)]
      rfl
    · rw [List.filterMap_eq_nil_iff.mpr (fun fact member => (each fact member).2.2)]
      exact List.nil_prefix
    · rw [List.filterMap_eq_nil_iff.mpr (fun fact member => (each fact member).2.2)]
      exact fun none => absurd rfl none
    · intro old new entry member
      obtain ⟨job,other,key,is,-⟩ := ticks.only _ member
      cases is
    · rintro _ _ _ _ _ ⟨⟩ fact member
      obtain ⟨job,entry,key,rfl,keyed,due⟩ := ticks.only fact member
      exact ⟨job,entry,key,schedules,rfl,keyed,listed,due⟩
    · obtain ⟨made,entry,key,is,-⟩ := ticks.only _ member
      cases is

/-- What a call in a transaction does. -/
inductive DoesTx (call : JobTxUse) : List JobFact → Prop
  | nothing : DoesTx call []
  | made {job : DurableJob} (entry : JobHistoryEntry) (drawn : call.draws = some job.id) : DoesTx call [.Submitted job entry]
  | halved {job : DurableJob} (drawn : call.draws = some job.id) : DoesTx call [.Halved job]

theorem job_tx_use_does {tx : Transaction} (book : JobBook tx.view) (call : JobTxUse) :
    ∃ facts, JobPath tx.view facts (after (jobLife.on_tx call) tx).view ∧ DoesTx call facts ∧
      returned (jobLife.on_tx call) tx = .ok (.Staged (orphaned tx.view (after (jobLife.on_tx call) tx).view)) := by
  cases call with
  | EnqueueJob io entropy spec now_ms =>
    obtain ⟨facts,path,told⟩ : Walks Transaction.view tx (enqueue_job io entropy spec now_ms) (Enqueues entropy) := by
      refine .rethrow ((enqueue_walks book entropy spec now_ms _).mono ?_)
      rintro result facts (_ | ⟨_,entry,drawn⟩ | ⟨e,drawn⟩)
      · exact .none _
      · exact .made _ entry drawn
      · exact .halved _ drawn
    refine ⟨facts,path,?_,rfl⟩
    generalize returned (enqueue_job io entropy spec now_ms) tx = result at told
    cases told with
    | none _ => exact .nothing
    | made _ entry drawn => exact .made entry drawn
    | halved _ drawn => exact .halved drawn
  | FireTrigger io entropy id event_payload now_ms =>
    obtain ⟨facts,path,told⟩ := @fire_trigger_tx_walks _ tx io book entropy id event_payload now_ms
    refine ⟨facts,path,?_,rfl⟩
    generalize returned (fire_trigger_tx io entropy id event_payload now_ms) tx = result at told
    cases told with
    | none _ => exact .nothing
    | made _ entry drawn => exact .made entry drawn
    | halved _ drawn => exact .halved drawn

/-! ## Runs -/

omit [Hashes] in
theorem after_returning {ε α β σ : Type} (x : EStateM ε σ α) (f : α → β) (s : σ) : after (do return f (← x)) s = after x s := by
  unfold after
  rw [bind_run]
  cases x s <;> rfl

/-- What is told of a call is not part of it. -/
theorem told_after (call : JobCall) (store : Store) : after call.told store = after (jobs.on_store call) store := by
  cases call with
  | CompleteJob io id lease_generation now_ms => exact after_returning _ _ store
  | _ => exact (after_returning _ _ store).trans (after_returning _ _ store).symm

theorem job_use_steady {call : JobUse} (durable : call.io.Durable) : Steady (jobLife.on_store call) := by
  cases call with
  | Job call =>
    refine Steady.rethrow (fun store => ?_)
    rw [told_after]
    exact (job_call_wise durable).steady store
  | FireTrigger io entropy id event_payload now_ms =>
    exact ((within_orderly (fun d => d) (fire_trigger_orderly (fun d => d) entropy id event_payload now_ms)).rethrow.returning
      (fun _ => JobTold.Done)).steady durable
  | TickCronSchedules io entropy ties now_ms limit =>
    have steady : Steady (tick_cron_schedules io entropy ties now_ms limit) := by
      rw [tick_cron_schedules_eq]
      refine Steady.bind ?_ (fun _ => steady_of_reads (reads_pure _))
      refine (steady_of_reads reads_get).bind (fun store => (steady_of_reads (reads_lift _)).bind (fun schedules => ?_))
      exact (tick_cron_traced_steady durable entropy now_ms limit [] schedules).bind (fun _ => steady_of_reads (reads_pure _))
    exact steady

theorem job_tx_use_stages {call : JobTxUse} (durable : call.io.Durable) : Stages (jobLife.on_tx call) := by
  cases call with
  | EnqueueJob io entropy spec now_ms =>
    have stages : Stages (enqueue_job io entropy spec now_ms) := (enqueue_job_stages durable.1 entropy spec now_ms _).rethrow
    exact stages
  | FireTrigger io entropy id event_payload now_ms =>
    have stages : Stages (fire_trigger_tx io entropy id event_payload now_ms) :=
      (fire_trigger_orderly (fun d => d) entropy id event_payload now_ms).stages durable
    exact stages

abbrev JobEvent := Happened JobUseError JobUse JobTxUse JobTold

/-- What every chain of writes keeps is kept by every move. -/
theorem job_life_preserved {terms : Terms JobUseError JobUse JobTxUse JobTold} {holds : State → Option State → List JobEvent → Prop}
    (mine : ∀ key, jobSpace key → terms.mine key) (durable : ∀ state call, terms.call state call → call.io.Durable)
    (durableTx : ∀ view call, terms.callTx view call → call.io.Durable)
    (call : ∀ (call : JobUse) (store : Store) (log : List JobEvent) (facts : List JobFact), terms.call store.state call →
      JobBook store.state → JobPath store.state facts (after (jobLife.on_store call) store).state →
      Does store call (returned (jobLife.on_store call) store) facts → holds store.state none log →
      holds (after (jobLife.on_store call) store).state none (log ++ [Happened.Returned call (returned (jobLife.on_store call) store)]))
    (begins : ∀ (state : State) (log : List JobEvent), holds state none log → holds state (some state) (log ++ [Happened.Began]))
    (callTx : ∀ (call : JobTxUse) (state view next : State) (log : List JobEvent) (facts : List JobFact), terms.callTx view call →
      JobBook view → JobPath view facts next → DoesTx call facts → holds state (some view) log →
      holds state (some next) (log ++ [Happened.Staged call (.ok (.Staged (orphaned view next))) false]))
    (write : ∀ (state view next : State) (log : List JobEvent), SameJobs view next → holds state (some view) log →
      holds state (some next) log)
    (commits : ∀ (state view next : State) (log : List JobEvent), terms.commit log → SameJobs view next → holds state (some view) log →
      holds next none (log ++ [Happened.Committed]))
    (ends : ∀ (state view : State) (log : List JobEvent), holds state (some view) log → holds state none (log ++ [Happened.Abandoned])) :
    Preserved jobLife terms (fun state view log => (JobBook state ∧ ∀ seen, view = some seen → JobBook seen) ∧ holds state view log) := by
  constructor
  · exact fun c state ok => job_use_steady (durable state c ok)
  · exact fun c view ok => job_tx_use_stages (durableTx view c ok)
  · rintro c store log ok ⟨⟨book,-⟩,now⟩
    obtain ⟨facts,path,does⟩ := job_use_does book c
    exact ⟨⟨path.book book,by simp⟩,call c store log facts ok book path does now⟩
  · rintro state log ⟨⟨book,-⟩,now⟩
    refine ⟨⟨book,?_⟩,begins state log now⟩
    rintro _ ⟨⟩
    exact book
  · rintro c tx log ok ⟨⟨book,seen⟩,now⟩
    obtain ⟨facts,path,does,told⟩ := job_tx_use_does (seen _ rfl) c
    have whole : halfway (jobLife.on_tx c) tx = false := by cases c <;> rfl
    rw [told,whole]
    refine ⟨⟨book,?_⟩,callTx c _ _ _ log facts ok (seen _ rfl) path does now⟩
    rintro _ ⟨⟩
    exact path.book (seen _ rfl)
  · rintro state view next log same ⟨⟨book,seen⟩,now⟩
    have agrees : SameJobs view next := fun key own => same key (mine key own)
    refine ⟨⟨book,?_⟩,write state view next log agrees now⟩
    rintro _ ⟨⟩
    exact agrees.book (seen _ rfl)
  · rintro state view next log agreed same ⟨⟨-,seen⟩,now⟩
    have agrees := same_jobs_of_data same
    exact ⟨⟨agrees.book (seen _ rfl),by simp⟩,commits state view next log agreed agrees now⟩
  · rintro state view log ⟨⟨book,-⟩,now⟩
    exact ⟨⟨book,by simp⟩,ends state view log now⟩

end

end VoodooStore
