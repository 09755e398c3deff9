import VoodooStore.JobClaims
import VoodooStore.ScheduleTicks

/-!
# Jobs in use

Whatever is done with jobs, the entries under their prefix are jobs at their own
keys (`jobs_preserved`), so that what a claim does can be said of every store
that is reached.
-/
namespace VoodooStore
open Effects
set_option linter.unusedSimpArgs false

theorem job_book_same {s t : State} (same : SameData s t) (book : JobBook s) : JobBook t :=
  book.congr (fun key own => same key (job_outside_feed own))

/-- A write elsewhere. -/
theorem JobBook.elsewhere {s : State} (book : JobBook s) {key value : Bytes} (other : starts_with key JOB_PREFIX = false) :
    JobBook (s.insert key value) := by
  refine book.congr ?_
  intro own_key own
  rw [get_insert,if_neg]
  rintro rfl
  rw [other] at own
  cases own

theorem history_outside (id : JobId) (sequence : UInt64) : starts_with (history_key id sequence) JOB_PREFIX = false := by
  rw [Bool.eq_false_iff,ne_eq,starts_with_iff]
  exact prefixes_apart (by decide) ((List.prefix_append HISTORY_PREFIX _).trans (List.prefix_append _ _))

theorem leased_job_reads (id : JobId) (lease_generation : UInt32) : Effects.Reads (leased_job id lease_generation) :=
  reads_get.bind (fun _ => (reads_lift _).bind (fun _ => (reads_lift _).bind (fun _ => (reads_lift _).bind (fun _ => reads_pure _))))

inductive JobCall
  | SubmitJob (io : Io) (entropy : Option (ByteArr 16)) (spec : JobSpec) (now_ms : Int64)
  | ClaimJobForHandlers (io : Io) (now_ms : Int64) (lease_duration_ms : UInt64) (handlers : List Bytes)
  | HeartbeatJob (io : Io) (id : JobId) (lease_generation : UInt32) (now_ms : Int64) (lease_duration_ms : UInt64)
  | CompleteJob (io : Io) (id : JobId) (lease_generation : UInt32) (now_ms : Int64)
  | FailJob (io : Io) (id : JobId) (lease_generation : UInt32) (now_ms : Int64) (detail : Bytes)
  | ReleaseJob (io : Io) (id : JobId) (lease_generation : UInt32) (now_ms : Int64)
  | ReleaseExpiredJobs (io : Io) (now_ms : Int64)
  | RetryJob (io : Io) (id : JobId) (now_ms : Int64)
  | CancelJob (io : Io) (id : JobId) (now_ms : Int64)
  | TickSchedules (io : Io) (entropy : Nat → Option (ByteArr 16)) (now_ms : Int64) (limit : Nat)

inductive JobTxCall
  | EnqueueJob (io : Io) (entropy : Option (ByteArr 16)) (spec : JobSpec) (now_ms : Int64) (detail : Bytes)

def JobCall.io : JobCall → Io
  | .SubmitJob io _ _ _ => io
  | .ClaimJobForHandlers io _ _ _ => io
  | .HeartbeatJob io _ _ _ _ => io
  | .CompleteJob io _ _ _ => io
  | .FailJob io _ _ _ _ => io
  | .ReleaseJob io _ _ _ => io
  | .ReleaseExpiredJobs io _ => io
  | .RetryJob io _ _ => io
  | .CancelJob io _ _ => io
  | .TickSchedules io _ _ _ => io

def JobTxCall.io : JobTxCall → Io
  | .EnqueueJob io _ _ _ _ => io

section
variable [Hashes]

/-- The calls on jobs; what they return is not looked at. -/
def jobs : Domain JobError JobCall JobTxCall Unit where
  on_store
    | .SubmitJob io entropy spec now_ms => do let _ ← submit_job io entropy spec now_ms
    | .ClaimJobForHandlers io now_ms lease_duration_ms handlers => do
      let _ ← claim_job_for_handlers io now_ms lease_duration_ms handlers
    | .HeartbeatJob io id lease_generation now_ms lease_duration_ms => do
      let _ ← heartbeat_job io id lease_generation now_ms lease_duration_ms
    | .CompleteJob io id lease_generation now_ms => complete_job io id lease_generation now_ms
    | .FailJob io id lease_generation now_ms detail => do let _ ← fail_job io id lease_generation now_ms detail
    | .ReleaseJob io id lease_generation now_ms => do let _ ← release_job io id lease_generation now_ms
    | .ReleaseExpiredJobs io now_ms => do let _ ← release_expired_jobs io now_ms
    | .RetryJob io id now_ms => do let _ ← retry_job io id now_ms
    | .CancelJob io id now_ms => do let _ ← cancel_job io id now_ms
    | .TickSchedules io entropy now_ms limit => do let _ ← tick_schedules io entropy now_ms limit
  on_tx
    | .EnqueueJob io entropy spec now_ms detail => do let _ ← enqueue_job_tx io entropy spec now_ms detail

/-- The computation keeps a store sound and its jobs at their keys. -/
structure JobWise {α : Type} (x : EStateM JobError Store α) : Prop where
  steady : Steady x
  keeps : Keeps JobBook x

theorem job_wise_of_reads {α : Type} {x : EStateM JobError Store α} (reads : Effects.Reads x) : JobWise x :=
  ⟨steady_of_reads reads,keeps_of_reads reads⟩

theorem JobWise.bind {α β : Type} {x : EStateM JobError Store α} {f : α → EStateM JobError Store β} (first : JobWise x)
    (second : ∀ a, JobWise (f a)) : JobWise (x >>= f) :=
  ⟨first.steady.bind (fun a => (second a).steady),first.keeps.bind (fun a => (second a).keeps)⟩

/-- What is computed before is known afterwards. -/
theorem JobWise.lifted {α β : Type} {x : Except JobError α} {f : α → EStateM JobError Store β} (wise : ∀ a, x = .ok a → JobWise (f a)) :
    JobWise (lift x >>= f) := by
  cases x with
  | error e => exact job_wise_of_reads (reads_throw e)
  | ok a => exact wise a rfl

theorem put_job_keeps (io : Io) {job : DurableJob} (fits : job.Fits) : KeepsView JobBook (put_internal io (job_key job.id) job.spelling) := by
  refine (put_clean io _ _).keeps ?_
  intro x tx u done book
  have short := put_internal_short done
  rw [(put_internal_ok done).1]
  rw [← kept_spelling] at short ⊢
  exact @Holding.insert _ JOB_PREFIX jobEntry DurableJob.Recorded _ book job.kept ⟨fits.stored,short⟩

theorem write_job_keeps (io : Io) (job : DurableJob) (entry : JobHistoryEntry) : KeepsView JobBook (write_job_tx io job entry) := by
  refine .lifted (fun encoded made => ?_)
  obtain ⟨fits,rfl⟩ := encode_job_ok made
  refine (put_job_keeps io fits).rethrow.bind (fun _ => .lifted (fun spelled _ => ?_))
  exact (put_keeps io _ _ (fun s book => book.elsewhere (history_outside _ _))).rethrow

theorem within_job_wise {α : Type} {io : Io} (durable : io.Durable) {body : EStateM JobError Transaction α} (stages : Stages body)
    (keeps : KeepsView JobBook body) : JobWise (within .Store io body) :=
  ⟨within_steady durable stages,within_keeps (fun _ _ => job_book_same) stages.carries keeps⟩

theorem persist_history_wise {io : Io} (durable : io.Durable) (job : DurableJob) (at_ms : Int64) (kind : JobHistoryKind) (detail : Bytes) :
    JobWise (persist_job_with_history io job at_ms kind detail) := by
  refine (job_wise_of_reads reads_get).bind (fun store => .lifted (fun sequence _ => ?_))
  exact within_job_wise durable (write_job_stages durable.1 _ _) (write_job_keeps io _ _)

theorem persist_job_wise {io : Io} (durable : io.Durable) (job : DurableJob) : JobWise (persist_job io job) := by
  refine .lifted (fun encoded made => ?_)
  obtain ⟨fits,rfl⟩ := encode_job_ok made
  refine ⟨(put_alone_atomic durable _ _).steady.rethrow,Keeps.rethrow ?_⟩
  exact within_keeps (fun _ _ => job_book_same) (put_stages durable.1 _ _).carries (put_job_keeps io fits)

theorem submit_job_wise {io : Io} (durable : io.Durable) (entropy : Option (ByteArr 16)) (spec : JobSpec) (now_ms : Int64) :
    JobWise (submit_job io entropy spec now_ms) := by
  rw [submit_job_eq]
  refine .lifted (fun _ _ => (job_wise_of_reads (find_existing_reads _)).bind (fun existing => ?_))
  cases existing with
  | some id => exact job_wise_of_reads (reads_pure _)
  | none =>
    refine .lifted (fun job _ => JobWise.bind ?_ (fun _ => job_wise_of_reads (reads_pure _)))
    exact within_job_wise durable (write_job_stages durable.1 _ _) (write_job_keeps io _ _)

theorem bury_overdue_wise {io : Io} (durable : io.Durable) (now_ms : Int64) (jobs : List DurableJob) : JobWise (bury_overdue io now_ms jobs) := by
  induction jobs with
  | nil => exact job_wise_of_reads (reads_pure _)
  | cons job jobs ih => exact (persist_history_wise durable _ _ _ _).bind (fun _ => ih)

theorem take_job_wise {io : Io} (durable : io.Durable) (now_ms lease_until_ms : Int64) (job : DurableJob) :
    JobWise (take_job io now_ms lease_until_ms job) := by
  refine .lifted (fun attempts _ => ?_)
  split
  · exact (persist_history_wise durable _ _ _ _).bind (fun _ => job_wise_of_reads (reads_pure _))
  · exact (persist_history_wise durable _ _ _ _).bind (fun _ => job_wise_of_reads (reads_pure _))

theorem claim_job_wise {io : Io} (durable : io.Durable) (now_ms : Int64) (lease_duration_ms : UInt64) (handlers : List Bytes) :
    JobWise (claim_job_for_handlers io now_ms lease_duration_ms handlers) := by
  refine .lifted (fun lease _ => .lifted (fun lease_until_ms _ => (job_wise_of_reads reads_get).bind (fun store => ?_)))
  refine .lifted (fun survey _ => (bury_overdue_wise durable now_ms survey.expired).bind (fun _ => ?_))
  split
  · exact job_wise_of_reads (reads_pure _)
  · exact take_job_wise durable now_ms lease_until_ms _

/-- The calls that look a job up first. -/
theorem looked_up_wise {α : Type} {id : JobId} {missing : EStateM JobError Store α} {found : DurableJob → EStateM JobError Store α}
    (first : JobWise missing) (second : ∀ job, JobWise (found job)) : JobWise (do
      match ← lift ((← get).get_job id) with
      | none => missing
      | some job => found job) := by
  refine (job_wise_of_reads reads_get).bind (fun store => .lifted (fun looked _ => ?_))
  cases looked with
  | none => exact first
  | some job => exact second job

theorem release_each_wise {io : Io} (durable : io.Durable) (now_ms : Int64) (expired : List DurableJob) :
    JobWise (release_each io now_ms expired) := by
  induction expired with
  | nil => exact job_wise_of_reads (reads_pure _)
  | cons job expired ih =>
    rw [release_each]
    split
    · exact (persist_history_wise durable _ _ _ _).bind (fun _ => ih)
    · exact (persist_history_wise durable _ _ _ _).bind (fun _ => ih)

theorem fire_schedule_keeps (io : Io) (job : DurableJob) (now_ms : Int64) (schedule : DurableSchedule) :
    KeepsView JobBook (fire_schedule_tx io job now_ms schedule) := by
  have other : starts_with (schedule_key schedule.id) JOB_PREFIX = false := by
    rw [Bool.eq_false_iff,ne_eq,starts_with_iff]
    exact prefixes_apart (by decide) (List.prefix_append SCHEDULE_PREFIX _)
  refine (write_job_keeps io job _).bind (fun _ => .lifted (fun encoded _ => ?_))
  exact (put_keeps io _ _ (fun s book => book.elsewhere other)).rethrow

theorem tick_each_wise {io : Io} (durable : io.Durable) (entropy : Nat → Option (ByteArr 16)) (now_ms : Int64) (limit fired : Nat)
    (entries : List (Bytes × Bytes)) : JobWise (tick_each io entropy now_ms limit fired entries) := by
  induction entries generalizing fired with
  | nil => exact job_wise_of_reads (reads_pure _)
  | cons entry entries ih =>
    rw [tick_each]
    split
    · exact job_wise_of_reads (reads_pure _)
    · refine .lifted (fun schedule _ => ?_)
      split
      · exact ih fired
      · refine .lifted (fun job _ => .lifted (fun next _ => JobWise.bind ?_ (fun _ => ih _)))
        exact within_job_wise durable (fire_schedule_stages durable.1 _ _ _) (fire_schedule_keeps io _ _ _)

theorem job_call_wise {call : JobCall} (durable : call.io.Durable) : JobWise (jobs.on_store call) := by
  have silent : ∀ {α : Type} {x : EStateM JobError Store α}, JobWise x → JobWise (do let _ ← x) :=
    fun wise => wise.bind (fun _ => job_wise_of_reads (reads_pure _))
  have nothing : ∀ {α : Type} (a : α), JobWise (pure a : EStateM JobError Store α) := fun a => job_wise_of_reads (reads_pure a)
  cases call with
  | SubmitJob io entropy spec now_ms => exact silent (submit_job_wise durable entropy spec now_ms)
  | ClaimJobForHandlers io now_ms lease_duration_ms handlers => exact silent (claim_job_wise durable now_ms lease_duration_ms handlers)
  | HeartbeatJob io id lease_generation now_ms lease_duration_ms =>
    refine silent (looked_up_wise (nothing _) (fun job => ?_))
    split
    · exact nothing _
    · refine .lifted (fun duration _ => .lifted (fun lease_until_ms _ => ?_))
      exact (persist_job_wise durable _).bind (fun _ => nothing _)
  | CompleteJob io id lease_generation now_ms =>
    exact (job_wise_of_reads (leased_job_reads id lease_generation)).bind (fun job => persist_history_wise durable _ _ _ _)
  | FailJob io id lease_generation now_ms detail =>
    refine silent ((job_wise_of_reads (leased_job_reads id lease_generation)).bind (fun job => ?_))
    split
    · exact (persist_history_wise durable _ _ _ _).bind (fun _ => nothing _)
    · refine .lifted (fun delay _ => .lifted (fun available_at_ms _ => ?_))
      exact (persist_history_wise durable _ _ _ _).bind (fun _ => nothing _)
  | ReleaseJob io id lease_generation now_ms =>
    refine silent (looked_up_wise (nothing _) (fun job => ?_))
    split
    · exact nothing _
    · exact (persist_history_wise durable _ _ _ _).bind (fun _ => nothing _)
  | ReleaseExpiredJobs io now_ms =>
    refine silent ((job_wise_of_reads reads_get).bind (fun store => .lifted (fun expired _ => ?_)))
    exact (release_each_wise durable now_ms expired).bind (fun _ => nothing _)
  | RetryJob io id now_ms =>
    refine silent (looked_up_wise (nothing _) (fun job => ?_))
    split
    · exact nothing _
    · exact (persist_history_wise durable _ _ _ _).bind (fun _ => nothing _)
  | CancelJob io id now_ms =>
    refine silent (looked_up_wise (nothing _) (fun job => ?_))
    split
    · exact nothing _
    · exact (persist_history_wise durable _ _ _ _).bind (fun _ => nothing _)
  | TickSchedules io entropy now_ms limit =>
    refine silent ((job_wise_of_reads reads_get).bind (fun store => ?_))
    exact (tick_each_wise durable _ _ _ _ _).bind (fun _ => nothing _)

/-- The lookup of the key of a job in a transaction. -/
theorem enqueue_job_lookup (io : Io) (entropy : Option (ByteArr 16)) (spec : JobSpec) (now_ms : Int64) (detail : Bytes) :
    ∃ lookup : EStateM JobError Transaction (Option JobId), Effects.Reads lookup ∧ enqueue_job_tx io entropy spec now_ms detail = (do
      lift (validate_job_spec spec)
      match ← lookup with
      | some id => return id
      | none =>
        let job ← lift (build_job spec entropy)
        write_job_tx io job ⟨0,now_ms,.Submitted,detail⟩
        return job.id) := by
  unfold enqueue_job_tx
  cases spec.idempotency_key with
  | none => exact ⟨pure none,reads_pure _,rfl⟩
  | some key =>
    refine ⟨do lift (find_active_job key ((← get).scan_prefix_internal JOB_PREFIX)),?_,rfl⟩
    exact reads_get.bind (fun _ => reads_lift _)

theorem enqueue_job_stages {io : Io} (writes : io.WritesWhole) (entropy : Option (ByteArr 16)) (spec : JobSpec) (now_ms : Int64)
    (detail : Bytes) : Stages (enqueue_job_tx io entropy spec now_ms detail) := by
  obtain ⟨lookup,reads,same⟩ := enqueue_job_lookup io entropy spec now_ms detail
  rw [same]
  refine (stages_of_reads (reads_lift _)).bind (fun _ => (stages_of_reads reads).bind (fun existing => ?_))
  cases existing with
  | some id => exact stages_of_reads (reads_pure _)
  | none =>
    refine (stages_of_reads (reads_lift _)).bind (fun job => ?_)
    exact (write_job_stages writes _ _).bind (fun _ => stages_of_reads (reads_pure _))

theorem enqueue_job_keeps (io : Io) (entropy : Option (ByteArr 16)) (spec : JobSpec) (now_ms : Int64) (detail : Bytes) :
    KeepsView JobBook (enqueue_job_tx io entropy spec now_ms detail) := by
  obtain ⟨lookup,reads,same⟩ := enqueue_job_lookup io entropy spec now_ms detail
  rw [same]
  refine .lifted (fun _ _ => (keeps_view_of_reads reads).bind (fun existing => ?_))
  cases existing with
  | some id => exact keeps_view_of_reads (reads_pure _)
  | none => exact .lifted (fun job _ => (write_job_keeps io _ _).bind (fun _ => keeps_view_of_reads (reads_pure _)))

/-- Any use of jobs, in which others write elsewhere. -/
def jobTerms : Terms JobError JobCall JobTxCall Unit :=
  .plain (fun key => starts_with key JOB_PREFIX = true) (fun call => call.io.Durable) (fun call => call.io.Durable)

theorem jobs_preserved : Preserved jobs jobTerms (fun state view _ => JobBook state ∧ ∀ seen, view = some seen → JobBook seen) := by
  refine preserved_map (fun call durable => (job_call_wise durable).steady) ?_ (fun call durable => (job_call_wise durable).keeps) ?_
    (fun key own => job_outside_feed own) (fun s t same book => book.congr same)
  · rintro ⟨io,entropy,spec,now_ms,detail⟩ durable
    exact (enqueue_job_stages durable.1 entropy spec now_ms detail).bind (fun _ => stages_of_reads (reads_pure _))
  · rintro ⟨io,entropy,spec,now_ms,detail⟩ durable
    exact (enqueue_job_keeps io entropy spec now_ms detail).bind (fun _ => keeps_view_of_reads (reads_pure _))

/-- In every state that use of the jobs of a new store reaches, a claim with room takes the foremost job that
    is claimable, and finds nothing only if there is none, exactly if the foremost job that is due may still be tried, or no
    job is claimable. -/
theorem job_claim_selects_iff {io : Io} {path : Path} {options : StoreOptions} {store : Store} {left : Bytes}
    (opened : open_with_options io path options [] = .ok store left) {moves : List (Move JobCall JobTxCall)}
    (along : (Play.mk (.Idle store) []).Along jobs jobTerms moves) {reached : Store}
    (idle : (Play.steps jobs ⟨.Idle store,[]⟩ moves).session = .Idle reached) {claim_io : Io} {now_ms : Int64} {lease_duration_ms : UInt64}
    {handlers : List Bytes} (small : lease_duration_ms.toNat < 2 ^ 63) (fits : now_ms.toInt + lease_duration_ms.toNat < 2 ^ 63)
    (faultless : claim_io.Faultless) (continues : Continues reached)
    (roomy : Roomy reached ((Store.scan_prefix reached JOB_PREFIX).length + 1) (5 * ((Store.scan_prefix reached JOB_PREFIX).length + 1))) :
    (∃ outcome t lease_until_ms, claim_job_for_handlers claim_io now_ms lease_duration_ms handlers reached = .ok outcome t ∧
      lease_until_ms.toInt = now_ms.toInt + lease_duration_ms.toNat ∧ ClaimsRightly reached t now_ms lease_until_ms handlers outcome) ↔
    ForemostTries reached now_ms handlers := by
  have book := (play_invariant jobs_preserved ⟨holding_empty _ _ _,by simp⟩ opened along).holds.1
  rw [idle] at book
  exact claim_right_iff book faultless continues roomy small fits

end

/-- Histories whose keys are numbers that can be raised can be continued. -/
theorem continues_of_keys {store : Store} (keys : ∀ entry ∈ Store.scan_prefix store HISTORY_PREFIX,
    entry.1.length = HISTORY_PREFIX.length + 24 ∧ Endian.ofBe (entry.1.drop (HISTORY_PREFIX.length + 16)) + 1 < 2 ^ 64) :
    Continues store := by
  intro id
  have size : (VoodooStore.history_prefix id).length = HISTORY_PREFIX.length + 16 := by
    rw [VoodooStore.history_prefix,List.length_append,id.property]
  unfold Store.next_history_sequence
  cases last : (Store.scan_prefix store (VoodooStore.history_prefix id)).getLast? with
  | none => exact ⟨0,rfl⟩
  | some entry =>
    have member := List.mem_of_getLast? last
    rw [scan_prefix_eq] at member
    obtain ⟨own,found⟩ := mem_scan.mp member
    have behind : starts_with entry.1 HISTORY_PREFIX = true := by
      rw [starts_with_iff] at own ⊢
      exact (List.prefix_append _ _).trans own
    obtain ⟨long,room⟩ := keys entry (by rw [scan_prefix_eq]; exact mem_scan.mpr ⟨behind,found⟩)
    have decoded : decode_history_sequence id entry.1 = .ok (.ofNat (Endian.ofBe (entry.1.drop (HISTORY_PREFIX.length + 16)))) := by
      unfold decode_history_sequence
      rw [if_neg (by simp [own,size,long]),slice_ok (by rw [size,long]; omega) (Nat.le_refl _),← List.length_drop,List.take_length,size]
      rfl
    have raised : (UInt64.ofNat (Endian.ofBe (entry.1.drop (HISTORY_PREFIX.length + 16)))).checked_add 1 ≠ none := by
      have value : (UInt64.ofNat (Endian.ofBe (entry.1.drop (HISTORY_PREFIX.length + 16)))).toNat =
          Endian.ofBe (entry.1.drop (HISTORY_PREFIX.length + 16)) := UInt64.toNat_ofNat_of_lt' (show _ < 2 ^ 64 by omega)
      unfold UInt64.checked_add
      rw [if_pos (by rw [value]; exact room)]
      simp
    obtain ⟨next,counted⟩ := Option.ne_none_iff_exists'.mp raised
    refine ⟨next,?_⟩
    dsimp only
    rw [decoded]
    show ok_or JobError.HistoryExhausted _ = _
    rw [counted]
    rfl

theorem get_job_listed {store : Store} {job : DurableJob} (has : store.HasJob job) :
    ∃ entry ∈ Store.scan_prefix store JOB_PREFIX, decode_job entry.2 = .ok job := by
  unfold Store.HasJob Store.get_job at has
  cases there : store.get (job_key job.id) with
  | none =>
    rw [there] at has
    cases has
  | some value =>
    rw [there] at has
    obtain ⟨same,decoded,is⟩ := mapM_some has
    cases is
    refine ⟨(job_key job.id,value),?_,decoded⟩
    rw [scan_prefix_eq]
    exact mem_scan.mpr ⟨job_key_own _,there⟩

/-- An urgent job that is tried once only and is taken at once, and another one. -/
def urgentAndPlain : List (Move JobCall JobTxCall) :=
  [.Call (.SubmitJob calm (some (.filled 1)) { JobSpec.new [104] [1] with priority := 1, max_attempts := 1 } 0),
    .Call (.SubmitJob calm (some (.filled 2)) (.new [104] [2]) 0),
    .Call (.ClaimJobForHandlers calm 0 10 [[104]])]

theorem urgent_and_plain_along [Hashes] (store : Store) (n : Nat) :
    (Play.mk (.Idle store) []).Along jobs jobTerms (urgentAndPlain.take n) := by
  refine @along_of_fine _ _ _ _ _ _ _ (fun call => call.io.Durable) (fun call => call.io.Durable) _ (fun _ _ durable => durable)
    (fun _ _ durable => durable) ?_ ?_ _
  · intro io log member
    have := List.mem_of_mem_take member
    simp [urgentAndPlain] at this
  · intro move member
    have := List.mem_of_mem_take member
    simp only [urgentAndPlain,List.mem_cons,List.not_mem_nil,or_false] at this
    rcases this with rfl | rfl | rfl
    · exact calm_durable
    · exact calm_durable
    · exact calm_durable

set_option maxRecDepth 20000 in
/-- The urgent job is taken while it may be tried. -/
theorem urgent_is_claimed : ∃ store left reached, @open_with_options crates calm ["a.vstore"] .default [] = .ok store left ∧
    (@Play.steps crates _ _ _ _ (@jobs crates) ⟨.Idle store,[]⟩ (urgentAndPlain.take 2)).session = .Idle reached ∧
    (Store.scan_prefix reached JOB_PREFIX).length = 2 ∧
    ∃ outcome t lease_until_ms, @claim_job_for_handlers crates calm 0 10 [[104]] reached = .ok outcome t ∧
      lease_until_ms.toInt = 10 ∧ ClaimsRightly reached t 0 lease_until_ms [[104]] outcome := by
  obtain ⟨store,left,opened⟩ := @sound_opens crates calm [] ["a.vstore"] .default calm_faultless (.inl rfl)
  have evaluated : passes (@open_with_options crates calm ["a.vstore"] .default []) (fun store _ =>
        let reached := (@Play.steps crates _ _ _ _ (@jobs crates) ⟨.Idle store,[]⟩ (urgentAndPlain.take 2)).session.store
        (Store.scan_prefix reached HISTORY_PREFIX).all (fun entry => decide (entry.1.length = HISTORY_PREFIX.length + 24 ∧
          Endian.ofBe (entry.1.drop (HISTORY_PREFIX.length + 16)) + 1 < 2 ^ 64)) &&
          decide ((Store.scan_prefix reached JOB_PREFIX).length = 2) &&
          (Store.scan_prefix reached JOB_PREFIX).all (fun entry => (decode_job entry.2).toOption.any (fun job => job.attempts < job.max_attempts)) &&
          decide (reached.options.max_bytes = none ∧ reached.options.namespace_max_bytes = none ∧ reached.next_tx_id.toNat + 3 < 2 ^ 64 ∧
            reached.next_sequence.toNat + 15 < 2 ^ 64)) = true := by
    decide +kernel
  rw [opened,passes_ok] at evaluated
  simp only [Bool.and_eq_true,decide_eq_true_eq,List.all_eq_true] at evaluated
  obtain ⟨⟨⟨keys,two⟩,tries⟩,no_bytes,no_namespaces,tx_ids,sequences⟩ := evaluated
  obtain ⟨reached,idle⟩ : ∃ reached, (@Play.steps crates _ _ _ _ (@jobs crates) ⟨.Idle store,[]⟩ (urgentAndPlain.take 2)).session =
      .Idle reached := ⟨_,rfl⟩
  have here : (@Play.steps crates _ _ _ _ (@jobs crates) ⟨.Idle store,[]⟩ (urgentAndPlain.take 2)).session.store = reached :=
    congrArg Session.store idle
  rw [here] at keys two tries no_bytes no_namespaces tx_ids sequences
  refine ⟨store,left,reached,opened,idle,two,?_⟩
  refine (@job_claim_selects_iff crates _ _ _ _ _ opened _ (@urgent_and_plain_along crates store 2) _ idle calm 0 10 [[104]] (by decide)
    (by decide) calm_faultless (continues_of_keys keys) (by rw [two]; exact ⟨⟨no_bytes,no_namespaces⟩,tx_ids,sequences⟩)).mpr ?_
  intro best foremost
  obtain ⟨entry,member,decoded⟩ := get_job_listed foremost.has
  have tried := tries entry member
  rw [decoded] at tried
  exact .inl (of_decide_eq_true tried)

set_option maxRecDepth 20000 in
/-- The lease of the urgent job has run out: it is buried, and nothing is reported, while the other one waits. -/
theorem plain_is_passed_by : ∃ store left reached plain t, @open_with_options crates calm ["a.vstore"] .default [] = .ok store left ∧
    @Play.Along crates _ _ _ _ (@jobs crates) jobTerms ⟨.Idle store,[]⟩ (urgentAndPlain.take 3) ∧
    (@Play.steps crates _ _ _ _ (@jobs crates) ⟨.Idle store,[]⟩ (urgentAndPlain.take 3)).session = .Idle reached ∧
    reached.HasJob plain ∧ plain.claimable 10 [[104]] = true ∧ @claim_job_for_handlers crates calm 10 10 [[104]] reached = .ok none t ∧
    ¬ ∃ outcome t lease_until_ms, @claim_job_for_handlers crates calm 10 10 [[104]] reached = .ok outcome t ∧
      ClaimsRightly reached t 10 lease_until_ms [[104]] outcome := by
  obtain ⟨store,left,opened⟩ := @sound_opens crates calm [] ["a.vstore"] .default calm_faultless (.inl rfl)
  have evaluated : passes (@open_with_options crates calm ["a.vstore"] .default []) (fun store _ =>
        let reached := (@Play.steps crates _ _ _ _ (@jobs crates) ⟨.Idle store,[]⟩ (urgentAndPlain.take 3)).session.store
        (reached.get_job ⟨List.replicate 16 2,rfl⟩).toOption.any (fun found => found.any (fun job =>
          decide (job.id = ⟨List.replicate 16 2,rfl⟩) && job.claimable 10 [[104]])) &&
        passes (@claim_job_for_handlers crates calm 10 10 [[104]] reached) (fun claimed _ => claimed.isNone)) = true := by
    decide +kernel
  rw [opened,passes_ok] at evaluated
  obtain ⟨waits,nothing⟩ := Bool.and_eq_true_iff.mp evaluated
  obtain ⟨reached,idle⟩ : ∃ reached, (@Play.steps crates _ _ _ _ (@jobs crates) ⟨.Idle store,[]⟩ (urgentAndPlain.take 3)).session =
      .Idle reached := ⟨_,rfl⟩
  have here : (@Play.steps crates _ _ _ _ (@jobs crates) ⟨.Idle store,[]⟩ (urgentAndPlain.take 3)).session.store = reached :=
    congrArg Session.store idle
  rw [here] at waits nothing
  have found : ∃ plain, reached.HasJob plain ∧ plain.claimable 10 [[104]] = true := by
    obtain ⟨_,got,listed⟩ := any_ok_iff.mp waits
    obtain ⟨job,rfl,ready⟩ := (Option.any_eq_true _ _).mp listed
    rw [Bool.and_eq_true,decide_eq_true_eq] at ready
    refine ⟨job,?_,ready.2⟩
    unfold Store.HasJob
    rw [ready.1]
    exact got
  have reports : ∃ t, @claim_job_for_handlers crates calm 10 10 [[104]] reached = .ok none t := by
    obtain ⟨claimed,t,done,none_claimed⟩ := passes_iff.mp nothing
    rw [Option.isNone_iff_eq_none.mp none_claimed] at done
    exact ⟨t,done⟩
  obtain ⟨plain,has,claimable⟩ := found
  obtain ⟨t,done⟩ := reports
  refine ⟨store,left,reached,plain,t,opened,@urgent_and_plain_along crates store 3,idle,has,claimable,done,?_⟩
  rintro ⟨outcome,u,lease_until_ms,again,rightly⟩
  rw [done] at again
  cases again
  exact rightly.nothing rfl ⟨plain,has,claimable⟩

end VoodooStore
