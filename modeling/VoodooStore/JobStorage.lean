import VoodooStore.Codecs
import VoodooStore.JobClaims
import VoodooStore.ScheduleTicks

/-!
# What is stored of jobs and schedules

A job that is submitted, and a schedule that is created, is read back as it was
given, and no other bytes are read as it. The one exception is a deadline at the
smallest time, which is spelled like no deadline (`jobs_survive_iff`).
-/
namespace VoodooStore
open Effects
set_option linter.unusedSimpArgs false

/-- The job that is made of a specification. -/
def JobSpec.submitted (spec : JobSpec) (id : JobId) : DurableJob := { spec.template with id }

theorem kept_eq_iff {job : DurableJob} : job.kept = job ↔ job.deadline_ms ≠ some Int64.minValue := by
  unfold DurableJob.kept
  constructor
  · intro same lost
    rw [if_pos lost] at same
    have none_left := congrArg DurableJob.deadline_ms same
    rw [lost] at none_left
    cases none_left
  · intro stays
    rw [if_neg stays]

theorem kept_schedule_iff {schedule : DurableSchedule} : schedule.kept = schedule ↔ schedule.job.deadline_ms ≠ some Int64.minValue := by
  unfold DurableSchedule.kept
  constructor
  · intro same lost
    rw [if_pos lost] at same
    have none_left := congrArg (fun s => s.job.deadline_ms) same
    rw [lost] at none_left
    cases none_left
  · intro stays
    rw [if_neg stays]

theorem decode_job_iff {job : DurableJob} (fits : job.Fits) :
    decode_job job.spelling = .ok job ↔ job.deadline_ms ≠ some Int64.minValue := by
  rw [decode_job_spelling fits,Except.ok.injEq,kept_eq_iff]

theorem decode_schedule_iff {schedule : DurableSchedule} {bytes : Bytes} (made : encode_schedule schedule = .ok bytes)
    (positive : schedule.mode ≠ .Interval 0) : decode_schedule bytes = .ok schedule ↔ schedule.job.deadline_ms ≠ some Int64.minValue := by
  obtain ⟨stored,rfl⟩ := encode_schedule_ok made positive
  rw [decode_schedule_spelling stored,Except.ok.injEq,kept_schedule_iff]

/-- A schedule can be written unless the job in it is too long. -/
theorem encode_schedule_iff {schedule : DurableSchedule} (fits : schedule.job.Fits) :
    (∃ bytes, encode_schedule schedule = .ok bytes) ↔ schedule.job.template.spelling.length < 2 ^ 32 := by
  unfold encode_schedule
  rw [encode_job_fits fits,ok_bind]
  constructor
  · rintro ⟨bytes,made⟩
    obtain ⟨written,done,-⟩ := bind_ok_iff.mp made
    exact (append_len_ok done).1
  · intro short
    rw [append_len,write_bytes_fits short]
    exact ⟨_,rfl⟩

/-- No job has a second spelling. -/
theorem encode_decoded_job {bytes : Bytes} {job : DurableJob} (read : decode_job bytes = .ok job) : encode_job job = .ok bytes := by
  obtain ⟨stored,rfl⟩ := decode_job_ok read
  exact encode_job_fits stored.fits

theorem get_job_of_spelled {store : Store} {job : DurableJob} (fits : job.Fits)
    (found : store.state[job_key job.id]? = some job.spelling) :
    store.get_job job.id = .ok (some job) ↔ job.deadline_ms ≠ some Int64.minValue := by
  unfold Store.get_job
  rw [show store.get (job_key job.id) = some job.spelling from found,Option.mapM_some,decode_job_spelling fits]
  show Except.ok (some job.kept) = _ ↔ _
  rw [Except.ok.injEq,Option.some.injEq,kept_eq_iff]

section
variable [Hashes]

/-- A submission finds an active job with its key, or it writes the job that it is given. -/
theorem submit_job_stores {io : Io} {entropy : Option (ByteArr 16)} {spec : JobSpec} {now_ms : Int64} {store t : Store} {id : JobId}
    (done : submit_job io entropy spec now_ms store = .ok id t) :
    (∃ key, spec.idempotency_key = some key ∧ store.find_active_job_by_idempotency key = .ok (some id) ∧ t = store) ∨
    (spec.submitted id).Fits ∧ t.state[job_key id]? = some (spec.submitted id).spelling := by
  rw [submit_job_eq] at done
  obtain ⟨⟨⟩,valid,done⟩ := lift_bind_ok.mp done
  obtain ⟨existing,reached,looked,done⟩ := bind_ok.mp done
  have same : reached = store ∧ ∀ found, existing = some found → ∃ key, spec.idempotency_key = some key ∧
      store.find_active_job_by_idempotency key = .ok (some found) := by
    unfold find_existing at looked
    cases given : spec.idempotency_key with
    | none =>
      rw [given] at looked
      cases looked
      exact ⟨rfl,by simp⟩
    | some key =>
      rw [given] at looked
      dsimp only at looked
      rw [get_bind] at looked
      obtain ⟨is,rfl⟩ := lift_eq_ok.mp looked
      exact ⟨rfl,fun found here => ⟨key,rfl,by rw [is,here]⟩⟩
  obtain ⟨rfl,active⟩ := same
  cases existing with
  | some found =>
    cases done
    obtain ⟨key,given,there⟩ := active id rfl
    exact .inl ⟨key,given,there,rfl⟩
  | none =>
    obtain ⟨job,built,done⟩ := lift_bind_ok.mp done
    obtain ⟨⟨⟩,_,wrote,done⟩ := bind_ok.mp done
    cases done
    obtain ⟨⟨⟩,-,built⟩ := bind_ok_iff.mp built
    obtain ⟨new,drawn,built⟩ := bind_ok_iff.mp built
    cases built
    obtain ⟨tx,u,begun,body,kept⟩ := within_ok wrote
    obtain ⟨fits,-,view⟩ := write_job_ok body
    refine .inr ⟨fits,?_⟩
    rw [kept _ (job_outside_feed (job_key_own _)),view,get_insert,if_neg (history_not_job (job_key_own _) _ _),get_insert,if_pos rfl]
    rfl

/-- A schedule that is created is written as it is given. -/
theorem create_schedule_stores {io : Io} {entropy : Option (ByteArr 16)} {job : JobSpec} {mode : ScheduleMode} {first_run_ms : Int64}
    {store t : Store} {id : ScheduleId} (done : create_schedule io entropy job mode first_run_ms store = .ok id t) :
    mode ≠ .Interval 0 ∧ ∃ bytes, encode_schedule ⟨id,job,mode,first_run_ms,true⟩ = .ok bytes ∧ t.state[schedule_key id]? = some bytes := by
  obtain ⟨⟨⟩,valid,done⟩ := lift_bind_ok.mp done
  split at done
  · cases done
  · rename_i positive
    obtain ⟨new,drawn,done⟩ := lift_bind_ok.mp done
    obtain ⟨encoded,made,done⟩ := lift_bind_ok.mp done
    obtain ⟨_,_,put,done⟩ := bind_ok.mp done
    cases done
    refine ⟨positive,encoded,made,?_⟩
    rw [put_alone_ok (rethrow_ok.mp put) _ (schedule_outside_feed (schedule_key_own _)),get_insert,if_pos rfl]

/-! ## With room the calls succeed -/

theorem submit_job_succeeds {io : Io} {spec : JobSpec} {now_ms : Int64} {store : Store} {id : JobId} {transactions records : Nat}
    (faultless : io.Faultless) (valid : validate_job_spec spec = .ok ()) (fits : spec.Fits)
    (short : 4 + ((job_key id).length + (spec.submitted id).spelling.length) < 2 ^ 32)
    (inactive : ∀ key, spec.idempotency_key = some key → store.find_active_job_by_idempotency key = .ok none)
    (roomy : Roomy store (transactions + 1) (records + 5)) :
    ∃ t, submit_job io (some id) spec now_ms store = .ok id t ∧ Roomy t transactions records := by
  have job_key_long : (job_key id).length = 30 := by simp [job_key,JOB_PREFIX,INTERNAL_KEY_PREFIX,ascii,id.property]
  have history_key_long : (history_key id 0).length = 41 := by
    simp [history_key, history_prefix,HISTORY_PREFIX,INTERNAL_KEY_PREFIX,ascii,id.property]
  have all : ∀ entry ∈ [(job_key id,(spec.submitted id).spelling),(history_key id 0,(JobHistoryEntry.mk 0 now_ms .Submitted []).spelling)],
      Storable entry := by
    intro entry member
    rcases List.mem_cons.mp member with rfl | member
    · refine ⟨?_,short⟩
      show (job_key id).length + 100 < 2 ^ 32
      omega
    · rcases List.mem_singleton.mp member with rfl
      constructor
      · show (history_key id 0).length + 100 < 2 ^ 32
        omega
      · show 4 + ((history_key id 0).length + (JobHistoryEntry.mk 0 now_ms .Submitted []).spelling.length) < 2 ^ 32
        simp [history_key_long,JobHistoryEntry.spelling]
  obtain ⟨t,done,left⟩ := @within_puts_succeeds _ _ JobError.Store io store _ faultless all (by simp) transactions records roomy
  refine ⟨t,?_,left⟩
  have looked : find_existing spec.idempotency_key store = .ok none store := by
    unfold find_existing
    cases given : spec.idempotency_key with
    | none => rfl
    | some key =>
      dsimp only
      rw [get_bind,inactive key given]
      rfl
  have built : build_job spec (some id) = .ok (spec.submitted id) := by
    unfold build_job
    rw [valid]
    rfl
  have spelled : (spec.submitted id).Fits := ⟨fits.handler,fits.payload,fits.key⟩
  rw [submit_job_eq,valid,lift_ok_bind,bind_of_ok looked]
  unfold submit_unless
  dsimp only
  rw [built,lift_ok_bind,write_job_tx_eq spelled (by simp)]
  exact bind_of_ok done

theorem create_schedule_succeeds {io : Io} {job : JobSpec} {mode : ScheduleMode} {first_run_ms : Int64} {store : Store} {id : ScheduleId}
    {bytes : Bytes} {transactions records : Nat} (faultless : io.Faultless) (valid : validate_job_spec job = .ok ())
    (positive : mode ≠ .Interval 0) (made : encode_schedule ⟨id,job,mode,first_run_ms,true⟩ = .ok bytes)
    (short : 4 + ((schedule_key id).length + bytes.length) < 2 ^ 32) (roomy : Roomy store (transactions + 1) (records + 3)) :
    ∃ t, create_schedule io (some id) job mode first_run_ms store = .ok id t ∧ Roomy t transactions records := by
  have long : (schedule_key id).length = 35 := by simp [schedule_key,SCHEDULE_PREFIX,INTERNAL_KEY_PREFIX,ascii,id.property]
  obtain ⟨t,done,left⟩ := @put_alone_succeeds _ io (schedule_key id) bytes store transactions records faultless
    ⟨show (schedule_key id).length + 100 < 2 ^ 32 by omega,short⟩ roomy
  refine ⟨t,?_,left⟩
  unfold create_schedule
  rw [valid,lift_ok_bind,if_neg positive]
  show (lift (.ok id) >>= _) _ = _
  rw [lift_ok_bind,made,lift_ok_bind,bind_of_ok (rethrow_ok.mpr done)]
  rfl

/-! ## Storage -/

/-- The records of jobs and schedules are read as they were written, and in no
    other way, exactly when the deadline is not the smallest time. A submission
    that finds an active job with its key returns that one and writes nothing. -/
theorem jobs_survive_iff :
    (∀ job : DurableJob, job.Fits →
      ((∃ bytes, encode_job job = .ok bytes ∧ decode_job bytes = .ok job) ↔ job.deadline_ms ≠ some Int64.minValue)) ∧
    (∀ bytes job, decode_job bytes = .ok job → encode_job job = .ok bytes) ∧
    (∀ schedule : DurableSchedule, schedule.job.Fits →
      ((∃ bytes, encode_schedule schedule = .ok bytes) ↔ schedule.job.template.spelling.length < 2 ^ 32)) ∧
    (∀ (schedule : DurableSchedule) bytes, schedule.mode ≠ .Interval 0 → encode_schedule schedule = .ok bytes →
      (decode_schedule bytes = .ok schedule ↔ schedule.job.deadline_ms ≠ some Int64.minValue)) ∧
    (∀ io entropy spec now_ms store id after, submit_job io entropy spec now_ms store = .ok id after →
      ((∃ key, spec.idempotency_key = some key ∧ store.find_active_job_by_idempotency key = .ok (some id) ∧ after = store) ∨
        (after.get_job id = .ok (some (spec.submitted id)) ↔ spec.deadline_ms ≠ some Int64.minValue))) ∧
    (∀ io entropy job mode first_run_ms store id after, create_schedule io entropy job mode first_run_ms store = .ok id after →
      (after.get_schedule id = .ok (some ⟨id,job,mode,first_run_ms,true⟩) ↔ job.deadline_ms ≠ some Int64.minValue)) ∧
    (∀ io (spec : JobSpec) now_ms store id, io.Faultless → Roomy store 1 5 → validate_job_spec spec = .ok () → spec.Fits →
      4 + ((job_key id).length + (spec.submitted id).spelling.length) < 2 ^ 32 →
      (∀ key, spec.idempotency_key = some key → store.find_active_job_by_idempotency key = .ok none) →
      ∃ after, submit_job io (some id) spec now_ms store = .ok id after) ∧
    (∀ io (job : JobSpec) mode first_run_ms store id bytes, io.Faultless → Roomy store 1 3 → validate_job_spec job = .ok () →
      mode ≠ .Interval 0 → encode_schedule ⟨id,job,mode,first_run_ms,true⟩ = .ok bytes →
      4 + ((schedule_key id).length + bytes.length) < 2 ^ 32 →
      ∃ after, create_schedule io (some id) job mode first_run_ms store = .ok id after) := by
  refine ⟨?_,fun bytes job => encode_decoded_job,fun schedule => encode_schedule_iff,fun schedule bytes positive made =>
    decode_schedule_iff made positive,?_,?_,?_,?_⟩
  · intro job fits
    rw [← decode_job_iff fits]
    constructor
    · rintro ⟨bytes,made,read⟩
      rw [encode_job_fits fits] at made
      cases made
      exact read
    · intro read
      exact ⟨_,encode_job_fits fits,read⟩
  · intro io entropy spec now_ms store id after done
    rcases submit_job_stores done with existing | ⟨fits,found⟩
    · exact .inl existing
    · exact .inr (@get_job_of_spelled after (spec.submitted id) fits found)
  · intro io entropy job mode first_run_ms store id after done
    obtain ⟨positive,bytes,made,found⟩ := create_schedule_stores done
    have read := decode_schedule_iff made positive
    rw [← read]
    unfold Store.get_schedule
    rw [show after.get (schedule_key id) = some bytes from found,Option.mapM_some]
    cases decoded : decode_schedule bytes with
    | error e => simp [Functor.map,Except.map]
    | ok schedule => simp [Functor.map,Except.map]
  · intro io spec now_ms store id faultless roomy valid fits short inactive
    obtain ⟨after,done,-⟩ := @submit_job_succeeds _ io spec now_ms store id 0 0 faultless valid fits short inactive roomy
    exact ⟨after,done⟩
  · intro io job mode first_run_ms store id bytes faultless roomy valid positive made short
    obtain ⟨after,done,-⟩ := @create_schedule_succeeds _ io job mode first_run_ms store id bytes 0 0 faultless valid positive made short roomy
    exact ⟨after,done⟩

end

/-- A job with this deadline. -/
def dated (deadline : Int64) : JobSpec := { JobSpec.new [104] [1] with deadline_ms := some deadline }

theorem dated_fits (deadline : Int64) : (dated deadline).Fits := by
  refine ⟨show [(104 : UInt8)].length < 2 ^ 32 by decide,show [(1 : UInt8)].length < 2 ^ 32 by decide,?_⟩
  intro key given
  cases given

theorem dated_short (deadline : Int64) (id : JobId) : 4 + ((job_key id).length + ((dated deadline).submitted id).spelling.length) < 2 ^ 32 := by
  rw [job_spelling_length]
  simp [JobSpec.submitted,JobSpec.template,dated,JobSpec.new,spelledKey,JOB_FIXED,job_key,JOB_PREFIX,INTERNAL_KEY_PREFIX,ascii,id.property]

theorem new_store_roomy : ∃ store left, @open_with_options crates calm ["a.vstore"] .default [] = .ok store left ∧ Roomy store 2 8 := by
  obtain ⟨store,left,opened⟩ := @sound_opens crates calm [] ["a.vstore"] .default calm_faultless (.inl rfl)
  exact ⟨store,left,opened,@new_store_has_room crates _ _ _ _ _ opened ⟨rfl,rfl⟩ _ _ (by decide) (by decide)⟩

/-- A job with a deadline is submitted and read. -/
theorem dated_job_is_read : ∃ store left after, @open_with_options crates calm ["a.vstore"] .default [] = .ok store left ∧
    @submit_job crates calm (some ⟨List.replicate 16 0,rfl⟩) (dated 5) 0 store = .ok ⟨List.replicate 16 0,rfl⟩ after ∧
    after.get_job ⟨List.replicate 16 0,rfl⟩ = .ok (some ((dated 5).submitted ⟨List.replicate 16 0,rfl⟩)) ∧
    ∃ bytes, encode_job ((dated 5).submitted ⟨List.replicate 16 0,rfl⟩) = .ok bytes ∧
      decode_job bytes = .ok ((dated 5).submitted ⟨List.replicate 16 0,rfl⟩) := by
  obtain ⟨job_iff,-,-,-,submit_iff,-,submits,-⟩ := @jobs_survive_iff crates
  obtain ⟨store,left,opened,unlimited,tx_ids,sequences⟩ := new_store_roomy
  obtain ⟨after,done⟩ := submits calm (dated 5) 0 store ⟨List.replicate 16 0,rfl⟩ calm_faultless
    ⟨unlimited,by omega,by omega⟩ rfl (dated_fits 5) (dated_short 5 _) (by intro key given; cases given)
  refine ⟨store,left,after,opened,done,?_,(job_iff _ ?_).mpr (by decide)⟩
  · rcases submit_iff _ _ _ _ _ _ _ done with ⟨key,given,-⟩ | read
    · cases given
    · exact read.mpr (by decide)
  · exact ⟨(dated_fits 5).handler,(dated_fits 5).payload,(dated_fits 5).key⟩

/-- A deadline at the smallest time is lost. -/
theorem smallest_deadline_is_lost : ∃ store left after, @open_with_options crates calm ["a.vstore"] .default [] = .ok store left ∧
    validate_job_spec (dated Int64.minValue) = .ok () ∧ (dated Int64.minValue).Fits ∧
    @submit_job crates calm (some ⟨List.replicate 16 0,rfl⟩) (dated Int64.minValue) 0 store = .ok ⟨List.replicate 16 0,rfl⟩ after ∧
    after.get_job ⟨List.replicate 16 0,rfl⟩ = .ok (some ((JobSpec.new [104] [1]).submitted ⟨List.replicate 16 0,rfl⟩)) ∧
    after.get_job ⟨List.replicate 16 0,rfl⟩ ≠ .ok (some ((dated Int64.minValue).submitted ⟨List.replicate 16 0,rfl⟩)) := by
  obtain ⟨store,left,opened,unlimited,tx_ids,sequences⟩ := new_store_roomy
  obtain ⟨after,done,-⟩ := @submit_job_succeeds crates calm (dated Int64.minValue) 0 store ⟨List.replicate 16 0,rfl⟩ 0 0 calm_faultless
    rfl (dated_fits _) (dated_short _ _) (by intro key given; cases given) ⟨unlimited,by omega,by omega⟩
  refine ⟨store,left,after,opened,rfl,dated_fits _,done,?_⟩
  rcases @submit_job_stores crates _ _ _ _ _ _ _ done with ⟨key,given,-⟩ | ⟨fits,found⟩
  · cases given
  · have read : after.get_job ⟨List.replicate 16 0,rfl⟩ =
        .ok (some ((JobSpec.new [104] [1]).submitted ⟨List.replicate 16 0,rfl⟩)) := by
      unfold Store.get_job
      rw [show after.get (job_key ⟨List.replicate 16 0,rfl⟩) = some _ from found,Option.mapM_some,decode_job_spelling fits]
      rfl
    refine ⟨read,?_⟩
    rw [read]
    decide

end VoodooStore
