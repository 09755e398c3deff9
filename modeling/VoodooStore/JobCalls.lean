import VoodooStore.Footprint
import VoodooStore.JobRecords

/-!
# What the calls on jobs change

Each change of a job is a transaction of its own, which writes the job and an
entry of its history and nothing else.
-/
namespace VoodooStore
open Effects
set_option linter.unusedSimpArgs false

/-- The keys of jobs and of their histories. -/
def jobSpace (key : Bytes) : Prop := JOB_PREFIX <+: key ∨ HISTORY_PREFIX <+: key

theorem job_key_own (id : JobId) : starts_with (job_key id) JOB_PREFIX = true := (starts_with_iff _ _).mpr (List.prefix_append _ _)

theorem job_key_space (id : JobId) : jobSpace (job_key id) := .inl (List.prefix_append _ _)

theorem history_key_space (id : JobId) (sequence : UInt64) : jobSpace (history_key id sequence) :=
  .inr ((List.prefix_append HISTORY_PREFIX _).trans (List.prefix_append _ _))

theorem job_key_injective {a b : JobId} (same : job_key a = job_key b) : a = b := Subtype.ext (List.append_cancel_left same)

/-- A key of the history is not one of a job. -/
theorem history_not_job {key : Bytes} (job : starts_with key JOB_PREFIX = true) (id : JobId) (sequence : UInt64) :
    history_key id sequence ≠ key := by
  rintro rfl
  refine prefixes_apart ?_ ((List.prefix_append HISTORY_PREFIX _).trans (List.prefix_append _ _)) ((starts_with_iff _ _).mp job)
  decide

theorem job_outside_feed {key : Bytes} (own : starts_with key JOB_PREFIX = true) : starts_with key CDC_PREFIX = false :=
  domain_key_outside ⟨JOB_PREFIX,by decide,(starts_with_iff _ _).mp own⟩

/-- The lookup of the key of a job. -/
def find_existing : Option Bytes → EStateM JobError Store (Option JobId)
  | some key => do lift ((← get).find_active_job_by_idempotency key)
  | none => pure none

theorem find_existing_reads (key : Option Bytes) : Reads (find_existing key) := by
  cases key with
  | none => exact reads_pure _
  | some key => exact reads_get.bind (fun store => reads_lift _)

section
variable [Hashes]

theorem write_job_confined (io : Io) (job : DurableJob) (entry : JobHistoryEntry) :
    ConfinedView jobSpace (write_job_tx io job entry) := by
  refine .lifted (fun encoded _ => ?_)
  refine (put_confined io (job_key_space job.id) encoded).rethrow.bind (fun _ => .lifted (fun spelled _ => ?_))
  exact (put_confined io (history_key_space job.id entry.sequence) spelled).rethrow

theorem write_job_stages {io : Io} (writes : io.WritesWhole) (job : DurableJob) (entry : JobHistoryEntry) :
    Stages (write_job_tx io job entry) := by
  refine (stages_of_reads (reads_lift _)).bind (fun encoded => ?_)
  refine (put_stages writes _ _).rethrow.bind (fun _ => ?_)
  exact (stages_of_reads (reads_lift _)).bind (fun spelled => (put_stages writes _ _).rethrow)

/-- What a change of a job leaves: the job and the entry at their keys. -/
theorem write_job_ok {io : Io} {job : DurableJob} {entry : JobHistoryEntry} {tx u : Transaction} {x : Unit}
    (done : write_job_tx io job entry tx = .ok x u) : job.Fits ∧ entry.detail.length < 2 ^ 32 ∧
      u.view = (tx.view.insert (job_key job.id) job.spelling).insert (history_key job.id entry.sequence) entry.spelling := by
  obtain ⟨encoded,made,done⟩ := lift_bind_ok.mp done
  obtain ⟨_,middle,put_job,done⟩ := bind_ok.mp done
  obtain ⟨spelled,written,put_entry⟩ := lift_bind_ok.mp done
  obtain ⟨fits,rfl⟩ := encode_job_ok made
  obtain ⟨short,rfl⟩ := encode_history_ok written
  refine ⟨fits,short,?_⟩
  rw [(put_internal_ok (rethrow_ok.mp put_entry)).1,(put_internal_ok (rethrow_ok.mp put_job)).1]

theorem persist_job_atomic {io : Io} (durable : io.Durable) (job : DurableJob) (at_ms : Int64) (kind : JobHistoryKind) (detail : Bytes) :
    Atomic (persist_job_with_history io job at_ms kind detail) := by
  refine .checked reads_get (fun store => .checked (reads_lift _) (fun sequence => ?_))
  exact within_atomic durable (write_job_stages durable.1 _ _)

theorem persist_job_confined (io : Io) (job : DurableJob) (at_ms : Int64) (kind : JobHistoryKind) (detail : Bytes) :
    Confined jobSpace (persist_job_with_history io job at_ms kind detail) := by
  refine (confined_of_reads reads_get).bind (fun store => (confined_of_reads (reads_lift _)).bind (fun sequence => ?_))
  exact within_confined (write_job_confined io _ _)

/-- A job that is not there yet is submitted. -/
def submit_unless (io : Io) (entropy : Option (ByteArr 16)) (spec : JobSpec) (now_ms : Int64) : Option JobId → EStateM JobError Store JobId
  | some id => pure id
  | none => do
    let job ← lift (build_job spec entropy)
    within .Store io (write_job_tx io job ⟨0,now_ms,.Submitted,[]⟩)
    return job.id

theorem submit_job_eq (io : Io) (entropy : Option (ByteArr 16)) (spec : JobSpec) (now_ms : Int64) :
    submit_job io entropy spec now_ms = (do
      lift (validate_job_spec spec)
      let existing ← find_existing spec.idempotency_key
      submit_unless io entropy spec now_ms existing) := by
  unfold submit_job find_existing submit_unless
  cases spec.idempotency_key <;> rfl

theorem submit_job_atomic {io : Io} (durable : io.Durable) (entropy : Option (ByteArr 16)) (spec : JobSpec) (now_ms : Int64) :
    Atomic (submit_job io entropy spec now_ms) := by
  rw [submit_job_eq]
  refine .checked (reads_lift _) (fun _ => .checked (find_existing_reads _) (fun existing => ?_))
  cases existing with
  | some id => exact atomic_of_reads (reads_pure _)
  | none =>
    refine .checked (reads_lift _) (fun job => ?_)
    exact (within_atomic durable (write_job_stages durable.1 _ _)).returning (fun _ => job.id)

theorem submit_job_confined (io : Io) (entropy : Option (ByteArr 16)) (spec : JobSpec) (now_ms : Int64) :
    Confined jobSpace (submit_job io entropy spec now_ms) := by
  rw [submit_job_eq]
  refine (confined_of_reads (reads_lift _)).bind (fun _ => (confined_of_reads (find_existing_reads _)).bind (fun existing => ?_))
  cases existing with
  | some id => exact confined_of_reads (reads_pure _)
  | none =>
    refine (confined_of_reads (reads_lift _)).bind (fun job => ?_)
    exact (within_confined (write_job_confined io _ _)).bind (fun _ => confined_of_reads (reads_pure _))

end

end VoodooStore
