import VoodooStore.Jobs

/-!
# Records of jobs and schedules

What is written as a job, as an entry of a history or as a schedule is read back.
A deadline at the smallest time is spelled like none, so it is lost
(`DurableJob.kept`).
-/
namespace VoodooStore
open Effects Reading
set_option linter.unusedSimpArgs false

/-! ## Reading at a position -/

/-- At this position of the record this is left. -/
def LeftAt (bytes : Bytes) (pos : Nat) (rest : Bytes) : Prop := bytes.drop pos = rest ∧ pos + rest.length = bytes.length

theorem left_at_start (bytes : Bytes) : LeftAt bytes 0 bytes := ⟨rfl,by simp⟩

theorem LeftAt.next {bytes part rest : Bytes} {pos : Nat} (left : LeftAt bytes pos (part ++ rest)) {stop : Nat}
    (stops : pos + part.length = stop) : LeftAt bytes stop rest := by
  subst stops
  obtain ⟨dropped,total⟩ := left
  refine ⟨?_,by rw [← total,List.length_append]; omega⟩
  rw [← List.drop_drop,dropped,List.drop_left]

section
variable {ε : Type} [Panics ε]

theorem LeftAt.slice {bytes part rest : Bytes} {pos : Nat} (left : LeftAt bytes pos (part ++ rest)) {stop : Nat}
    (stops : pos + part.length = stop) : (slice bytes pos stop : Except ε Bytes) = .ok part := by
  subst stops
  obtain ⟨dropped,total⟩ := left
  rw [slice_ok (by omega) (by rw [← total,List.length_append]; omega),dropped]
  simp

theorem LeftAt.index {bytes rest : Bytes} {byte : UInt8} {pos : Nat} (left : LeftAt bytes pos ([byte] ++ rest)) :
    (index bytes pos : Except ε UInt8) = .ok byte := by
  have there : bytes[pos]? = some byte := by
    rw [← List.head?_drop,left.1]
    rfl
  rw [VoodooStore.index,there]

theorem LeftAt.array {bytes rest : Bytes} {n : Nat} {part : ByteArr n} {pos : Nat} (left : LeftAt bytes pos (part.val ++ rest)) :
    (slice_array n bytes pos : Except ε (ByteArr n)) = .ok part := by
  have size := part.property
  obtain ⟨dropped,total⟩ := left
  rw [List.length_append] at total
  rw [slice_array,dif_pos (by omega)]
  congr 1
  apply Subtype.ext
  show (bytes.drop pos).take n = part.val
  rw [dropped,List.take_left' size]

end

/-- The bytes behind their length. -/
def counted (bytes : Bytes) : Bytes := (UInt32.ofNat bytes.length).to_le_bytes ++ bytes

@[simp] theorem counted_length (bytes : Bytes) : (counted bytes).length = 4 + bytes.length := by simp [counted]

theorem append_len_ok {bytes written : Bytes} (done : append_len bytes = .ok written) :
    bytes.length < 2 ^ 32 ∧ written = counted bytes := write_bytes_ok done

theorem LeftAt.read_len {bytes part rest : Bytes} {pos : Nat} (left : LeftAt bytes pos (counted part ++ rest))
    (fits : part.length < 2 ^ 32) (small : bytes.length < 2 ^ 64) :
    read_len bytes pos = .ok (part,pos + 4 + part.length) := by
  have total := left.2
  rw [List.length_append,counted_length] at total
  have split : LeftAt bytes pos ((UInt32.ofNat part.length).to_le_bytes ++ (part ++ rest)) := by
    rw [← List.append_assoc]
    exact left
  have behind : LeftAt bytes (pos + 4) (part ++ rest) := split.next (by simp)
  unfold VoodooStore.read_len
  rw [if_neg (by omega),split.slice (by simp),ok_bind]
  simp only [u32_from_to_le,u32_of_length fits]
  rw [usize_checked_add,if_pos (by omega)]
  dsimp only
  rw [if_neg (by omega),behind.slice rfl]
  rfl

/-! ## Jobs -/

theorem job_state_round_trip (state : DurableJobState) : DurableJobState.try_from state.as_u8 = .ok state := by
  cases state <;> rfl

def spelledKey : Option Bytes → Bytes
  | some key => [1] ++ counted key
  | none => [0]

def DurableJob.spelling (job : DurableJob) : Bytes :=
  [VERSION] ++ ([job.state.as_u8] ++ (job.id.val ++ (job.available_at_ms.to_le_bytes ++
    ((job.deadline_ms.getD Int64.minValue).to_le_bytes ++ (job.priority.to_le_bytes ++ (job.attempts.to_le_bytes ++
      (job.max_attempts.to_le_bytes ++ (job.retry_backoff_ms.to_le_bytes ++ (job.lease_until_ms.to_le_bytes ++
        (job.lease_generation.to_le_bytes ++ (counted job.handler ++ (counted job.payload ++ spelledKey job.idempotency_key))))))))))))

/-- Its fields can be spelled. -/
structure DurableJob.Fits (job : DurableJob) : Prop where
  handler : job.handler.length < 2 ^ 32
  payload : job.payload.length < 2 ^ 32
  key : ∀ key, job.idempotency_key = some key → key.length < 2 ^ 32

/-- What is left of a job in its record. -/
def DurableJob.kept (job : DurableJob) : DurableJob :=
  { job with deadline_ms := if job.deadline_ms = some Int64.minValue then none else job.deadline_ms }

/-- A job as it is read from a record. -/
structure DurableJob.Stored (job : DurableJob) : Prop where
  fits : job.Fits
  deadline : job.deadline_ms ≠ some Int64.minValue

theorem DurableJob.Stored.kept {job : DurableJob} (stored : job.Stored) : job.kept = job := by
  rw [DurableJob.kept,if_neg stored.deadline]

theorem DurableJob.Fits.stored {job : DurableJob} (fits : job.Fits) : job.kept.Stored := by
  refine ⟨⟨fits.handler,fits.payload,fits.key⟩,?_⟩
  show (if job.deadline_ms = some Int64.minValue then none else job.deadline_ms) ≠ _
  split
  · simp
  · assumption

theorem kept_spelling (job : DurableJob) : job.kept.spelling = job.spelling := by
  unfold DurableJob.spelling DurableJob.kept
  dsimp only
  congr 5
  split
  · rename_i lost
    rw [lost]
    rfl
  · rfl

theorem encode_job_ok {job : DurableJob} {encoded : Bytes} (done : encode_job job = .ok encoded) :
    job.Fits ∧ encoded = job.spelling := by
  obtain ⟨handler,first,done⟩ := bind_ok_iff.mp done
  obtain ⟨payload,second,done⟩ := bind_ok_iff.mp done
  obtain ⟨key,third,done⟩ := bind_ok_iff.mp done
  cases done
  obtain ⟨fits_handler,rfl⟩ := append_len_ok first
  obtain ⟨fits_payload,rfl⟩ := append_len_ok second
  unfold DurableJob.spelling
  cases given : job.idempotency_key with
  | none =>
    rw [given] at third
    cases third
    exact ⟨⟨fits_handler,fits_payload,by simp [given]⟩,rfl⟩
  | some key =>
    rw [given] at third
    obtain ⟨written,spelled,third⟩ := bind_ok_iff.mp third
    obtain ⟨fits_key,rfl⟩ := append_len_ok spelled
    cases third
    exact ⟨⟨fits_handler,fits_payload,by simpa [given] using fits_key⟩,rfl⟩

theorem encode_key_fits {key : Option Bytes} (fits : ∀ k, key = some k → k.length < 2 ^ 32) :
    encode_idempotency_key key = .ok (spelledKey key) := by
  cases key with
  | none => rfl
  | some key =>
    unfold encode_idempotency_key append_len
    dsimp only
    rw [write_bytes_fits (fits key rfl)]
    rfl

theorem encode_job_fits {job : DurableJob} (fits : job.Fits) : encode_job job = .ok job.spelling := by
  unfold encode_job append_len
  rw [write_bytes_fits fits.handler,ok_bind,write_bytes_fits fits.payload,ok_bind,encode_key_fits fits.key,ok_bind]
  rfl

theorem spelledKey_length {job : DurableJob} (fits : job.Fits) : 1 ≤ (spelledKey job.idempotency_key).length ∧
    (spelledKey job.idempotency_key).length ≤ 5 + 2 ^ 32 := by
  cases given : job.idempotency_key with
  | none => simp [spelledKey]
  | some key =>
    have := fits.key key given
    simp only [spelledKey,List.length_append,List.length_singleton,counted_length]
    omega

theorem job_spelling_length (job : DurableJob) : job.spelling.length =
    JOB_FIXED + (4 + job.handler.length) + (4 + job.payload.length) + (spelledKey job.idempotency_key).length := by
  simp [DurableJob.spelling,JOB_FIXED,job.id.property]
  omega

theorem decode_spelled_key {bytes : Bytes} {pos : Nat} {key : Option Bytes} (left : LeftAt bytes pos (spelledKey key ++ []))
    (fits : ∀ k, key = some k → k.length < 2 ^ 32) (small : bytes.length < 2 ^ 64) :
    decode_idempotency_key bytes pos = .ok (key,pos + (spelledKey key).length) := by
  cases key with
  | none =>
    unfold decode_idempotency_key
    rw [left.index]
    rfl
  | some key =>
    have split : LeftAt bytes pos ([1] ++ (counted key ++ [])) := by simpa [spelledKey] using left
    have behind : LeftAt bytes (pos + 1) (counted key ++ []) := split.next rfl
    unfold decode_idempotency_key
    rw [split.index,ok_bind,if_neg (by decide),if_pos rfl,behind.read_len (fits key rfl) small]
    simp [spelledKey]
    omega

/-- A job is read from its spelling. -/
theorem decode_job_spelling {job : DurableJob} (fits : job.Fits) : decode_job job.spelling = .ok job.kept := by
  have long := job_spelling_length job
  have tail := spelledKey_length fits
  have small : job.spelling.length < 2 ^ 64 := by
    have := fits.handler
    have := fits.payload
    unfold JOB_FIXED at long
    omega
  have at0 : LeftAt job.spelling 0 ([VERSION] ++ _) := left_at_start _
  have at1 : LeftAt job.spelling 1 ([job.state.as_u8] ++ _) := at0.next rfl
  have at2 : LeftAt job.spelling 2 (job.id.val ++ _) := at1.next rfl
  have at18 : LeftAt job.spelling 18 (job.available_at_ms.to_le_bytes ++ _) := at2.next (by rw [job.id.property])
  have at26 : LeftAt job.spelling 26 ((job.deadline_ms.getD Int64.minValue).to_le_bytes ++ _) := at18.next (by simp)
  have at34 : LeftAt job.spelling 34 (job.priority.to_le_bytes ++ _) := at26.next (by simp)
  have at38 : LeftAt job.spelling 38 (job.attempts.to_le_bytes ++ _) := at34.next (by simp)
  have at42 : LeftAt job.spelling 42 (job.max_attempts.to_le_bytes ++ _) := at38.next (by simp)
  have at46 : LeftAt job.spelling 46 (job.retry_backoff_ms.to_le_bytes ++ _) := at42.next (by simp)
  have at54 : LeftAt job.spelling 54 (job.lease_until_ms.to_le_bytes ++ _) := at46.next (by simp)
  have at62 : LeftAt job.spelling 62 (job.lease_generation.to_le_bytes ++ _) := at54.next (by simp)
  have at66 : LeftAt job.spelling JOB_FIXED (counted job.handler ++ _) := at62.next (by simp [JOB_FIXED])
  have payload_at : LeftAt job.spelling (JOB_FIXED + 4 + job.handler.length) (counted job.payload ++ _) :=
    at66.next (by rw [counted_length]; omega)
  have key_at : LeftAt job.spelling (JOB_FIXED + 4 + job.handler.length + 4 + job.payload.length)
      (spelledKey job.idempotency_key) := payload_at.next (by rw [counted_length]; omega)
  rw [← List.append_nil (spelledKey job.idempotency_key)] at key_at
  unfold decode_job
  rw [if_neg (by omega),at0.index,ok_bind,if_neg (by simp),at1.index,ok_bind,job_state_round_trip,ok_bind,at2.array,ok_bind,
    at18.slice (by simp),ok_bind,at26.slice (by simp),ok_bind,at34.slice (by simp),ok_bind,at38.slice (by simp),ok_bind,
    at42.slice (by simp),ok_bind,at46.slice (by simp),ok_bind,at54.slice (by simp),ok_bind,at62.slice (by simp),ok_bind,
    at66.read_len fits.handler small,ok_bind]
  dsimp only
  rw [payload_at.read_len fits.payload small,ok_bind]
  dsimp only
  rw [if_neg (by omega),decode_spelled_key key_at fits.key small,ok_bind]
  dsimp only
  rw [if_neg (by omega)]
  simp only [i64_from_to_le,i32_from_to_le,u32_from_to_le,u64_from_to_le]
  show Except.ok _ = Except.ok job.kept
  congr 1
  rw [DurableJob.kept]
  cases given : job.deadline_ms with
  | none => simp
  | some deadline =>
    by_cases lost : deadline = Int64.minValue
    · simp [lost]
    · simp [lost]

theorem decode_stored_job {job : DurableJob} (stored : job.Stored) : decode_job job.spelling = .ok job := by
  rw [decode_job_spelling stored.fits,stored.kept]

theorem job_spelling_injective {a b : DurableJob} (first : a.Stored) (second : b.Stored) (same : a.spelling = b.spelling) : a = b := by
  have read := decode_stored_job first
  rw [same,decode_stored_job second] at read
  exact (Except.ok.inj read).symm

/-! ## History -/

def JobHistoryEntry.spelling (entry : JobHistoryEntry) : Bytes :=
  [VERSION] ++ (entry.sequence.to_le_bytes ++ (entry.at_ms.to_le_bytes ++ ([entry.kind.as_u8] ++ counted entry.detail)))

theorem encode_history_ok {entry : JobHistoryEntry} {encoded : Bytes} (done : encode_history entry = .ok encoded) :
    entry.detail.length < 2 ^ 32 ∧ encoded = entry.spelling := by
  obtain ⟨detail,written,done⟩ := bind_ok_iff.mp done
  obtain ⟨fits,rfl⟩ := append_len_ok written
  cases done
  exact ⟨fits,rfl⟩

theorem encode_history_fits {entry : JobHistoryEntry} (fits : entry.detail.length < 2 ^ 32) :
    encode_history entry = .ok entry.spelling := by
  unfold encode_history append_len
  rw [write_bytes_fits fits]
  rfl

theorem job_kind_round_trip (kind : JobHistoryKind) : JobHistoryKind.try_from kind.as_u8 = .ok kind := by
  cases kind <;> rfl

theorem decode_history_spelling {entry : JobHistoryEntry} (fits : entry.detail.length < 2 ^ 32) :
    decode_history entry.spelling = .ok entry := by
  have long : entry.spelling.length = 22 + entry.detail.length := by
    simp [JobHistoryEntry.spelling]
    omega
  have at0 : LeftAt entry.spelling 0 ([VERSION] ++ _) := left_at_start _
  have at1 : LeftAt entry.spelling 1 (entry.sequence.to_le_bytes ++ _) := at0.next rfl
  have at9 : LeftAt entry.spelling 9 (entry.at_ms.to_le_bytes ++ _) := at1.next (by simp)
  have at17 : LeftAt entry.spelling 17 ([entry.kind.as_u8] ++ _) := at9.next (by simp)
  have at18 : LeftAt entry.spelling 18 (counted entry.detail) := at17.next rfl
  rw [← List.append_nil (counted entry.detail)] at at18
  unfold decode_history
  rw [if_neg (by omega),at0.index,ok_bind,if_neg (by simp),at1.slice (by simp),ok_bind,at9.slice (by simp),ok_bind,at17.index,
    ok_bind,job_kind_round_trip,ok_bind,at18.read_len fits (by omega),ok_bind]
  dsimp only
  rw [if_neg (by omega)]
  simp only [i64_from_to_le,u64_from_to_le]
  rfl

/-! ## Schedules -/

def JobSpec.Fits (spec : JobSpec) : Prop := spec.template.Fits

def DurableSchedule.spelling (schedule : DurableSchedule) : Bytes :=
  [VERSION] ++ (schedule.id.val ++ ([if schedule.enabled then 1 else 0] ++ (schedule.next_run_ms.to_le_bytes ++
    (encode_mode schedule.mode ++ counted schedule.job.template.spelling))))

/-- A schedule as it is read from a record. -/
structure DurableSchedule.Stored (schedule : DurableSchedule) : Prop where
  job : schedule.job.template.Stored
  short : schedule.job.template.spelling.length < 2 ^ 32
  mode : schedule.mode ≠ .Interval 0

/-- What is left of a schedule in its record. -/
def DurableSchedule.kept (schedule : DurableSchedule) : DurableSchedule :=
  { schedule with job.deadline_ms := if schedule.job.deadline_ms = some Int64.minValue then none else schedule.job.deadline_ms }

theorem kept_template (schedule : DurableSchedule) : schedule.kept.job.template = schedule.job.template.kept := rfl

theorem DurableSchedule.Stored.kept {schedule : DurableSchedule} (stored : schedule.Stored) : schedule.kept = schedule := by
  have lost : schedule.job.deadline_ms ≠ some Int64.minValue := stored.job.deadline
  rw [DurableSchedule.kept,if_neg lost]

theorem encode_schedule_ok {schedule : DurableSchedule} {encoded : Bytes} (done : encode_schedule schedule = .ok encoded)
    (mode : schedule.mode ≠ .Interval 0) : schedule.kept.Stored ∧ encoded = schedule.kept.spelling := by
  obtain ⟨template,first,done⟩ := bind_ok_iff.mp done
  obtain ⟨written,second,done⟩ := bind_ok_iff.mp done
  obtain ⟨fits,rfl⟩ := encode_job_ok first
  obtain ⟨short,rfl⟩ := append_len_ok second
  cases done
  have same : schedule.kept.job.template.spelling = schedule.job.template.spelling := by rw [kept_template,kept_spelling]
  refine ⟨⟨?_,by rw [same]; exact short,mode⟩,?_⟩
  · rw [kept_template]
    exact fits.stored
  · rw [DurableSchedule.spelling,same]
    rfl

theorem encode_stored_schedule {schedule : DurableSchedule} (stored : schedule.Stored) :
    encode_schedule schedule = .ok schedule.spelling := by
  unfold encode_schedule append_len
  rw [encode_job_fits stored.job.fits,ok_bind,write_bytes_fits stored.short,ok_bind]
  rfl

theorem decode_spelled_mode {bytes rest : Bytes} {mode : ScheduleMode} {pos : Nat} (left : LeftAt bytes pos (encode_mode mode ++ rest))
    (positive : mode ≠ .Interval 0) : ∃ tag, (index bytes pos : Except JobError UInt8) = .ok tag ∧
      decode_mode bytes tag (pos + 1) = .ok (mode,pos + (encode_mode mode).length) := by
  cases mode with
  | Once => exact ⟨0,left.index,rfl⟩
  | Interval every_ms =>
    have split : LeftAt bytes pos ([1] ++ (every_ms.to_le_bytes ++ rest)) := by
      rw [← List.append_assoc]
      exact left
    have behind : LeftAt bytes (pos + 1) (every_ms.to_le_bytes ++ rest) := split.next rfl
    have inside := behind.2
    rw [List.length_append,u64_to_le_length] at inside
    have nonzero : every_ms ≠ 0 := by
      rintro rfl
      exact positive rfl
    refine ⟨1,split.index,?_⟩
    unfold decode_mode
    rw [if_neg (by decide),if_pos rfl,if_neg (by omega),behind.slice (by simp),ok_bind,u64_from_to_le]
    dsimp only
    rw [if_neg nonzero]
    simp [encode_mode]

/-- A schedule is read from its spelling. -/
theorem decode_schedule_spelling {schedule : DurableSchedule} (stored : schedule.Stored) :
    decode_schedule schedule.spelling = .ok schedule := by
  have mode_long : (encode_mode schedule.mode).length = 1 ∨ (encode_mode schedule.mode).length = 9 := by
    cases schedule.mode with
    | Once => exact .inl rfl
    | Interval every_ms => exact .inr (by simp [encode_mode])
  have long : schedule.spelling.length = 26 + (encode_mode schedule.mode).length + 4 + schedule.job.template.spelling.length := by
    simp [DurableSchedule.spelling,schedule.id.property]
    omega
  have template := job_spelling_length schedule.job.template
  unfold JOB_FIXED at template
  have short := stored.short
  have at0 : LeftAt schedule.spelling 0 ([VERSION] ++ _) := left_at_start _
  have at1 : LeftAt schedule.spelling 1 (schedule.id.val ++ _) := at0.next rfl
  have at17 : LeftAt schedule.spelling 17 ([if schedule.enabled then 1 else 0] ++ _) := at1.next (by rw [schedule.id.property])
  have at18 : LeftAt schedule.spelling 18 (schedule.next_run_ms.to_le_bytes ++ _) := at17.next rfl
  have at26 : LeftAt schedule.spelling 26 (encode_mode schedule.mode ++ counted schedule.job.template.spelling) := at18.next (by simp)
  have job_at : LeftAt schedule.spelling (26 + (encode_mode schedule.mode).length) (counted schedule.job.template.spelling) :=
    at26.next rfl
  rw [← List.append_nil (counted schedule.job.template.spelling)] at job_at
  obtain ⟨tag,tagged,mode⟩ := decode_spelled_mode at26 stored.mode
  have next_run : (slice schedule.spelling 18 26 : Except JobError Bytes) = .ok schedule.next_run_ms.to_le_bytes := at18.slice (by simp)
  have job_read := job_at.read_len short (by omega)
  have set_flag : ¬ (1 : UInt8) = 0 := by decide
  cases on : schedule.enabled
  all_goals
    rw [on] at at17
    unfold decode_schedule
    rw [if_neg (by omega),at0.index,ok_bind,if_neg (by simp),at1.array,ok_bind,at17.index,ok_bind]
    simp only [Bool.false_eq_true,if_false,if_true,set_flag,eq_self,next_run,tagged,mode,job_read,
      decode_stored_job stored.job,i64_from_to_le,ok_bind]
    rw [if_neg (by omega),← on]
    rfl

end VoodooStore
