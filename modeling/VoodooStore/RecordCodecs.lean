import VoodooStore.CollectionRecords
import VoodooStore.CronVisits
import VoodooStore.Groups
import VoodooStore.ObjectRecords
import VoodooStore.Rpc
import VoodooStore.Triggers
import VoodooStore.WorkflowRecords

/-!
# The codecs of all records

Every module writes and reads its own records. For each of them, what the module
writes is read as it was, and nothing but that is read as it (`codecs_are_faithful`).
-/
namespace VoodooStore
open Effects Reading Workflow ConsumerGroup Messaging Collections
set_option linter.unusedSimpArgs false

/-- What is written is read, and nothing else is read as it. -/
structure Faithful {ε α : Type} (encode : α → Except ε Bytes) (decode : Bytes → Except ε α) (written : α → Prop) : Prop where
  reads : ∀ x bytes, written x → encode x = .ok bytes → decode bytes = .ok x
  canonical : ∀ bytes x, decode bytes = .ok x → written x ∧ encode x = .ok bytes

/-- The first byte of a record is its version. -/
theorem version_ok {ε α : Type} [Corrupt ε] {read left : Bytes} {stop : Position} {version : UInt8} {e : ε} {f : Fields ε α} {a : α}
    (done : (do
      let found ← Fields.u8
      if found ≠ version then throw e else f : Fields ε α) (.at read left) = .ok a stop) :
    ∃ rest, left = [version] ++ rest ∧ f (.at (read ++ [version]) rest) = .ok a stop := by
  obtain ⟨found,_,first,done⟩ := bind_ok.mp done
  obtain ⟨rest,rfl,rfl⟩ := u8_ok first
  split at done
  · cases done
  · rename_i same
    rw [not_not.mp same] at done ⊢
    exact ⟨rest,rfl,done⟩

theorem write_counted {ε : Type} {too_large : ε} {value : Bytes} (short : value.length < 2 ^ 32) :
    write_bytes too_large value = .ok (counted value) := write_bytes_fits short

section
variable {ε : Type} [Corrupt ε]

theorem i64_accepted : Accepts (Fields.i64 : Fields ε Int64) (fun x bytes => bytes = x.to_le_bytes) := by
  intro read left x stop done
  obtain ⟨rest,rfl,rfl⟩ := i64_ok done
  exact ⟨_,rest,rfl,rfl,rfl⟩

theorem u64_accepted : Accepts (Fields.u64 : Fields ε UInt64) (fun x bytes => bytes = x.to_le_bytes) := by
  intro read left x stop done
  obtain ⟨rest,rfl,rfl⟩ := u64_ok done
  exact ⟨_,rest,rfl,rfl,rfl⟩

theorem array_16_accepted : Accepts (Fields.array_16 : Fields ε (ByteArr 16)) (fun id bytes => bytes = id.val) := by
  intro read left id stop done
  obtain ⟨rest,rfl,rfl⟩ := array_16_ok done
  exact ⟨_,rest,rfl,rfl,rfl⟩

theorem bytes_accepted : Accepts (Fields.bytes : Fields ε Bytes) (fun x bytes => x.length < 2 ^ 32 ∧ bytes = counted x) := by
  intro read left x stop done
  obtain ⟨short,rest,rfl,rfl⟩ := bytes_ok done
  exact ⟨_,rest,⟨short,rfl⟩,rfl,rfl⟩

/-- A value that may be absent and is spelled in one way. -/
theorem option_written {α : Type} {value : Fields ε α} {written : α → Bytes} (accepted : Accepts value (fun a bytes => bytes = written a))
    {read left : Bytes} {stop : Position} {x : Option α} (done : Fields.option value (.at read left) = .ok x stop) :
    ∃ rest, left = write_option (x.map written) ++ rest ∧ stop = .at (read ++ write_option (x.map written)) rest := by
  rcases option_ok accepted done with ⟨rfl,rest,rfl,rfl⟩ | ⟨a,part,rest,rfl,rfl,rfl,rfl⟩
  · exact ⟨rest,rfl,rfl⟩
  · exact ⟨rest,rfl,rfl⟩

end

/-! ## Workflows -/

theorem workflow_status_read {byte : UInt8} {status : WorkflowStatus} (done : status_try_from byte = .ok status) :
    byte = status_as_u8 status := by
  unfold status_try_from at done
  split_ifs at done <;> cases done <;> assumption

theorem workflow_kind_read {byte : UInt8} {kind : WorkflowHistoryKind} (done : kind_try_from byte = .ok kind) :
    byte = kind_as_u8 kind := by
  unfold kind_try_from at done
  split_ifs at done <;> cases done <;> assumption

theorem wait_accepted : Accepts read_wait (fun wait bytes => encode_wait wait = .ok bytes) := by
  intro read left wait stop done
  obtain ⟨tag,_,first,done⟩ := bind_ok.mp done
  obtain ⟨rest,rfl,rfl⟩ := u8_ok first
  by_cases nothing : tag = 0
  · subst nothing
    cases done
    exact ⟨[0],rest,rfl,rfl,rfl⟩
  · rw [if_neg nothing] at done
    by_cases signal : tag = 1
    · subst signal
      obtain ⟨name,_,second,done⟩ := bind_ok.mp done
      obtain ⟨short,rest,rfl,rfl⟩ := bytes_ok second
      cases done
      refine ⟨[1] ++ counted name,rest,?_,by simp,by simp⟩
      simp [encode_wait,push_bytes,write_counted short]
    · rw [if_neg signal] at done
      by_cases timer : tag = 2
      · subst timer
        obtain ⟨resume_at_ms,_,second,done⟩ := bind_ok.mp done
        obtain ⟨rest,rfl,rfl⟩ := i64_ok second
        cases done
        exact ⟨[2] ++ resume_at_ms.to_le_bytes,rest,rfl,by simp,by simp⟩
      · rw [if_neg timer] at done
        cases done

theorem instance_accepted : Accepts read_instance (fun self bytes => encode_instance self = .ok bytes) := by
  intro read left self stop done
  obtain ⟨rest,rfl,behind⟩ := version_ok done
  obtain ⟨id,_,at_id,done⟩ := bind_ok.mp behind
  obtain ⟨rest,rfl,rfl⟩ := array_16_ok at_id
  obtain ⟨byte,_,at_status,done⟩ := bind_ok.mp done
  obtain ⟨rest,rfl,rfl⟩ := u8_ok at_status
  obtain ⟨status,stated,done⟩ := lift_bind_ok.mp done
  obtain ⟨created_at_ms,_,at_created,done⟩ := bind_ok.mp done
  obtain ⟨rest,rfl,rfl⟩ := i64_ok at_created
  obtain ⟨updated_at_ms,_,at_updated,done⟩ := bind_ok.mp done
  obtain ⟨rest,rfl,rfl⟩ := i64_ok at_updated
  obtain ⟨parent_id,_,at_parent,done⟩ := bind_ok.mp done
  obtain ⟨rest,rfl,rfl⟩ := option_written array_16_accepted at_parent
  obtain ⟨workflow_type,_,at_type,done⟩ := bind_ok.mp done
  obtain ⟨short_type,rest,rfl,rfl⟩ := bytes_ok at_type
  obtain ⟨current_step,_,at_step,done⟩ := bind_ok.mp done
  obtain ⟨short_step,rest,rfl,rfl⟩ := bytes_ok at_step
  obtain ⟨state,_,at_state,done⟩ := bind_ok.mp done
  obtain ⟨short_state,rest,rfl,rfl⟩ := bytes_ok at_state
  obtain ⟨wait,_,at_wait,done⟩ := bind_ok.mp done
  obtain ⟨waiting,rest,spelled,rfl,rfl⟩ := wait_accepted _ _ _ _ at_wait
  cases done
  rw [workflow_status_read stated]
  apply Exists.intro
  refine ⟨rest,?_,?_,?_⟩
  · unfold encode_instance push_bytes
    dsimp only
    rw [write_counted short_type,ok_bind,write_counted short_step,ok_bind,write_counted short_state,ok_bind,spelled,ok_bind]
    rfl
  · simp only [List.append_assoc]
  · simp only [List.append_assoc]

theorem workflow_history_accepted : Accepts read_history (fun entry bytes => Workflow.encode_history entry = .ok bytes) := by
  intro read left entry stop done
  obtain ⟨rest,rfl,behind⟩ := version_ok done
  obtain ⟨sequence,_,at_sequence,done⟩ := bind_ok.mp behind
  obtain ⟨rest,rfl,rfl⟩ := u64_ok at_sequence
  obtain ⟨at_ms,_,at_time,done⟩ := bind_ok.mp done
  obtain ⟨rest,rfl,rfl⟩ := i64_ok at_time
  obtain ⟨byte,_,at_kind,done⟩ := bind_ok.mp done
  obtain ⟨rest,rfl,rfl⟩ := u8_ok at_kind
  obtain ⟨kind,stated,done⟩ := lift_bind_ok.mp done
  obtain ⟨detail,_,at_detail,done⟩ := bind_ok.mp done
  obtain ⟨short,rest,rfl,rfl⟩ := bytes_ok at_detail
  cases done
  rw [workflow_kind_read stated]
  apply Exists.intro
  refine ⟨rest,?_,?_,?_⟩
  · unfold Workflow.encode_history push_bytes
    dsimp only
    rw [write_counted short,ok_bind]
    rfl
  · simp only [List.append_assoc]
  · simp only [List.append_assoc]

theorem instances_faithful : Faithful encode_instance decode_instance (fun _ => True) :=
  ⟨fun _ _ _ made => decode_encoded_instance made,fun _ _ read => ⟨trivial,instance_accepted.readAll read⟩⟩

theorem workflow_histories_faithful : Faithful Workflow.encode_history Workflow.decode_history (fun _ => True) := by
  refine ⟨?_,fun _ _ read => ⟨trivial,workflow_history_accepted.readAll read⟩⟩
  intro entry bytes _ made
  obtain ⟨short,rfl⟩ := workflow_history_encoded made
  exact decode_spelled_history short

/-! ## Jobs, triggers and cron schedules -/

theorem job_kind_read {byte : UInt8} {kind : JobHistoryKind} (done : JobHistoryKind.try_from byte = .ok kind) : byte = kind.as_u8 := by
  unfold JobHistoryKind.try_from at done
  split_ifs at done <;> cases done <;> assumption

theorem decode_job_history_ok {bytes : Bytes} {entry : JobHistoryEntry} (done : VoodooStore.decode_history bytes = .ok entry) :
    VoodooStore.encode_history entry = .ok bytes := by
  unfold VoodooStore.decode_history at done
  split at done
  · cases done
  · obtain ⟨version,at0,done⟩ := bind_ok_iff.mp done
    split at done
    · cases done
    · rename_i versioned
      obtain ⟨sequence,at1,done⟩ := bind_ok_iff.mp done
      obtain ⟨at_ms,at9,done⟩ := bind_ok_iff.mp done
      obtain ⟨byte,at17,done⟩ := bind_ok_iff.mp done
      obtain ⟨kind,stated,done⟩ := bind_ok_iff.mp done
      obtain ⟨⟨detail,stop⟩,at18,done⟩ := bind_ok_iff.mp done
      dsimp only at done
      split at done
      · cases done
      · rename_i whole
        cases done
        obtain ⟨sequence_split,sequence_size⟩ := slice_splits at1
        obtain ⟨time_split,time_size⟩ := slice_splits at9
        obtain ⟨short,after_detail⟩ := read_len_ok at18
        have finished : bytes.drop stop = [] := by
          rw [not_not.mp whole,List.drop_length]
        rw [VoodooStore.encode_history_fits short]
        congr 1
        calc JobHistoryEntry.spelling _ = bytes.drop 0 := by
              rw [index_splits at0,sequence_split,time_split,index_splits at17,after_detail,finished,List.append_nil]
              unfold JobHistoryEntry.spelling
              dsimp only
              rw [u64_to_from_le (by omega),i64_to_from_le (by omega),not_not.mp versioned,job_kind_read stated]
              rfl
          _ = bytes := rfl

theorem job_histories_faithful : Faithful VoodooStore.encode_history VoodooStore.decode_history (fun _ => True) := by
  refine ⟨?_,fun _ _ read => ⟨trivial,decode_job_history_ok read⟩⟩
  intro entry bytes _ made
  obtain ⟨short,rfl⟩ := VoodooStore.encode_history_ok made
  exact decode_history_spelling short

theorem key_written {ε : Type} [Corrupt ε] {read left : Bytes} {stop : Position} {key : Option Bytes} {too_large : ε}
    (done : Fields.option (Fields.bytes : Fields ε Bytes) (.at read left) = .ok key stop) :
    ∃ written rest, key.mapM (write_bytes too_large) = .ok written ∧ left = write_option written ++ rest ∧
      stop = .at (read ++ write_option written) rest := by
  rcases option_ok bytes_accepted done with ⟨rfl,rest,rfl,rfl⟩ | ⟨value,_,rest,rfl,⟨short,rfl⟩,rfl,rfl⟩
  · exact ⟨none,rest,rfl,rfl,rfl⟩
  · refine ⟨some (counted value),rest,?_,rfl,rfl⟩
    rw [Option.mapM_some,write_counted short]
    rfl

theorem job_spec_accepted {ε : Type} [Corrupt ε] :
    Accepts (decode_job_spec : Fields ε JobSpec) (fun spec bytes => (encode_job_spec spec : Except ε Bytes) = .ok bytes) := by
  intro read left spec stop done
  obtain ⟨handler,_,at_handler,done⟩ := bind_ok.mp done
  obtain ⟨short_handler,rest,rfl,rfl⟩ := bytes_ok at_handler
  obtain ⟨payload,_,at_payload,done⟩ := bind_ok.mp done
  obtain ⟨short_payload,rest,rfl,rfl⟩ := bytes_ok at_payload
  obtain ⟨available_at_ms,_,at_available,done⟩ := bind_ok.mp done
  obtain ⟨rest,rfl,rfl⟩ := i64_ok at_available
  obtain ⟨deadline_ms,_,at_deadline,done⟩ := bind_ok.mp done
  obtain ⟨rest,rfl,rfl⟩ := option_written i64_accepted at_deadline
  obtain ⟨priority,_,at_priority,done⟩ := bind_ok.mp done
  obtain ⟨rest,rfl,rfl⟩ := i32_ok at_priority
  obtain ⟨max_attempts,_,at_max,done⟩ := bind_ok.mp done
  obtain ⟨rest,rfl,rfl⟩ := u32_ok at_max
  obtain ⟨retry_backoff_ms,_,at_backoff,done⟩ := bind_ok.mp done
  obtain ⟨rest,rfl,rfl⟩ := u64_ok at_backoff
  obtain ⟨key,_,at_key,done⟩ := bind_ok.mp done
  obtain ⟨written,rest,keyed,rfl,rfl⟩ := key_written at_key
  cases done
  apply Exists.intro
  refine ⟨rest,?_,?_,?_⟩
  · unfold encode_job_spec
    dsimp only
    rw [write_counted short_handler,ok_bind,write_counted short_payload,ok_bind,keyed,ok_bind]
    rfl
  · simp only [List.append_assoc]
  · simp only [List.append_assoc]

theorem source_accepted : Accepts decode_source (fun source bytes => encode_source source = .ok bytes) := by
  intro read left source stop done
  obtain ⟨tag,_,first,done⟩ := bind_ok.mp done
  obtain ⟨rest,rfl,rfl⟩ := u8_ok first
  by_cases manual : tag = 0
  · subst manual
    cases done
    exact ⟨[0],rest,rfl,rfl,rfl⟩
  · rw [if_neg manual] at done
    by_cases of_collection : tag = 1
    · subst of_collection
      obtain ⟨collection,_,second,done⟩ := bind_ok.mp done
      obtain ⟨short,rest,rfl,rfl⟩ := bytes_ok second
      obtain ⟨operation,_,third,done⟩ := bind_ok.mp done
      obtain ⟨short',rest,rfl,rfl⟩ := bytes_ok third
      cases done
      refine ⟨[1] ++ (counted collection ++ counted operation),rest,?_,by simp,by simp⟩
      simp [encode_source,write_counted short,write_counted short']
    · rw [if_neg of_collection] at done
      by_cases of_stream : tag = 2
      · subst of_stream
        obtain ⟨stream,_,second,done⟩ := bind_ok.mp done
        obtain ⟨short,rest,rfl,rfl⟩ := bytes_ok second
        cases done
        refine ⟨[2] ++ counted stream,rest,?_,by simp,by simp⟩
        simp [encode_source,write_counted short]
      · rw [if_neg of_stream] at done
        by_cases of_topic : tag = 3
        · subst of_topic
          obtain ⟨topic,_,second,done⟩ := bind_ok.mp done
          obtain ⟨short,rest,rfl,rfl⟩ := bytes_ok second
          cases done
          refine ⟨[3] ++ counted topic,rest,?_,by simp,by simp⟩
          simp [encode_source,write_counted short]
        · rw [if_neg of_topic] at done
          cases done

theorem trigger_accepted : Accepts read_trigger (fun trigger bytes => encode_trigger trigger = .ok bytes) := by
  intro read left trigger stop done
  obtain ⟨rest,rfl,behind⟩ := version_ok done
  obtain ⟨id,_,at_id,done⟩ := bind_ok.mp behind
  obtain ⟨rest,rfl,rfl⟩ := array_16_ok at_id
  obtain ⟨name,_,at_name,done⟩ := bind_ok.mp done
  obtain ⟨short,rest,rfl,rfl⟩ := bytes_ok at_name
  obtain ⟨source,_,at_source,done⟩ := bind_ok.mp done
  obtain ⟨origin,rest,of_source,rfl,rfl⟩ := source_accepted _ _ _ _ at_source
  obtain ⟨job,_,at_job,done⟩ := bind_ok.mp done
  obtain ⟨template,rest,of_job,rfl,rfl⟩ := job_spec_accepted _ _ _ _ at_job
  obtain ⟨enabled,_,at_enabled,done⟩ := bind_ok.mp done
  obtain ⟨rest,rfl,rfl⟩ := bool_ok at_enabled
  obtain ⟨fire_count,_,at_count,done⟩ := bind_ok.mp done
  obtain ⟨rest,rfl,rfl⟩ := u64_ok at_count
  obtain ⟨last_fired_at_ms,_,at_last,done⟩ := bind_ok.mp done
  obtain ⟨rest,rfl,rfl⟩ := option_written i64_accepted at_last
  cases done
  apply Exists.intro
  refine ⟨rest,?_,?_,?_⟩
  · unfold encode_trigger
    dsimp only
    rw [write_counted short,ok_bind,of_source,ok_bind,of_job,ok_bind]
    rfl
  · simp only [List.append_assoc]
  · simp only [List.append_assoc]

/-- A trigger that passes the checks of its creation. -/
structure DurableTrigger.Valid (trigger : DurableTrigger) : Prop where
  name : trigger.name ≠ []
  source : validate_source trigger.source = .ok ()
  job : (validate_job trigger.job : Except TriggerError Unit) = .ok ()

theorem parses_source {source : TriggerSource} {encoded : Bytes} (made : encode_source source = .ok encoded) :
    Parses USIZE decode_source encoded source ∧ encoded.length ≤ 2 ^ 34 := by
  cases source with
  | Manual =>
    cases made
    exact ⟨(parses_u8 0).ends (parses_pure _),by simp⟩
  | Collection collection operation =>
    obtain ⟨first,one,made⟩ := bind_ok_iff.mp made
    obtain ⟨second,two,made⟩ := bind_ok_iff.mp made
    obtain ⟨short,rfl⟩ := write_bytes_ok one
    obtain ⟨short',rfl⟩ := write_bytes_ok two
    cases made
    refine ⟨(parses_u8 1).bind ((parses_bytes short).bind ((parses_bytes short').ends (parses_pure _))),?_⟩
    simp
    omega
  | Stream stream =>
    obtain ⟨first,one,made⟩ := bind_ok_iff.mp made
    obtain ⟨short,rfl⟩ := write_bytes_ok one
    cases made
    refine ⟨(parses_u8 2).bind ((parses_bytes short).ends (parses_pure _)),?_⟩
    simp
    omega
  | Topic topic =>
    obtain ⟨first,one,made⟩ := bind_ok_iff.mp made
    obtain ⟨short,rfl⟩ := write_bytes_ok one
    cases made
    refine ⟨(parses_u8 3).bind ((parses_bytes short).ends (parses_pure _)),?_⟩
    simp
    omega

theorem decode_encoded_trigger {trigger : DurableTrigger} {encoded : Bytes} (valid : trigger.Valid)
    (made : encode_trigger trigger = .ok encoded) : decode_trigger encoded = .ok trigger := by
  obtain ⟨name,first,made⟩ := bind_ok_iff.mp made
  obtain ⟨source,second,made⟩ := bind_ok_iff.mp made
  obtain ⟨job,third,made⟩ := bind_ok_iff.mp made
  obtain ⟨fits,rfl⟩ := write_bytes_ok first
  obtain ⟨from_source,few⟩ := parses_source second
  obtain ⟨from_job,short⟩ := parses_job_spec third
  cases made
  have fired : Parses USIZE (Fields.option Fields.i64 : Fields TriggerError _)
      (write_option (trigger.last_fired_at_ms.map Int64.to_le_bytes)) trigger.last_fired_at_ms :=
    parses_option _ (fun time _ => parses_i64 time)
  have last := @write_option_length _ trigger.last_fired_at_ms Int64.to_le_bytes 8 (by simp)
  have read : readAll .CorruptRecord read_trigger ([VERSION] ++ (trigger.id.val ++
      ((UInt32.ofNat trigger.name.length).to_le_bytes ++ trigger.name ++ (source ++ (job ++ (write_bool trigger.enabled ++
        (trigger.fire_count.to_le_bytes ++ write_option (trigger.last_fired_at_ms.map Int64.to_le_bytes)))))))) = .ok trigger := by
    refine @Parses.readAll _ _ USIZE read_trigger _ trigger _ ?_ ?_
    · refine (parses_u8 _).bind ?_
      rw [if_neg (by simp)]
      refine (parses_array_16 _).bind ((parses_bytes fits).bind (from_source.bind (from_job.bind ?_)))
      exact (parses_bool _).bind ((parses_u64 _).bind (fired.ends (parses_pure _)))
    · rw [USIZE]
      simp only [List.length_append,List.length_singleton,trigger.id.property,u32_to_le_length,u64_to_le_length,write_bool]
      omega
  unfold decode_trigger
  rw [read,ok_bind,if_neg valid.name,valid.source,ok_bind,valid.job]
  rfl

theorem triggers_faithful : Faithful encode_trigger decode_trigger DurableTrigger.Valid := by
  refine ⟨fun _ _ valid made => decode_encoded_trigger valid made,?_⟩
  intro bytes trigger done
  obtain ⟨same,read,done⟩ := bind_ok_iff.mp done
  split at done
  · cases done
  · rename_i named
    obtain ⟨⟨⟩,source,done⟩ := bind_ok_iff.mp done
    obtain ⟨⟨⟩,job,done⟩ := bind_ok_iff.mp done
    cases done
    exact ⟨⟨named,source,job⟩,trigger_accepted.readAll read⟩

theorem cron_accepted : Accepts read_cron_schedule (fun schedule bytes => encode_cron_schedule schedule = .ok bytes) := by
  intro read left schedule stop done
  obtain ⟨rest,rfl,behind⟩ := version_ok done
  obtain ⟨id,_,at_id,done⟩ := bind_ok.mp behind
  obtain ⟨rest,rfl,rfl⟩ := array_16_ok at_id
  obtain ⟨expression,_,at_expression,done⟩ := bind_ok.mp done
  obtain ⟨short,rest,rfl,rfl⟩ := bytes_ok at_expression
  obtain ⟨job,_,at_job,done⟩ := bind_ok.mp done
  obtain ⟨template,rest,of_job,rfl,rfl⟩ := job_spec_accepted _ _ _ _ at_job
  obtain ⟨next_run_ms,_,at_next,done⟩ := bind_ok.mp done
  obtain ⟨rest,rfl,rfl⟩ := i64_ok at_next
  obtain ⟨enabled,_,at_enabled,done⟩ := bind_ok.mp done
  obtain ⟨rest,rfl,rfl⟩ := bool_ok at_enabled
  obtain ⟨fire_count,_,at_count,done⟩ := bind_ok.mp done
  obtain ⟨rest,rfl,rfl⟩ := u64_ok at_count
  obtain ⟨last_fired_at_ms,_,at_last,done⟩ := bind_ok.mp done
  obtain ⟨rest,rfl,rfl⟩ := option_written i64_accepted at_last
  cases done
  apply Exists.intro
  refine ⟨rest,?_,?_,?_⟩
  · unfold encode_cron_schedule
    dsimp only
    rw [write_counted short,ok_bind,of_job,ok_bind]
    rfl
  · simp only [List.append_assoc]
  · simp only [List.append_assoc]

theorem crons_faithful : Faithful encode_cron_schedule decode_cron_schedule (fun schedule => ∃ e, schedule.Valid e) := by
  refine ⟨fun _ _ ⟨_,valid⟩ made => decode_encoded_cron valid made,?_⟩
  intro bytes schedule done
  have valid := decode_cron_valid done
  obtain ⟨same,read,done⟩ := bind_ok_iff.mp done
  obtain ⟨e,-,done⟩ := bind_ok_iff.mp done
  obtain ⟨⟨⟩,-,done⟩ := bind_ok_iff.mp done
  cases done
  exact ⟨valid,cron_accepted.readAll read⟩

/-! ## Events, requests and responses -/

theorem event_accepted : Accepts read_event (fun event bytes => encode_event event = .ok bytes) := by
  intro read left event stop done
  obtain ⟨rest,rfl,behind⟩ := version_ok done
  obtain ⟨tx_id,_,at_tx,done⟩ := bind_ok.mp behind
  obtain ⟨rest,rfl,rfl⟩ := u64_ok at_tx
  obtain ⟨nonce,_,at_nonce,done⟩ := bind_ok.mp done
  obtain ⟨rest,rfl,rfl⟩ := array_16_ok at_nonce
  obtain ⟨created_at_ms,_,at_created,done⟩ := bind_ok.mp done
  obtain ⟨rest,rfl,rfl⟩ := i64_ok at_created
  obtain ⟨topic,_,at_topic,done⟩ := bind_ok.mp done
  obtain ⟨short_topic,rest,rfl,rfl⟩ := bytes_ok at_topic
  obtain ⟨payload,_,at_payload,done⟩ := bind_ok.mp done
  obtain ⟨short_payload,rest,rfl,rfl⟩ := bytes_ok at_payload
  cases done
  apply Exists.intro
  refine ⟨rest,?_,?_,?_⟩
  · unfold encode_event
    dsimp only
    rw [write_counted short_topic,ok_bind,write_counted short_payload,ok_bind]
    rfl
  · simp only [List.append_assoc]
  · simp only [List.append_assoc]

theorem events_faithful : Faithful encode_event decode_event (fun event => event.topic ≠ []) := by
  constructor
  · intro event bytes named made
    obtain ⟨fits,rfl⟩ := encode_event_ok named made
    exact decode_event_spelling fits
  · intro bytes event done
    obtain ⟨same,read,done⟩ := bind_ok_iff.mp done
    split at done
    · cases done
    · rename_i named
      cases done
      exact ⟨named,event_accepted.readAll read⟩

theorem deadline_accepted : Accepts read_deadline (fun deadline bytes => bytes = deadlineBytes deadline) := by
  intro read left deadline stop done
  rcases option_ok i64_accepted (show Fields.option Fields.i64 (.at read left) = .ok deadline stop from done) with
    ⟨rfl,rest,rfl,rfl⟩ | ⟨time,_,rest,rfl,rfl,rfl,rfl⟩
  · exact ⟨_,rest,rfl,rfl,rfl⟩
  · exact ⟨_,rest,rfl,rfl,rfl⟩

theorem request_accepted : Accepts read_request (fun request bytes => encode_request request = .ok bytes) := by
  intro read left request stop done
  obtain ⟨rest,rfl,behind⟩ := version_ok done
  obtain ⟨tx_id,_,at_tx,done⟩ := bind_ok.mp behind
  obtain ⟨rest,rfl,rfl⟩ := u64_ok at_tx
  obtain ⟨nonce,_,at_nonce,done⟩ := bind_ok.mp done
  obtain ⟨rest,rfl,rfl⟩ := array_16_ok at_nonce
  obtain ⟨created_at_ms,_,at_created,done⟩ := bind_ok.mp done
  obtain ⟨rest,rfl,rfl⟩ := i64_ok at_created
  obtain ⟨deadline_ms,_,at_deadline,done⟩ := bind_ok.mp done
  obtain ⟨_,rest,rfl,rfl,rfl⟩ := deadline_accepted _ _ _ _ at_deadline
  obtain ⟨method,_,at_method,done⟩ := bind_ok.mp done
  obtain ⟨short_method,rest,rfl,rfl⟩ := bytes_ok at_method
  obtain ⟨payload,_,at_payload,done⟩ := bind_ok.mp done
  obtain ⟨short_payload,rest,rfl,rfl⟩ := bytes_ok at_payload
  cases done
  apply Exists.intro
  refine ⟨rest,?_,?_,?_⟩
  · unfold encode_request
    dsimp only
    rw [write_counted short_method,ok_bind,write_counted short_payload,ok_bind]
    rfl
  · simp only [List.append_assoc]
  · simp only [List.append_assoc]

theorem requests_faithful : Faithful encode_request decode_request (fun request => request.method ≠ []) := by
  constructor
  · intro request bytes named made
    obtain ⟨fits,rfl⟩ := encode_request_ok named made
    exact decode_request_spelling fits
  · intro bytes request done
    obtain ⟨same,read,done⟩ := bind_ok_iff.mp done
    split at done
    · cases done
    · rename_i named
      cases done
      exact ⟨named,request_accepted.readAll read⟩

theorem response_accepted : Accepts read_response (fun response bytes => encode_response response = .ok bytes) := by
  intro read left response stop done
  obtain ⟨rest,rfl,behind⟩ := version_ok done
  obtain ⟨tx_id,_,at_tx,done⟩ := bind_ok.mp behind
  obtain ⟨rest,rfl,rfl⟩ := u64_ok at_tx
  obtain ⟨nonce,_,at_nonce,done⟩ := bind_ok.mp done
  obtain ⟨rest,rfl,rfl⟩ := array_16_ok at_nonce
  obtain ⟨completed_at_ms,_,at_completed,done⟩ := bind_ok.mp done
  obtain ⟨rest,rfl,rfl⟩ := i64_ok at_completed
  obtain ⟨is_error,_,at_flag,done⟩ := bind_ok.mp done
  obtain ⟨rest,rfl,rfl⟩ := bool_ok (show Fields.bool (.at _ _) = _ from at_flag)
  obtain ⟨payload,_,at_payload,done⟩ := bind_ok.mp done
  obtain ⟨short,rest,rfl,rfl⟩ := bytes_ok at_payload
  cases done
  apply Exists.intro
  refine ⟨rest,?_,?_,?_⟩
  · unfold encode_response
    dsimp only
    rw [write_counted short,ok_bind]
    rfl
  · simp only [List.append_assoc,write_bool]
  · simp only [List.append_assoc,write_bool]

theorem responses_faithful : Faithful encode_response decode_response (fun _ => True) := by
  refine ⟨?_,fun _ _ read => ⟨trivial,response_accepted.readAll read⟩⟩
  intro response bytes _ made
  obtain ⟨short,rfl⟩ := encode_response_ok made
  exact decode_response_spelling short

/-! ## Messages, entries and groups -/

theorem queue_state_read {byte : UInt8} {state : QueueState} (done : QueueState.try_from byte = .ok state) : byte = state.as_u8 := by
  unfold QueueState.try_from at done
  split_ifs at done <;> cases done <;> assumption

theorem message_accepted : Accepts read_message (fun message bytes => encode_message message = .ok bytes) := by
  intro read left message stop done
  obtain ⟨rest,rfl,behind⟩ := version_ok done
  obtain ⟨byte,_,at_state,done⟩ := bind_ok.mp behind
  obtain ⟨rest,rfl,rfl⟩ := u8_ok at_state
  obtain ⟨state,stated,done⟩ := lift_bind_ok.mp done
  obtain ⟨id,_,at_id,done⟩ := bind_ok.mp done
  obtain ⟨rest,rfl,rfl⟩ := u64_ok at_id
  obtain ⟨attempts,_,at_attempts,done⟩ := bind_ok.mp done
  obtain ⟨rest,rfl,rfl⟩ := u32_ok at_attempts
  obtain ⟨priority,_,at_priority,done⟩ := bind_ok.mp done
  obtain ⟨rest,rfl,rfl⟩ := i32_ok at_priority
  obtain ⟨available_at_ms,_,at_available,done⟩ := bind_ok.mp done
  obtain ⟨rest,rfl,rfl⟩ := i64_ok at_available
  obtain ⟨lease_until_ms,_,at_lease,done⟩ := bind_ok.mp done
  obtain ⟨rest,rfl,rfl⟩ := i64_ok at_lease
  obtain ⟨payload,_,at_payload,done⟩ := bind_ok.mp done
  obtain ⟨short,rest,rfl,rfl⟩ := bytes_ok at_payload
  cases done
  rw [queue_state_read stated]
  apply Exists.intro
  refine ⟨rest,?_,?_,?_⟩
  · unfold encode_message
    dsimp only
    rw [write_counted short,ok_bind]
    rfl
  · simp only [List.append_assoc]
  · simp only [List.append_assoc]

theorem messages_faithful : Faithful encode_message decode_message (fun _ => True) := by
  refine ⟨?_,fun _ _ read => ⟨trivial,message_accepted.readAll read⟩⟩
  intro message bytes _ made
  obtain ⟨fits,rfl⟩ := encode_message_ok made
  exact decode_message_spelling fits

theorem entries_faithful : Faithful encode_entry decode_entry (fun _ => True) := by
  constructor
  · intro payload bytes _ made
    obtain ⟨short,rfl⟩ := encode_entry_ok.mp made
    exact @decode_entry_spelling ⟨0,payload⟩ short
  · intro bytes payload done
    unfold decode_entry at done
    split at done
    · cases done
    · rename_i fine
      obtain ⟨long,versioned⟩ := not_or.mp fine
      dsimp only at done
      split at done
      · cases done
      · rename_i whole
        cases done
        refine ⟨trivial,?_⟩
        rw [encode_entry_ok]
        obtain ⟨first,tail,rfl⟩ := List.exists_cons_of_length_pos (show 0 < bytes.length by omega)
        have is_version : first = ENTRY_VERSION := by simpa using versioned
        have four : (tail.take 4).length = 4 := by
          rw [List.length_take]
          simp at long
          omega
        have rest : (tail.drop 4).length = (UInt32.from_le_bytes (tail.take 4)).toNat := by
          simp at whole ⊢
          omega
        have behind : (first :: tail).drop 5 = tail.drop 4 := rfl
        rw [behind]
        refine ⟨by rw [rest]; exact UInt32.toNat_lt _,?_⟩
        rw [rest,UInt32.ofNat_toNat,u32_to_from_le four,List.take_append_drop,is_version]
        rfl

theorem state_accepted : Accepts read_state (fun state bytes => encode_state state = .ok bytes) := by
  intro read left state stop done
  obtain ⟨rest,rfl,behind⟩ := version_ok done
  obtain ⟨next_offset,_,at_next,done⟩ := bind_ok.mp behind
  obtain ⟨rest,rfl,rfl⟩ := u64_ok at_next
  obtain ⟨leased_offset,_,at_leased,done⟩ := bind_ok.mp done
  obtain ⟨rest,rfl,rfl⟩ := option_written u64_accepted at_leased
  obtain ⟨lease_until_ms,_,at_until,done⟩ := bind_ok.mp done
  obtain ⟨rest,rfl,rfl⟩ := i64_ok at_until
  obtain ⟨lease_generation,_,at_generation,done⟩ := bind_ok.mp done
  obtain ⟨rest,rfl,rfl⟩ := u64_ok at_generation
  obtain ⟨owner,_,at_owner,done⟩ := bind_ok.mp done
  obtain ⟨short,rest,rfl,rfl⟩ := bytes_ok at_owner
  cases done
  apply Exists.intro
  refine ⟨rest,?_,?_,?_⟩
  · unfold encode_state
    dsimp only
    rw [write_counted short,ok_bind]
    rfl
  · simp only [List.append_assoc]
  · simp only [List.append_assoc]

theorem groups_faithful : Faithful encode_state decode_state (fun _ => True) := by
  refine ⟨?_,fun _ _ read => ⟨trivial,state_accepted.readAll read⟩⟩
  intro state bytes _ made
  obtain ⟨short,rfl⟩ := encode_state_ok made
  exact decode_state_spelling short

/-! ## Changes -/

section
variable {read left : Bytes} {stop : Cursor}

theorem cursor_take_ok {len : Nat} {part : Bytes} (done : Cursor.take len (.at read left) = .ok part stop) :
    part.length = len ∧ ∃ rest, left = part ++ rest ∧ stop = .at (read ++ part) rest := by
  unfold Cursor.take Cursor.at at done
  rw [get_bind] at done
  dsimp only at done
  cases added : usize_checked_add read.length len with
  | none =>
    rw [added] at done
    cases done
  | some sum =>
    rw [added] at done
    dsimp only at done
    have is_sum : sum = read.length + len := by
      rw [usize_checked_add] at added
      split at added
      · cases added
        rfl
      · cases added
    split at done
    · rename_i inside
      rw [set_bind,pure_run,List.drop_left] at done
      cases done
      rw [List.length_append] at inside
      have size : (left.take len).length = len := by rw [List.length_take]; omega
      refine ⟨size,left.drop len,(List.take_append_drop len left).symm,?_⟩
      rw [Cursor.at,List.append_assoc,List.take_append_drop,List.length_append,size,is_sum]
    · cases done

theorem cursor_u8_ok {byte : UInt8} (done : Cursor.u8 (.at read left) = .ok byte stop) :
    ∃ rest, left = [byte] ++ rest ∧ stop = .at (read ++ [byte]) rest := by
  obtain ⟨part,_,taken,done⟩ := bind_ok.mp done
  obtain ⟨size,rest,rfl,rfl⟩ := cursor_take_ok taken
  obtain ⟨only,rfl⟩ := List.length_eq_one_iff.mp size
  cases done
  exact ⟨rest,rfl,rfl⟩

theorem cursor_u32_ok {x : UInt32} (done : Cursor.u32 (.at read left) = .ok x stop) :
    ∃ rest, left = x.to_le_bytes ++ rest ∧ stop = .at (read ++ x.to_le_bytes) rest := by
  obtain ⟨part,_,taken,done⟩ := bind_ok.mp done
  obtain ⟨size,rest,rfl,rfl⟩ := cursor_take_ok taken
  cases done
  rw [u32_to_from_le size]
  exact ⟨rest,rfl,rfl⟩

theorem cursor_u64_ok {x : UInt64} (done : Cursor.u64 (.at read left) = .ok x stop) :
    ∃ rest, left = x.to_le_bytes ++ rest ∧ stop = .at (read ++ x.to_le_bytes) rest := by
  obtain ⟨part,_,taken,done⟩ := bind_ok.mp done
  obtain ⟨size,rest,rfl,rfl⟩ := cursor_take_ok taken
  cases done
  rw [u64_to_from_le size]
  exact ⟨rest,rfl,rfl⟩

theorem cursor_bytes_ok {value : Bytes} (done : Cursor.bytes_field (.at read left) = .ok value stop) :
    value.length < 2 ^ 32 ∧ ∃ rest, left = counted value ++ rest ∧ stop = .at (read ++ counted value) rest := by
  obtain ⟨len,_,first,done⟩ := bind_ok.mp done
  obtain ⟨behind,rfl,rfl⟩ := cursor_u32_ok first
  obtain ⟨size,rest,rfl,rfl⟩ := cursor_take_ok done
  have is : UInt32.ofNat value.length = len := by rw [size,UInt32.ofNat_toNat]
  refine ⟨by rw [size]; exact len.toNat_lt,rest,?_,?_⟩
  · rw [counted,is,List.append_assoc]
  · rw [counted,is,List.append_assoc]

theorem cursor_array_ok {hash : ByteArr 32} (done : Cursor.array_32 (.at read left) = .ok hash stop) :
    ∃ rest, left = hash.val ++ rest ∧ stop = .at (read ++ hash.val) rest := by
  obtain ⟨part,_,taken,done⟩ := bind_ok.mp done
  obtain ⟨size,rest,rfl,rfl⟩ := cursor_take_ok taken
  rw [dif_pos size] at done
  cases done
  exact ⟨rest,rfl,rfl⟩

end

theorem change_kind_read {byte : UInt8} {kind : ChangeKind} (done : ChangeKind.try_from byte = .ok kind) : byte = kind.as_u8 := by
  unfold ChangeKind.try_from at done
  split_ifs at done <;> cases done <;> assumption

theorem read_change_ok {read left : Bytes} {stop : Cursor} {change : ChangeRecord}
    (done : read_change (.at read left) = .ok change stop) :
    change.Described ∧ ∃ part rest, encode_change change = .ok part ∧ left = part ++ rest ∧ stop = .at (read ++ part) rest := by
  obtain ⟨version,_,at_version,done⟩ := bind_ok.mp done
  obtain ⟨rest,rfl,rfl⟩ := cursor_u8_ok at_version
  split at done
  · cases done
  · rename_i versioned
    obtain ⟨tx_id,_,at_tx,done⟩ := bind_ok.mp done
    obtain ⟨rest,rfl,rfl⟩ := cursor_u64_ok at_tx
    obtain ⟨sequence,_,at_sequence,done⟩ := bind_ok.mp done
    obtain ⟨rest,rfl,rfl⟩ := cursor_u32_ok at_sequence
    obtain ⟨byte,_,at_kind,done⟩ := bind_ok.mp done
    obtain ⟨rest,rfl,rfl⟩ := cursor_u8_ok at_kind
    obtain ⟨kind,stated,done⟩ := lift_bind_ok.mp done
    obtain ⟨key,_,at_key,done⟩ := bind_ok.mp done
    obtain ⟨short,rest,rfl,rfl⟩ := cursor_bytes_ok at_key
    obtain ⟨tag,_,at_tag,done⟩ := bind_ok.mp done
    obtain ⟨rest,rfl,rfl⟩ := cursor_u8_ok at_tag
    split at done
    · rename_i gone
      cases done
      rw [encode_change_delete short rfl rfl,not_not.mp versioned,change_kind_read stated,gone.1]
      refine ⟨?_,_,rest,rfl,?_,?_⟩
      · rw [gone.2]
        exact ⟨rfl,rfl⟩
      · simp [ChangeRecord.front,counted]
      · simp only [ChangeRecord.front,counted,List.append_assoc]
    · split at done
      · rename_i there
        obtain ⟨value_len,_,at_len,done⟩ := bind_ok.mp done
        obtain ⟨rest,rfl,rfl⟩ := cursor_u64_ok at_len
        obtain ⟨value_sha256,_,at_hash,done⟩ := bind_ok.mp done
        obtain ⟨rest,rfl,rfl⟩ := cursor_array_ok at_hash
        cases done
        rw [encode_change_put short rfl rfl,not_not.mp versioned,change_kind_read stated,there.1]
        refine ⟨?_,_,rest,rfl,?_,?_⟩
        · rw [there.2]
          exact ⟨by simp,by simp⟩
        · simp [ChangeRecord.front,counted]
        · simp only [ChangeRecord.front,counted,List.append_assoc,List.cons_append,List.nil_append]
      · cases done

theorem changes_faithful : Faithful encode_change decode_change ChangeRecord.Described := by
  refine ⟨fun _ _ described made => decode_change_encode described made,?_⟩
  intro bytes change done
  unfold decode_change at done
  cases result : read_change (.at [] bytes) with
  | error e s =>
    rw [show Cursor.mk bytes 0 = .at [] bytes from rfl,result] at done
    cases done
  | ok found stop =>
    rw [show Cursor.mk bytes 0 = .at [] bytes from rfl,result] at done
    dsimp only at done
    obtain ⟨described,part,rest,made,rfl,rfl⟩ := read_change_ok result
    split at done
    · rename_i whole
      cases done
      have empty : rest.length = 0 := by
        simp only [Cursor.finished,Cursor.at,List.nil_append,List.length_append,decide_eq_true_eq] at whole
        omega
      rw [List.length_eq_zero_iff.mp empty,List.append_nil]
      exact ⟨described,made⟩
    · cases done

/-! ## Collections and metadata -/

theorem definitions_faithful : Faithful encode_collection_definition decode_collection_definition (fun _ => True) := by
  constructor
  · intro definition bytes _ made
    obtain ⟨short,rfl⟩ := encode_definition_ok.mp made
    exact decode_definition_spelling short
  · intro bytes definition read
    exact ⟨trivial,encode_definition_ok.mpr (decode_definition_ok read)⟩

theorem migrations_faithful : Faithful encode_collection_migration decode_collection_migration
    (fun migration => migration.from_version < migration.to_version) := by
  constructor
  · intro migration bytes rises made
    obtain ⟨short,rfl⟩ := encode_migration_ok.mp made
    exact decode_migration_spelling ⟨short,rises⟩
  · intro bytes migration read
    obtain ⟨fits,spelled⟩ := decode_migration_ok read
    exact ⟨fits.rises,encode_migration_ok.mpr ⟨fits.codec,spelled⟩⟩

theorem records_faithful : Faithful (fun record : StoredRecord => encode_record_value record.value record.indexes) decode_record_value
    (fun _ => True) :=
  ⟨fun _ _ _ made => decode_encoded_record made,fun _ _ read => ⟨trivial,decode_record_ok read⟩⟩

theorem encode_checked_entries {metadata : MetadataEntries} {previous : Option Bytes} {start total : Nat}
    (checked : Objects.check_metadata previous start metadata = .ok total) :
    (∃ encoded, Objects.encode_entries metadata = .ok encoded) ∧ metadata.length + start ≤ total := by
  induction metadata generalizing previous start with
  | nil =>
    cases checked
    exact ⟨⟨[],rfl⟩,by simp⟩
  | cons entry metadata ih =>
    obtain ⟨key,value⟩ := entry
    unfold Objects.check_metadata at checked
    obtain ⟨sizes,checked⟩ := refuse_ok_iff.mp checked
    obtain ⟨-,checked⟩ := refuse_ok_iff.mp checked
    obtain ⟨sum,added,checked⟩ := bind_ok_iff.mp checked
    obtain ⟨⟨encoded,rest⟩,few⟩ := ih checked
    obtain ⟨named,short,fits⟩ : key ≠ [] ∧ key.length ≤ 4096 ∧ value.length ≤ 64 * 1024 := by
      simpa only [not_or,not_lt,gt_iff_lt] using sizes
    have positive : 0 < key.length := List.length_pos_of_ne_nil named
    have is_sum : sum = start + (key.length + value.length) := by
      have summed := ok_or_ok.mp added
      unfold usize_checked_add at summed
      split at summed
      · cases summed
        rfl
      · cases summed
    constructor
    · unfold Objects.encode_entries
      apply Exists.intro
      rw [u32_length_ok.mpr ⟨by omega,rfl⟩,ok_bind,u32_length_ok.mpr ⟨by omega,rfl⟩,ok_bind,rest,ok_bind]
      rfl
    · rw [List.length_cons]
      omega

/-- Metadata within the limits can be written. -/
theorem encode_normal_metadata {metadata : MetadataEntries} (normal : Normal metadata) :
    ∃ bytes, Objects.encode_metadata metadata = .ok bytes := by
  obtain ⟨total,checked,done⟩ := bind_ok_iff.mp normal
  obtain ⟨small,same⟩ := refuse_ok_iff.mp done
  rw [Except.ok.inj same] at checked
  obtain ⟨⟨encoded,made⟩,few⟩ := encode_checked_entries checked
  unfold Objects.encode_metadata
  apply Exists.intro
  rw [u32_length_ok.mpr ⟨by omega,rfl⟩,ok_bind,made,ok_bind]
  rfl

/-! ## What the calls write -/

section
variable [Hashes]

/-- The calls that write new records check what the readers ask for; those that
    rewrite a record have read it. -/
structure WritersCheck : Prop where
  trigger : ∀ io entropy name source job store id after, create_trigger io entropy name source job store = .ok id after →
    DurableTrigger.Valid ⟨id,name,source,job,true,0,none⟩
  trigger_rewritten : ∀ (trigger : DurableTrigger) enabled fire_count last_fired_at_ms, trigger.Valid →
    DurableTrigger.Valid { trigger with enabled, fire_count, last_fired_at_ms }
  cron : ∀ io entropy expression job after_ms store id after, create_cron_schedule io entropy expression job after_ms store = .ok id after →
    ∃ e next_run_ms, DurableCronSchedule.Valid ⟨id,as_bytes expression,job,next_run_ms,true,0,none⟩ e
  cron_rewritten : ∀ (schedule : DurableCronSchedule) e enabled next_run_ms fire_count last_fired_at_ms, schedule.Valid e →
    DurableCronSchedule.Valid { schedule with enabled, next_run_ms, fire_count, last_fired_at_ms } e
  request : ∀ io entropy method payload created_at_ms deadline_ms tx id after,
    request_rpc io entropy method payload created_at_ms deadline_ms tx = .ok id after → method ≠ []
  event : ∀ io entropy topic payload created_at_ms tx id after, emit_event io entropy topic payload created_at_ms tx = .ok id after → topic ≠ []
  change : ∀ tx_id sequence operation change, change_for tx_id sequence operation = some change → change.Described
  migration : ∀ io name expected_version next_version codec store after,
    migrate_collection_schema io name expected_version next_version codec store = .ok true after → expected_version < next_version
  message : ∀ id payload options bytes, encode_queue_message id payload options = .ok bytes →
    encode_message ⟨.Ready,id,payload,0,options.priority,options.available_at_ms,0⟩ = .ok bytes
  entry : ∀ payload bytes, encode_stream_entry payload = .ok bytes → encode_entry payload = .ok bytes
  metadata : ∀ given metadata, Objects.normalize_metadata given = .ok metadata → Normal metadata

theorem migrate_schema_rises {io : Io} {name codec : Bytes} {expected_version next_version : UInt32} {store after : Store}
    (done : migrate_collection_schema io name expected_version next_version codec store = .ok true after) : expected_version < next_version := by
  obtain ⟨key,-,done⟩ := lift_bind_ok.mp done
  rw [get_bind] at done
  obtain ⟨current,-,done⟩ := lift_bind_ok.mp done
  obtain ⟨definition,-,done⟩ := lift_bind_ok.mp done
  split at done
  · cases done
  · split at done
    · cases done
    · rename_i rises
      exact UInt32.not_le.mp rises

theorem writers_check : WritersCheck where
  trigger io entropy name source job store id after done := by
    unfold create_trigger at done
    split at done
    · cases done
    · rename_i named
      obtain ⟨⟨⟩,of_source,done⟩ := lift_bind_ok.mp done
      obtain ⟨⟨⟩,of_job,done⟩ := lift_bind_ok.mp done
      exact ⟨named,of_source,of_job⟩
  trigger_rewritten trigger enabled fire_count last_fired_at_ms valid := ⟨valid.name,valid.source,valid.job⟩
  cron io entropy expression job after_ms store id after done := by
    obtain ⟨e,next_run_ms,_,_,_,_,valid,_⟩ := create_cron_ok done
    exact ⟨e,next_run_ms,valid⟩
  cron_rewritten schedule e enabled next_run_ms fire_count last_fired_at_ms valid := ⟨valid.cron,valid.job⟩
  request io entropy method payload created_at_ms deadline_ms tx id after done := by
    unfold request_rpc at done
    split at done
    · cases done
    · assumption
  event io entropy topic payload created_at_ms tx id after done := by
    unfold emit_event at done
    split at done
    · cases done
    · assumption
  change tx_id sequence operation change found := (change_for_some found).2.2.2
  migration io name expected_version next_version codec store after done := migrate_schema_rises done
  message id payload options bytes made := by
    unfold encode_queue_message at made
    obtain ⟨written,writes,made⟩ := bind_ok_iff.mp made
    obtain ⟨fits,rfl⟩ := write_bytes_ok writes
    cases made
    unfold encode_message
    dsimp only
    rw [write_bytes_fits fits,ok_bind]
    rfl
  entry payload bytes made := encode_entry_ok.mpr (encode_stream_entry_ok.mp made)
  metadata given metadata normalized := normalize_normal normalized

/-- The codecs of all records but those of jobs and schedules. The condition of a
    codec is what the calls that write its records check; whatever is read meets it. -/
theorem codecs_are_faithful :
    WritersCheck ∧
    Faithful encode_instance decode_instance (fun _ => True) ∧
    Faithful Workflow.encode_history Workflow.decode_history (fun _ => True) ∧
    Faithful VoodooStore.encode_history VoodooStore.decode_history (fun _ => True) ∧
    Faithful encode_trigger decode_trigger DurableTrigger.Valid ∧
    Faithful encode_cron_schedule decode_cron_schedule (fun schedule => ∃ e, schedule.Valid e) ∧
    Faithful encode_request decode_request (fun request => request.method ≠ []) ∧
    Faithful encode_response decode_response (fun _ => True) ∧
    Faithful encode_event decode_event (fun event => event.topic ≠ []) ∧
    Faithful encode_change decode_change ChangeRecord.Described ∧
    Faithful encode_message decode_message (fun _ => True) ∧
    Faithful encode_entry decode_entry (fun _ => True) ∧
    Faithful encode_state decode_state (fun _ => True) ∧
    Faithful encode_collection_definition decode_collection_definition (fun _ => True) ∧
    Faithful encode_collection_migration decode_collection_migration (fun migration => migration.from_version < migration.to_version) ∧
    Faithful (fun record : StoredRecord => encode_record_value record.value record.indexes) decode_record_value (fun _ => True) ∧
    ∀ metadata, Normal metadata → ∃ bytes, Objects.encode_metadata metadata = .ok bytes ∧ Objects.decode_metadata bytes = .ok metadata := by
  refine ⟨writers_check,instances_faithful,workflow_histories_faithful,job_histories_faithful,triggers_faithful,crons_faithful,requests_faithful,
    responses_faithful,events_faithful,changes_faithful,messages_faithful,entries_faithful,groups_faithful,definitions_faithful,
    migrations_faithful,records_faithful,?_⟩
  intro metadata normal
  obtain ⟨bytes,made⟩ := encode_normal_metadata normal
  exact ⟨bytes,made,decode_encoded_metadata normal made⟩

end

end VoodooStore
