import VoodooStore.CronScheduler
import VoodooStore.CronTimes
import VoodooStore.Faults
import VoodooStore.JobCalls
import VoodooStore.Lib.Mapping

/-!
# The runs of a cron schedule

A schedule goes through the times of its expression one after another. However
ticks, switches and reopenings follow each other, the times for which it has
fired are the first ones behind its creation, in their order, and the cursor in
its record is at the first one that is left (`cron_visits_in_order`). A write that
was cut short takes the ticks behind it away (`torn_switch_fires_twice`).
-/
namespace VoodooStore
open Effects Reading Mapping
set_option linter.unusedSimpArgs false

/-! ## Records -/

theorem mapM_written {ε : Type} {too_large : ε} {key : Option Bytes} {written : Option Bytes}
    (done : key.mapM (write_bytes too_large) = .ok written) :
    (∀ k, key = some k → k.length < 2 ^ 32) ∧ written = key.map counted := by
  cases key with
  | none =>
    cases done
    exact ⟨by simp,rfl⟩
  | some key =>
    obtain ⟨spelled,made,rfl⟩ := mapM_some done
    obtain ⟨fits,rfl⟩ := write_bytes_ok made
    refine ⟨?_,rfl⟩
    rintro _ ⟨⟩
    exact fits

theorem write_option_length {α : Type} {value : Option α} {written : α → Bytes} {n : Nat}
    (short : ∀ a, value = some a → (written a).length ≤ n) : (write_option (value.map written)).length ≤ n + 1 := by
  cases value with
  | none => simp [write_option]
  | some a =>
    have := short a rfl
    simp [write_option]
    exact this

/-- What triggers and cron schedules keep of a job is read back. -/
theorem parses_job_spec {ε : Type} [Corrupt ε] {spec : JobSpec} {encoded : Bytes}
    (made : (encode_job_spec spec : Except ε Bytes) = .ok encoded) :
    Parses USIZE (decode_job_spec : Fields ε JobSpec) encoded spec ∧ encoded.length ≤ 2 ^ 34 := by
  obtain ⟨handler,first,made⟩ := bind_ok_iff.mp made
  obtain ⟨payload,second,made⟩ := bind_ok_iff.mp made
  obtain ⟨key,third,made⟩ := bind_ok_iff.mp made
  obtain ⟨fits_handler,rfl⟩ := write_bytes_ok first
  obtain ⟨fits_payload,rfl⟩ := write_bytes_ok second
  obtain ⟨fits_key,rfl⟩ := mapM_written third
  cases made
  have deadline : Parses USIZE (Fields.option Fields.i64 : Fields ε _) (write_option (spec.deadline_ms.map Int64.to_le_bytes))
      spec.deadline_ms := parses_option _ (fun time _ => parses_i64 time)
  have keyed : Parses USIZE (Fields.option Fields.bytes : Fields ε _) (write_option (spec.idempotency_key.map counted))
      spec.idempotency_key := parses_option _ (fun key given => parses_bytes (fits_key key given))
  constructor
  · refine (parses_bytes fits_handler).bind ((parses_bytes fits_payload).bind ((parses_i64 _).bind (deadline.bind ?_)))
    exact (parses_i32 _).bind ((parses_u32 _).bind ((parses_u64 _).bind (keyed.ends (parses_pure _))))
  · have short := @write_option_length _ spec.deadline_ms Int64.to_le_bytes 8 (by simp)
    have long := @write_option_length _ spec.idempotency_key counted (2 ^ 32 + 4) (by
      intro key given
      have := fits_key key given
      rw [counted_length]
      omega)
    simp only [List.length_append,u32_to_le_length,u64_to_le_length,i64_to_le_length,i32_to_le_length]
    omega

/-- A schedule with an expression and a job that are valid. -/
structure DurableCronSchedule.Valid (schedule : DurableCronSchedule) (e : CronExpression) : Prop where
  cron : schedule.cron = .ok e
  job : (validate_job schedule.job : Except CronSchedulerError Unit) = .ok ()

theorem decode_encoded_cron {schedule : DurableCronSchedule} {e : CronExpression} {encoded : Bytes} (valid : schedule.Valid e)
    (made : encode_cron_schedule schedule = .ok encoded) : decode_cron_schedule encoded = .ok schedule := by
  obtain ⟨expression,first,made⟩ := bind_ok_iff.mp made
  obtain ⟨job,second,made⟩ := bind_ok_iff.mp made
  obtain ⟨fits,rfl⟩ := write_bytes_ok first
  obtain ⟨parses,short⟩ := parses_job_spec second
  cases made
  have fired : Parses USIZE (Fields.option Fields.i64 : Fields CronSchedulerError _)
      (write_option (schedule.last_fired_at_ms.map Int64.to_le_bytes)) schedule.last_fired_at_ms :=
    parses_option _ (fun time _ => parses_i64 time)
  have few := @write_option_length _ schedule.last_fired_at_ms Int64.to_le_bytes 8 (by simp)
  have read : readAll .CorruptRecord read_cron_schedule ([VERSION] ++ (schedule.id.val ++
      ((UInt32.ofNat schedule.expression.length).to_le_bytes ++ schedule.expression ++ (job ++ (schedule.next_run_ms.to_le_bytes ++
        (write_bool schedule.enabled ++ (schedule.fire_count.to_le_bytes ++
          write_option (schedule.last_fired_at_ms.map Int64.to_le_bytes)))))))) = .ok schedule := by
    refine @Parses.readAll _ _ USIZE read_cron_schedule _ schedule _ ?_ ?_
    · refine (parses_u8 _).bind ?_
      rw [if_neg (by simp)]
      refine (parses_array_16 _).bind ((parses_bytes fits).bind (parses.bind ((parses_i64 _).bind ?_)))
      exact (parses_bool _).bind ((parses_u64 _).bind (fired.ends (parses_pure _)))
    · rw [USIZE]
      simp only [List.length_append,List.length_singleton,schedule.id.property,u32_to_le_length,u64_to_le_length,i64_to_le_length,
        write_bool]
      omega
  unfold decode_cron_schedule
  rw [read,ok_bind,valid.cron,ok_bind,valid.job]
  rfl

theorem decode_cron_valid {bytes : Bytes} {schedule : DurableCronSchedule} (read : decode_cron_schedule bytes = .ok schedule) :
    ∃ e, schedule.Valid e := by
  obtain ⟨same,_,read⟩ := bind_ok_iff.mp read
  obtain ⟨e,cron,read⟩ := bind_ok_iff.mp read
  obtain ⟨⟨⟩,job,read⟩ := bind_ok_iff.mp read
  cases read
  exact ⟨e,cron,job⟩

/-! ## Keys -/

theorem cron_key_own (id : CronScheduleId) : starts_with (cron_key id) CRON_PREFIX = true :=
  (starts_with_iff _ _).mpr (List.prefix_append _ _)

theorem cron_key_injective {a b : CronScheduleId} (same : cron_key a = cron_key b) : a = b :=
  Subtype.ext (List.append_cancel_left same)

theorem cron_outside_feed {key : Bytes} (own : starts_with key CRON_PREFIX = true) : starts_with key CDC_PREFIX = false :=
  domain_key_outside ⟨CRON_PREFIX,by decide,(starts_with_iff _ _).mp own⟩

theorem cron_not_job {key : Bytes} (own : starts_with key CRON_PREFIX = true) : ¬ jobSpace key := by
  rw [starts_with_iff] at own
  rintro (job | history)
  · exact prefixes_apart (by decide) own job
  · exact prefixes_apart (by decide) own history

/-! ## The list of schedules -/

/-- The records of schedules are at the keys of their ids. -/
def CronBook (state : State) : Prop := ∀ key value, starts_with key CRON_PREFIX = true → state[key]? = some value →
  ∃ schedule, decode_cron_schedule value = .ok schedule ∧ key = cron_key schedule.id

theorem cron_book_empty : CronBook ∅ := by
  intro key value _ found
  simp at found

/-- Only the records of schedules matter. -/
theorem CronBook.congr {s t : State} (book : CronBook s) (same : ∀ key, starts_with key CRON_PREFIX = true → t[key]? = s[key]?) :
    CronBook t := by
  intro key value own found
  rw [same key own] at found
  exact book key value own found

theorem CronBook.write {s t : State} (book : CronBook s) {schedule : DurableCronSchedule} {e : CronExpression} {encoded : Bytes}
    (valid : schedule.Valid e) (made : encode_cron_schedule schedule = .ok encoded)
    (written : ∀ key, starts_with key CRON_PREFIX = true →
      t[key]? = if cron_key schedule.id = key then some encoded else s[key]?) : CronBook t := by
  intro key value own found
  rw [written key own] at found
  split at found
  · rename_i here
    cases found
    exact ⟨schedule,decode_encoded_cron valid made,here.symm⟩
  · exact book key value own found

/-- The record of a schedule is at its own key. -/
theorem CronBook.own {state : State} (book : CronBook state) {id : CronScheduleId} {value : Bytes} {schedule : DurableCronSchedule}
    (found : state[cron_key id]? = some value) (decoded : decode_cron_schedule value = .ok schedule) : schedule.id = id := by
  obtain ⟨same,again,at_key⟩ := book _ _ (cron_key_own id) found
  cases decoded.symm.trans again
  exact (cron_key_injective at_key).symm

/-- The schedules of the list have ids of their own, and are in the map. -/
theorem list_cron_schedules_ok {store : Store} {ties : DurableCronSchedule → Nat} {schedules : List DurableCronSchedule}
    (book : CronBook store.state) (listed : store.list_cron_schedules ties = .ok schedules) :
    (schedules.map DurableCronSchedule.id).Nodup ∧ ∀ schedule ∈ schedules,
      ∃ value, store.state[cron_key schedule.id]? = some value ∧ decode_cron_schedule value = .ok schedule := by
  obtain ⟨read,each,done⟩ := bind_ok_iff.mp listed
  cases done
  have at_own_key : ∀ entry ∈ scan store.state CRON_PREFIX, ∀ schedule : DurableCronSchedule,
      decode_cron_schedule entry.2 = .ok schedule → entry.1 = cron_key schedule.id := by
    rintro ⟨key,value⟩ member schedule decoded
    obtain ⟨own,found⟩ := mem_scan.mp member
    obtain ⟨same,again,at_key⟩ := book key value own found
    cases decoded.symm.trans again
    exact at_key
  obtain ⟨keys,from_map⟩ := forall_mapped (mapM_forall each) at_own_key
  have distinct := scan_keys_nodup store.state CRON_PREFIX
  rw [← scan_prefix_eq,keys] at distinct
  constructor
  · refine ((List.mergeSort_perm read _).map DurableCronSchedule.id).nodup_iff.mpr ?_
    rw [← Function.comp_def cron_key,← List.map_map] at distinct
    exact distinct.of_map
  · intro schedule member
    obtain ⟨⟨key,value⟩,inside,decoded⟩ := from_map schedule ((List.mergeSort_perm read _).mem_iff.mp member)
    have found := (mem_scan.mp inside).2
    have at_key : key = cron_key schedule.id := at_own_key _ inside schedule decoded
    rw [at_key] at found
    exact ⟨value,found,decoded⟩

/-! ## What a tick fires -/

/-- The run that was due is behind the schedule. -/
structure Fires (e : CronExpression) (schedule next : DurableCronSchedule) : Prop where
  cron : schedule.cron = .ok e
  advanced : schedule.advanced e = .ok next

theorem Fires.fields {e : CronExpression} {schedule next : DurableCronSchedule} (fires : Fires e schedule next) :
    e.next_after_utc_ms schedule.next_run_ms = .ok next.next_run_ms ∧ next.fire_count.toNat = schedule.fire_count.toNat + 1 ∧
      next = { schedule with fire_count := next.fire_count, last_fired_at_ms := some schedule.next_run_ms, next_run_ms := next.next_run_ms } := by
  obtain ⟨fire_count,counted,done⟩ := bind_ok_iff.mp fires.advanced
  obtain ⟨next_run_ms,found,done⟩ := bind_ok_iff.mp done
  cases done
  exact ⟨mapError_eq_ok.mp found,(u64_checked_add_some (ok_or_ok.mp counted)).trans rfl,rfl⟩

theorem Fires.valid {e d : CronExpression} {schedule next : DurableCronSchedule} (fires : Fires e schedule next)
    (valid : schedule.Valid d) : next.Valid e := by
  rw [fires.fields.2.2]
  exact ⟨fires.cron,valid.job⟩

theorem Fires.id {e : CronExpression} {schedule next : DurableCronSchedule} (fires : Fires e schedule next) : next.id = schedule.id := by
  rw [fires.fields.2.2]

section
variable [Hashes]

/-- The loop of a tick, which also tells for which schedules and times it has fired. -/
def tick_cron_traced (io : Io) (entropy : Nat → Option (ByteArr 16)) (now_ms : Int64) (limit : Nat)
    (fired : List (CronScheduleId × Int64)) :
    List DurableCronSchedule → EStateM CronSchedulerError Store (List (CronScheduleId × Int64))
  | [] => pure fired
  | schedule :: schedules => do
    if fired.length = limit then return fired else
    if !schedule.enabled ∨ schedule.next_run_ms > now_ms then tick_cron_traced io entropy now_ms limit fired schedules else
    fire_cron_schedule io (entropy fired.length) now_ms schedule
    tick_cron_traced io entropy now_ms limit (fired ++ [(schedule.id,schedule.next_run_ms)]) schedules

/-- But for the telling it is the loop of the code. -/
theorem tick_cron_each_eq (io : Io) (entropy : Nat → Option (ByteArr 16)) (now_ms : Int64) (limit : Nat)
    (fired : List (CronScheduleId × Int64)) (schedules : List DurableCronSchedule) :
    tick_cron_each io entropy now_ms limit fired.length schedules =
      (do return (← tick_cron_traced io entropy now_ms limit fired schedules).length) := by
  induction schedules generalizing fired with
  | nil => rfl
  | cons schedule schedules ih =>
    rw [tick_cron_each,tick_cron_traced]
    split
    · rfl
    · split
      · exact ih fired
      · rw [bind_assoc]
        congr 1
        funext _
        rw [← ih,List.length_append,List.length_singleton]

theorem fire_cron_ok {io : Io} {entropy : Option (ByteArr 16)} {now_ms : Int64} {schedule : DurableCronSchedule} {store t : Store}
    {x : Unit} (done : fire_cron_schedule io entropy now_ms schedule store = .ok x t) :
    ∃ e next encoded, Fires e schedule next ∧ encode_cron_schedule next = .ok encoded ∧
      ∀ key, starts_with key CRON_PREFIX = true →
        t.state[key]? = if cron_key schedule.id = key then some encoded else store.state[key]? := by
  obtain ⟨e,cron,done⟩ := lift_bind_ok.mp done
  obtain ⟨_,middle,submitted,done⟩ := bind_ok.mp done
  obtain ⟨next,advanced,done⟩ := lift_bind_ok.mp done
  obtain ⟨encoded,made,done⟩ := lift_bind_ok.mp done
  have fires : Fires e schedule next := ⟨cron,advanced⟩
  have jobs := (submit_job_confined io entropy schedule.occurrence now_ms).elsewhere store
  rw [after,rethrow_ok.mp submitted] at jobs
  refine ⟨e,next,encoded,fires,made,?_⟩
  intro key own
  rw [put_alone_ok (rethrow_ok.mp done) key (cron_outside_feed own),get_insert,fires.id]
  split
  · rfl
  · exact jobs key (cron_outside_feed own) (cron_not_job own)

/-- What a tick did to a schedule: nothing, or it fired it once for the run that was due. -/
inductive TickedOn (now_ms : Int64) (schedules : List DurableCronSchedule) (new : List (CronScheduleId × Int64)) (s t : State)
    (id : CronScheduleId) : Prop
  | passed (silent : new.filter (·.1 = id) = []) (kept : t[cron_key id]? = s[cron_key id]?)
  | fired {schedule next : DurableCronSchedule} {e : CronExpression} {encoded : Bytes} (member : schedule ∈ schedules)
      (own : schedule.id = id) (due : schedule.next_run_ms ≤ now_ms) (once : new.filter (·.1 = id) = [(id,schedule.next_run_ms)])
      (fires : Fires e schedule next) (made : encode_cron_schedule next = .ok encoded) (written : t[cron_key id]? = some encoded)

theorem tick_cron_traced_ok {io : Io} {entropy : Nat → Option (ByteArr 16)} {now_ms : Int64} {limit : Nat}
    {fired all : List (CronScheduleId × Int64)} {schedules : List DurableCronSchedule} {store t : Store}
    (done : tick_cron_traced io entropy now_ms limit fired schedules store = .ok all t) (book : CronBook store.state)
    (distinct : (schedules.map DurableCronSchedule.id).Nodup) (valid : ∀ schedule ∈ schedules, ∃ e, schedule.Valid e) :
    CronBook t.state ∧ ∃ new, all = fired ++ new ∧ (∀ pair ∈ new, pair.1 ∈ schedules.map DurableCronSchedule.id) ∧
      ∀ id, TickedOn now_ms schedules new store.state t.state id := by
  induction schedules generalizing fired store with
  | nil =>
    cases done
    exact ⟨book,[],by simp,by simp,fun id => .passed rfl rfl⟩
  | cons schedule schedules ih =>
    rw [List.map_cons,List.nodup_cons] at distinct
    rw [tick_cron_traced] at done
    split at done
    · cases done
      exact ⟨book,[],by simp,by simp,fun id => .passed rfl rfl⟩
    · split at done
      · obtain ⟨kept,new,rfl,known,each⟩ := ih done book distinct.2 (fun other member => valid other (by simp [member]))
        refine ⟨kept,new,rfl,fun pair member => by simp [known pair member],?_⟩
        intro id
        cases each id with
        | passed silent kept => exact .passed silent kept
        | fired member own due once fires made written => exact .fired (by simp [member]) own due once fires made written
      · rename_i due
        have due : schedule.next_run_ms ≤ now_ms := by
          by_contra late
          exact due (.inr (Int64.not_le.mp late))
        obtain ⟨_,middle,fire,done⟩ := bind_ok.mp done
        obtain ⟨e,next,encoded,fires,made,written⟩ := fire_cron_ok fire
        obtain ⟨d,sound⟩ := valid schedule (by simp)
        have book_middle : CronBook middle.state := book.write (fires.valid sound) made (by rw [fires.id]; exact written)
        obtain ⟨kept,new,rfl,known,each⟩ := ih done book_middle distinct.2 (fun other member => valid other (by simp [member]))
        refine ⟨kept,(schedule.id,schedule.next_run_ms) :: new,by simp,?_,?_⟩
        · intro pair member
          rcases List.mem_cons.mp member with rfl | later
          · simp
          · simp [known pair later]
        · intro id
          by_cases here : schedule.id = id
          · subst here
            -- No later round is about the same schedule.
            have silent : new.filter (·.1 = schedule.id) = [] := by
              rw [List.filter_eq_nil_iff]
              intro pair member same
              have again := known pair member
              rw [decide_eq_true_eq.mp same] at again
              exact distinct.1 again
            cases each schedule.id with
            | passed _ kept =>
              rw [written _ (cron_key_own _),if_pos rfl] at kept
              exact .fired (by simp) rfl due (by simp [silent]) fires made kept
            | fired _ _ _ once =>
              rw [silent] at once
              cases once
          · have other : (((schedule.id,schedule.next_run_ms) :: new).filter (·.1 = id)) = new.filter (·.1 = id) := by simp [here]
            cases each id with
            | passed silent kept =>
              rw [written _ (cron_key_own _),if_neg (fun same => here (cron_key_injective same))] at kept
              exact .passed (by rw [other]; exact silent) kept
            | fired member own due once fires made written =>
              exact .fired (by simp [member]) own due (by rw [other]; exact once) fires made written

theorem tick_cron_traced_steady {io : Io} (durable : io.Durable) (entropy : Nat → Option (ByteArr 16)) (now_ms : Int64) (limit : Nat)
    (fired : List (CronScheduleId × Int64)) (schedules : List DurableCronSchedule) :
    Steady (tick_cron_traced io entropy now_ms limit fired schedules) := by
  induction schedules generalizing fired with
  | nil => exact steady_of_reads (reads_pure _)
  | cons schedule schedules ih =>
    rw [tick_cron_traced]
    split
    · exact steady_of_reads (reads_pure _)
    · split
      · exact ih fired
      · refine Steady.bind ?_ (fun _ => ih _)
        refine (steady_of_reads (reads_lift _)).bind (fun cron => ?_)
        refine (submit_job_atomic durable _ _ _).steady.rethrow.bind (fun _ => ?_)
        refine (steady_of_reads (reads_lift _)).bind (fun next => (steady_of_reads (reads_lift _)).bind (fun encoded => ?_))
        exact (put_alone_atomic durable _ _).steady.rethrow

/-- A tick, which also tells for which schedules and times it has fired. -/
def tick_cron_told (io : Io) (entropy : Nat → Option (ByteArr 16)) (ties : DurableCronSchedule → Nat) (now_ms : Int64) (limit : Nat) :
    EStateM CronSchedulerError Store (CronTickReport × List (CronScheduleId × Int64)) := do
  let schedules ← lift ((← get).list_cron_schedules ties)
  let fired ← tick_cron_traced io entropy now_ms limit [] schedules
  return (⟨schedules.length,fired.length⟩,fired)

theorem tick_cron_schedules_eq (io : Io) (entropy : Nat → Option (ByteArr 16)) (ties : DurableCronSchedule → Nat) (now_ms : Int64)
    (limit : Nat) : tick_cron_schedules io entropy ties now_ms limit = (do return (← tick_cron_told io entropy ties now_ms limit).1) := by
  unfold tick_cron_schedules tick_cron_told
  simp only [bind_assoc,pure_bind]
  congr 1
  funext store
  congr 1
  funext schedules
  have loop := tick_cron_each_eq io entropy now_ms limit [] schedules
  rw [List.length_nil] at loop
  rw [loop,bind_assoc]
  rfl

end

/-! ## The times that are visited -/

/-- The schedule has fired for these times: they are the matches behind `after` up to
    the next run, which is the first one that is left. -/
structure Visits (e : CronExpression) (after : Int) (times : List Int) (schedule : DurableCronSchedule) : Prop where
  rises : times.Pairwise (· < ·)
  segment : ∀ t, t ∈ times ↔ (after < t ∧ Hits e t) ∧ t < schedule.next_run_ms.toInt
  next : IsLeast {t | (after < t ∧ Hits e t) ∧ t ∉ times} schedule.next_run_ms.toInt
  count : schedule.fire_count.toNat = times.length
  last : schedule.last_fired_at_ms.map Int64.toInt = times.getLast?

/-- At its creation a schedule stands before the first match. -/
theorem visits_created {e : CronExpression} {after : Int64} {schedule : DurableCronSchedule}
    (found : e.next_after_utc_ms after = .ok schedule.next_run_ms) (unfired : schedule.fire_count = 0 ∧ schedule.last_fired_at_ms = none) :
    Visits e after.toInt [] schedule := by
  obtain ⟨hit,least⟩ := next_after_first found
  refine ⟨.nil,?_,⟨⟨hit,by simp⟩,fun t left => least left.1⟩,by rw [unfired.1]; rfl,by rw [unfired.2]; rfl⟩
  intro t
  simp only [List.not_mem_nil,false_iff]
  rintro ⟨later,before⟩
  have := least later
  omega

theorem Visits.fire {e : CronExpression} {after : Int} {times : List Int} {schedule next : DurableCronSchedule}
    (visits : Visits e after times schedule) (fires : Fires e schedule next) :
    Visits e after (times ++ [schedule.next_run_ms.toInt]) next := by
  obtain ⟨found,count,same⟩ := fires.fields
  obtain ⟨⟨behind,hit⟩,least⟩ := next_after_first found
  obtain ⟨⟨here,_⟩,_⟩ := visits.next
  -- The matches up to the new run are those up to the old one, and the old one.
  have segment : ∀ t, t ∈ times ++ [schedule.next_run_ms.toInt] ↔ (after < t ∧ Hits e t) ∧ t < next.next_run_ms.toInt := by
    intro t
    rw [List.mem_append,List.mem_singleton,visits.segment]
    constructor
    · rintro (⟨match_t,before⟩ | rfl)
      · exact ⟨match_t,by omega⟩
      · exact ⟨here,behind⟩
    · rintro ⟨match_t,before⟩
      by_cases earlier : t < schedule.next_run_ms.toInt
      · exact .inl ⟨match_t,earlier⟩
      · by_cases same_time : t = schedule.next_run_ms.toInt
        · exact .inr same_time
        · have later := least ⟨(by omega : schedule.next_run_ms.toInt < t),match_t.2⟩
          omega
  refine ⟨?_,segment,⟨⟨⟨by omega,hit⟩,?_⟩,?_⟩,?_,?_⟩
  · rw [List.pairwise_append]
    refine ⟨visits.rises,List.pairwise_singleton _ _,?_⟩
    intro t member last is
    rw [List.mem_singleton.mp is]
    exact ((visits.segment t).mp member).2
  · intro member
    have := ((segment _).mp member).2
    omega
  · rintro t ⟨match_t,left⟩
    by_contra before
    exact left ((segment t).mpr ⟨match_t,by omega⟩)
  · rw [count,visits.count,List.length_append,List.length_singleton]
  · rw [same]
    simp

theorem Visits.switch {e : CronExpression} {after : Int} {times : List Int} {schedule : DurableCronSchedule}
    (visits : Visits e after times schedule) (enabled : Bool) : Visits e after times { schedule with enabled } :=
  ⟨visits.rises,visits.segment,visits.next,visits.count,visits.last⟩

/-! ## Runs -/

inductive CronCall
  | CreateCronSchedule (io : Io) (entropy : Option (ByteArr 16)) (expression : Str) (job : JobSpec) (after_ms : Int64)
  | SetCronScheduleEnabled (io : Io) (id : CronScheduleId) (enabled : Bool)
  | TickCronSchedules (io : Io) (entropy : Nat → Option (ByteArr 16)) (ties : DurableCronSchedule → Nat) (now_ms : Int64) (limit : Nat)

/-- A tick tells what it has fired. -/
inductive CronReply
  | Created (id : CronScheduleId)
  | Switched (found : Bool)
  | Ticked (report : CronTickReport) (fired : List (CronScheduleId × Int64))

def CronCall.io : CronCall → Io
  | .CreateCronSchedule io _ _ _ _ => io
  | .SetCronScheduleEnabled io _ _ => io
  | .TickCronSchedules io _ _ _ _ => io

abbrev CronFact := Happened CronSchedulerError CronCall Empty CronReply

/-- With which expression and behind which time the schedule was created. -/
def cronCreated (id : CronScheduleId) : CronFact → List (Str × Int64)
  | .Returned (.CreateCronSchedule _ _ expression _ after_ms) (.ok (.Created new)) => if new = id then [(expression,after_ms)] else []
  | _ => []

/-- The times for which the schedule was fired. -/
def cronFired (id : CronScheduleId) : CronFact → List Int
  | .Returned (.TickCronSchedules _ _ _ _ _) (.ok (.Ticked _ fired)) => (fired.filter (·.1 = id)).map (fun pair => pair.2.toInt)
  | _ => []

/-- No tick has failed. -/
def TicksSucceed (log : List CronFact) : Prop := ∀ io entropy ties now_ms limit result,
  .Returned (.TickCronSchedules io entropy ties now_ms limit) result ∈ log → ∃ reply, result = .ok reply

/-- What a tick has fired was due, and nothing was fired twice. -/
def TickedOnce : CronFact → Prop
  | .Returned (.TickCronSchedules _ _ _ now_ms _) (.ok (.Ticked _ fired)) =>
    ∀ id, (fired.filter (·.1 = id)).length ≤ 1 ∧ ∀ time, (id,time) ∈ fired → time ≤ now_ms
  | _ => True

/-- Others write elsewhere, and a new id is not in use. -/
def cronTerms : Terms CronSchedulerError CronCall Empty CronReply where
  mine key := starts_with key CRON_PREFIX = true
  call state call := call.io.Durable ∧ match call with
    | .CreateCronSchedule _ (some id) _ _ _ => state[cron_key id]? = none
    | _ => True
  callTx := fun _ _ => True
  commit := fun _ => True

/-- A schedule that was created has its record, which shows what it has visited. -/
inductive CronTold (id : CronScheduleId) (log : List CronFact) (state : State) : Prop
  | absent (missing : state[cron_key id]? = none) (uncreated : log.flatMap (cronCreated id) = []) (unfired : log.flatMap (cronFired id) = [])
  | present {expression : Str} {after_ms : Int64} {schedule : DurableCronSchedule} {e : CronExpression} {encoded : Bytes}
      (created : log.flatMap (cronCreated id) = [(expression,after_ms)]) (parsed : CronExpression.parse expression = .ok e)
      (valid : schedule.Valid e) (made : encode_cron_schedule schedule = .ok encoded) (own : schedule.id = id)
      (found : state[cron_key id]? = some encoded) (visits : Visits e after_ms.toInt (log.flatMap (cronFired id)) schedule)

theorem CronTold.congr {id : CronScheduleId} {log : List CronFact} {s t : State} (told : CronTold id log s)
    (same : t[cron_key id]? = s[cron_key id]?) : CronTold id log t := by
  cases told with
  | absent missing uncreated unfired => exact .absent (same.trans missing) uncreated unfired
  | present created parsed valid made own found visits => exact .present created parsed valid made own (same.trans found) visits

/-- A fact that says nothing of the schedule. -/
theorem CronTold.quiet {id : CronScheduleId} {log : List CronFact} {s t : State} {fact : CronFact} (told : CronTold id log s)
    (uncreated : cronCreated id fact = []) (unfired : cronFired id fact = []) (same : t[cron_key id]? = s[cron_key id]?) :
    CronTold id (log ++ [fact]) t := by
  have no_creation : (log ++ [fact]).flatMap (cronCreated id) = log.flatMap (cronCreated id) := by simp [uncreated]
  have no_firing : (log ++ [fact]).flatMap (cronFired id) = log.flatMap (cronFired id) := by simp [unfired]
  cases told with
  | absent missing created fired => exact .absent (same.trans missing) (no_creation.trans created) (no_firing.trans fired)
  | present created parsed valid made own found visits =>
    exact .present (no_creation.trans created) parsed valid made own (same.trans found) (by rw [no_firing]; exact visits)

theorem TicksSucceed.earlier {log : List CronFact} {fact : CronFact} (succeeds : TicksSucceed (log ++ [fact])) : TicksSucceed log :=
  fun io entropy ties now_ms limit result member =>
    succeeds io entropy ties now_ms limit result (List.mem_append_left _ member)

/-- What holds between the calls. -/
structure CronKept (log : List CronFact) (state : State) : Prop where
  book : CronBook state
  told : ∀ id, CronTold id log state
  once : ∀ fact ∈ log, TickedOnce fact

theorem CronKept.quiet {log : List CronFact} {s t : State} {fact : CronFact} (kept : CronKept log s)
    (uncreated : ∀ id, cronCreated id fact = []) (unfired : ∀ id, cronFired id fact = []) (once : TickedOnce fact)
    (same : ∀ key, starts_with key CRON_PREFIX = true → t[key]? = s[key]?) : CronKept (log ++ [fact]) t := by
  refine ⟨kept.book.congr same,fun id => (kept.told id).quiet (uncreated id) (unfired id) (same _ (cron_key_own id)),?_⟩
  intro other member
  rcases List.mem_append.mp member with before | new
  · exact kept.once other before
  · rw [List.mem_singleton.mp new]
    exact once

section
variable [Hashes]

def crons : Domain CronSchedulerError CronCall Empty CronReply where
  on_store
    | .CreateCronSchedule io entropy expression job after_ms => do
      return .Created (← create_cron_schedule io entropy expression job after_ms)
    | .SetCronScheduleEnabled io id enabled => do return .Switched (← set_cron_schedule_enabled io id enabled)
    | .TickCronSchedules io entropy ties now_ms limit => do
      let (report,fired) ← tick_cron_told io entropy ties now_ms limit
      return .Ticked report fired
  on_tx := nofun

theorem create_cron_ok {io : Io} {entropy : Option (ByteArr 16)} {expression : Str} {job : JobSpec} {after_ms : Int64} {store t : Store}
    {id : CronScheduleId} (done : create_cron_schedule io entropy expression job after_ms store = .ok id t) :
    ∃ e next_run_ms encoded, entropy = some id ∧ CronExpression.parse expression = .ok e ∧
      e.next_after_utc_ms after_ms = .ok next_run_ms ∧
      DurableCronSchedule.Valid ⟨id,as_bytes expression,job,next_run_ms,true,0,none⟩ e ∧
      encode_cron_schedule ⟨id,as_bytes expression,job,next_run_ms,true,0,none⟩ = .ok encoded ∧
      ∀ key, starts_with key CRON_PREFIX = true → t.state[key]? = if cron_key id = key then some encoded else store.state[key]? := by
  obtain ⟨⟨⟩,valid,done⟩ := lift_bind_ok.mp done
  obtain ⟨e,parsed,done⟩ := lift_bind_ok.mp done
  obtain ⟨new,drawn,done⟩ := lift_bind_ok.mp done
  obtain ⟨next_run_ms,found,done⟩ := lift_bind_ok.mp done
  obtain ⟨encoded,made,done⟩ := lift_bind_ok.mp done
  obtain ⟨_,_,put,done⟩ := bind_ok.mp done
  cases done
  have cron : DurableCronSchedule.cron ⟨id,as_bytes expression,job,next_run_ms,true,0,none⟩ = .ok e := by
    unfold DurableCronSchedule.cron
    rw [from_utf8_as_bytes]
    exact parsed
  refine ⟨e,next_run_ms,encoded,ok_or_ok.mp drawn,mapError_eq_ok.mp parsed,mapError_eq_ok.mp found,⟨cron,valid⟩,made,?_⟩
  intro key own
  rw [put_alone_ok (rethrow_ok.mp put) key (cron_outside_feed own),get_insert]

theorem create_cron_atomic {io : Io} (durable : io.Durable) (entropy : Option (ByteArr 16)) (expression : Str) (job : JobSpec)
    (after_ms : Int64) : Atomic (create_cron_schedule io entropy expression job after_ms) := by
  refine .checked (reads_lift _) (fun _ => .checked (reads_lift _) (fun cron => .checked (reads_lift _) (fun id => ?_)))
  refine .checked (reads_lift _) (fun next_run_ms => .checked (reads_lift _) (fun encoded => ?_))
  exact (put_alone_atomic durable _ _).rethrow.returning (fun _ => id)

theorem switch_cron_atomic {io : Io} (durable : io.Durable) (id : CronScheduleId) (enabled : Bool) :
    Atomic (set_cron_schedule_enabled io id enabled) := by
  refine .checked reads_get (fun store => .checked (reads_lift _) (fun found => ?_))
  cases found with
  | none => exact atomic_of_reads (reads_pure _)
  | some schedule =>
    refine .checked (reads_lift _) (fun encoded => ?_)
    exact (put_alone_atomic durable _ _).rethrow.returning (fun _ => true)

/-- A switch that finds its schedule writes it with the flag. -/
theorem switch_cron_ok {io : Io} {id : CronScheduleId} {enabled found : Bool} {store t : Store}
    (done : set_cron_schedule_enabled io id enabled store = .ok found t) :
    t = store ∨ ∃ value schedule encoded, store.state[cron_key id]? = some value ∧ decode_cron_schedule value = .ok schedule ∧
      encode_cron_schedule { schedule with enabled } = .ok encoded ∧
      ∀ key, starts_with key CRON_PREFIX = true → t.state[key]? = if cron_key id = key then some encoded else store.state[key]? := by
  unfold set_cron_schedule_enabled at done
  rw [get_bind] at done
  obtain ⟨existing,looked,done⟩ := lift_bind_ok.mp done
  unfold Store.get_cron_schedule at looked
  cases stored : store.get (cron_key id) with
  | none =>
    rw [stored] at looked
    cases looked
    cases done
    exact .inl rfl
  | some value =>
    rw [stored] at looked
    obtain ⟨schedule,decoded,rfl⟩ := mapM_some looked
    obtain ⟨encoded,made,done⟩ := lift_bind_ok.mp done
    obtain ⟨_,_,put,done⟩ := bind_ok.mp done
    cases done
    refine .inr ⟨value,schedule,encoded,stored,decoded,made,?_⟩
    intro key own
    rw [put_alone_ok (rethrow_ok.mp put) key (cron_outside_feed own),get_insert]

theorem create_cron_kept {io : Io} {entropy : Option (ByteArr 16)} {expression : Str} {job : JobSpec} {after_ms : Int64} {store t : Store}
    {id : CronScheduleId} {log : List CronFact} (kept : CronKept log store.state)
    (fresh : ∀ new, entropy = some new → store.state[cron_key new]? = none)
    (done : create_cron_schedule io entropy expression job after_ms store = .ok id t) :
    CronKept (log ++ [Happened.Returned (.CreateCronSchedule io entropy expression job after_ms) (.ok (.Created id))]) t.state := by
  obtain ⟨e,next_run_ms,encoded,drawn,parsed,found,valid,made,written⟩ := create_cron_ok done
  refine ⟨kept.book.write valid made written,?_,?_⟩
  · intro other
    by_cases here : id = other
    · subst here
      have at_key := written (cron_key id) (cron_key_own id)
      rw [if_pos rfl] at at_key
      cases kept.told id with
      | present _ _ _ _ _ present _ =>
        rw [fresh id drawn] at present
        cases present
      | absent _ uncreated unfired =>
        refine @CronTold.present _ _ _ expression after_ms _ e encoded ?_ parsed valid made rfl at_key ?_
        · simp [uncreated,cronCreated]
        · rw [List.flatMap_append,unfired]
          exact visits_created found ⟨rfl,rfl⟩
    · refine (kept.told other).quiet (if_neg here) rfl ?_
      rw [written _ (cron_key_own other),if_neg (fun same => here (cron_key_injective same))]
  · intro fact member
    rcases List.mem_append.mp member with before | new
    · exact kept.once fact before
    · rw [List.mem_singleton.mp new]
      exact trivial

theorem switch_cron_kept {io : Io} {id : CronScheduleId} {enabled found : Bool} {store t : Store} {log : List CronFact}
    (kept : CronKept log store.state) (done : set_cron_schedule_enabled io id enabled store = .ok found t) :
    CronKept (log ++ [Happened.Returned (.SetCronScheduleEnabled io id enabled) (.ok (.Switched found))]) t.state := by
  rcases switch_cron_ok done with rfl | ⟨value,schedule,encoded,stored,decoded,made,written⟩
  · exact kept.quiet (fun _ => rfl) (fun _ => rfl) trivial (fun _ _ => rfl)
  · obtain ⟨d,valid⟩ := decode_cron_valid decoded
    have own := kept.book.own stored decoded
    have switched : DurableCronSchedule.Valid { schedule with enabled } d := ⟨valid.cron,valid.job⟩
    refine ⟨kept.book.write switched made (by rw [own]; exact written),?_,?_⟩
    · intro other
      by_cases here : id = other
      · subst here
        have at_key := written (cron_key id) (cron_key_own id)
        rw [if_pos rfl] at at_key
        cases kept.told id with
        | absent missing _ _ =>
          rw [missing] at stored
          cases stored
        | @present expression after_ms before e spelled created parsed valid_before spells own_before found_before visits =>
          -- The record is the one that is known.
          rw [stored] at found_before
          cases found_before
          rw [decode_encoded_cron valid_before spells] at decoded
          cases decoded
          refine @CronTold.present _ _ _ expression after_ms { schedule with enabled } e encoded ?_ parsed
            ⟨valid_before.cron,valid_before.job⟩ made own at_key ?_
          · simp [created,cronCreated]
          · rw [List.flatMap_append]
            show Visits e after_ms.toInt (log.flatMap (cronFired id) ++ []) _
            rw [List.append_nil]
            exact visits.switch enabled
      · refine (kept.told other).quiet rfl rfl ?_
        rw [written _ (cron_key_own other),if_neg (fun same => here (cron_key_injective same))]
    · intro fact member
      rcases List.mem_append.mp member with before | new
      · exact kept.once fact before
      · rw [List.mem_singleton.mp new]
        exact trivial

theorem tick_cron_kept {io : Io} {entropy : Nat → Option (ByteArr 16)} {ties : DurableCronSchedule → Nat} {now_ms : Int64} {limit : Nat}
    {report : CronTickReport} {fired : List (CronScheduleId × Int64)} {store t : Store} {log : List CronFact}
    (kept : CronKept log store.state) (done : tick_cron_told io entropy ties now_ms limit store = .ok (report,fired) t) :
    CronKept (log ++ [Happened.Returned (.TickCronSchedules io entropy ties now_ms limit) (.ok (.Ticked report fired))]) t.state := by
  unfold tick_cron_told at done
  rw [get_bind] at done
  obtain ⟨schedules,listed,done⟩ := lift_bind_ok.mp done
  obtain ⟨told,_,traced,done⟩ := bind_ok.mp done
  cases done
  obtain ⟨distinct,in_map⟩ := list_cron_schedules_ok kept.book listed
  have valid : ∀ schedule ∈ schedules, ∃ e, schedule.Valid e := by
    intro schedule member
    obtain ⟨value,_,decoded⟩ := in_map schedule member
    exact decode_cron_valid decoded
  obtain ⟨book,new,all,_,each⟩ := tick_cron_traced_ok traced kept.book distinct valid
  rw [List.nil_append] at all
  subst all
  refine ⟨book,?_,?_⟩
  · intro id
    have uncreated : cronCreated id (.Returned (.TickCronSchedules io entropy ties now_ms limit)
        (.ok (.Ticked ⟨schedules.length,fired.length⟩ fired))) = [] := rfl
    cases each id with
    | passed silent same => exact (kept.told id).quiet uncreated (by simp [cronFired,silent]) same
    | @fired schedule next e encoded member own due once fires made written =>
      obtain ⟨value,stored,decoded⟩ := in_map schedule member
      rw [own] at stored
      cases kept.told id with
      | absent missing _ _ =>
        rw [missing] at stored
        cases stored
      | @present expression after_ms before d spelled created parsed valid_before spells own_before found_before visits =>
        rw [stored] at found_before
        cases found_before
        rw [decode_encoded_cron valid_before spells] at decoded
        cases decoded
        cases valid_before.cron.symm.trans fires.cron
        refine @CronTold.present _ _ _ expression after_ms next _ encoded ?_ parsed (fires.valid valid_before) made
          (fires.id.trans own) written ?_
        · simp [created,cronCreated]
        · have one_more := visits.fire fires
          rw [List.flatMap_append]
          simpa [cronFired,once] using one_more
  · intro fact member
    rcases List.mem_append.mp member with before | new
    · exact kept.once fact before
    · rw [List.mem_singleton.mp new]
      intro id
      cases each id with
      | passed silent _ =>
        refine ⟨by rw [silent]; exact Nat.zero_le 1,?_⟩
        intro time member
        have inside : (id,time) ∈ fired.filter (·.1 = id) := List.mem_filter.mpr ⟨member,by simp⟩
        rw [silent] at inside
        cases inside
      | fired _ _ due once _ _ _ =>
        refine ⟨by rw [once]; exact Nat.le_refl 1,?_⟩
        intro time member
        have inside : (id,time) ∈ fired.filter (·.1 = id) := List.mem_filter.mpr ⟨member,by simp⟩
        rw [once] at inside
        cases List.mem_singleton.mp inside
        exact due

theorem cron_call_steady {call : CronCall} (durable : call.io.Durable) : Steady (crons.on_store call) := by
  cases call with
  | CreateCronSchedule io entropy expression job after_ms =>
    exact ((create_cron_atomic durable _ _ _ _).returning CronReply.Created).steady
  | SetCronScheduleEnabled io id enabled => exact ((switch_cron_atomic durable _ _).returning CronReply.Switched).steady
  | TickCronSchedules io entropy ties now_ms limit =>
    refine Steady.bind ?_ (fun _ => steady_of_reads (reads_pure _))
    refine (steady_of_reads reads_get).bind (fun store => (steady_of_reads (reads_lift _)).bind (fun schedules => ?_))
    exact (tick_cron_traced_steady durable _ _ _ _ _).bind (fun _ => steady_of_reads (reads_pure _))

theorem cron_call_kept {call : CronCall} {store : Store} {log : List CronFact} (ok : cronTerms.call store.state call)
    (kept : CronKept log store.state) (succeeds : TicksSucceed (log ++ [Happened.Returned call (returned (crons.on_store call) store)])) :
    CronKept (log ++ [Happened.Returned call (returned (crons.on_store call) store)]) (after (crons.on_store call) store).state := by
  cases call with
  | CreateCronSchedule io entropy expression job after_ms =>
    cases result : crons.on_store (.CreateCronSchedule io entropy expression job after_ms) store with
    | ok reply t =>
      rw [after,returned,result]
      obtain ⟨id,_,created,done⟩ := bind_ok.mp result
      cases done
      refine create_cron_kept kept ?_ created
      rintro new rfl
      exact ok.2
    | error e t =>
      rw [after,returned,result]
      have same := ((create_cron_atomic ok.1 entropy expression job after_ms).returning CronReply.Created).keeps store e t result
      exact kept.quiet (fun _ => rfl) (fun _ => rfl) trivial (fun key _ => by rw [same])
  | SetCronScheduleEnabled io id enabled =>
    cases result : crons.on_store (.SetCronScheduleEnabled io id enabled) store with
    | ok reply t =>
      rw [after,returned,result]
      obtain ⟨found,_,switched,done⟩ := bind_ok.mp result
      cases done
      exact switch_cron_kept kept switched
    | error e t =>
      rw [after,returned,result]
      have same := ((switch_cron_atomic ok.1 id enabled).returning CronReply.Switched).keeps store e t result
      exact kept.quiet (fun _ => rfl) (fun _ => rfl) trivial (fun key _ => by rw [same])
  | TickCronSchedules io entropy ties now_ms limit =>
    cases result : crons.on_store (.TickCronSchedules io entropy ties now_ms limit) store with
    | ok reply t =>
      rw [after,returned,result]
      obtain ⟨⟨report,fired⟩,_,ticked,done⟩ := bind_ok.mp result
      cases done
      exact tick_cron_kept kept ticked
    | error e t =>
      rw [returned,result] at succeeds
      obtain ⟨reply,absurd⟩ := succeeds io entropy ties now_ms limit (.error e) (by simp)
      cases absurd

theorem crons_preserved : Preserved crons cronTerms (fun state view log => (TicksSucceed log → CronKept log state) ∧
    ∀ seen, view = some seen → ∀ key, starts_with key CRON_PREFIX = true → seen[key]? = state[key]?) := by
  constructor
  · exact fun call _ ok => cron_call_steady ok.1
  · exact nofun
  · rintro call store log ok ⟨kept,-⟩
    exact ⟨fun succeeds => cron_call_kept ok (kept succeeds.earlier) succeeds,by simp⟩
  · rintro state log ⟨kept,-⟩
    refine ⟨fun succeeds => (kept succeeds.earlier).quiet (fun _ => rfl) (fun _ => rfl) trivial (fun _ _ => rfl),?_⟩
    rintro _ ⟨⟩ key _
    rfl
  · exact nofun
  · rintro state view next log same ⟨kept,seen⟩
    refine ⟨kept,?_⟩
    rintro _ ⟨⟩ key own
    rw [same key own]
    exact seen view rfl key own
  · rintro state view next log - same ⟨kept,seen⟩
    refine ⟨fun succeeds => (kept succeeds.earlier).quiet (fun _ => rfl) (fun _ => rfl) trivial ?_,by simp⟩
    intro key own
    rw [same key (cron_outside_feed own)]
    exact seen view rfl key own
  · rintro state view log ⟨kept,-⟩
    exact ⟨fun succeeds => (kept succeeds.earlier).quiet (fun _ => rfl) (fun _ => rfl) trivial (fun _ _ => rfl),by simp⟩

/-- After any run on a new store in which no tick fails, no write is cut short and
    every commit is confirmed, what a schedule has fired for are the first times of its expression behind the one it was created with, each
    at a tick that was not before it and no two at the same tick, and its record
    shows how far it is. -/
theorem cron_visits_in_order {io : Io} {path : Path} {options : StoreOptions} {store : Store} {left : Bytes}
    (opened : open_with_options io path options [] = .ok store left) {moves : List (Move CronCall Empty)}
    (along : (Play.mk (.Idle store) []).Along crons cronTerms moves) :
    let play := Play.steps crons ⟨.Idle store,[]⟩ moves
    TicksSucceed play.log → (∀ fact ∈ play.log, TickedOnce fact) ∧
      ∀ create_io entropy expression job after_ms id,
        .Returned (.CreateCronSchedule create_io entropy expression job after_ms) (.ok (.Created id)) ∈ play.log →
        ∃ e schedule, CronExpression.parse expression = .ok e ∧ play.session.store.get_cron_schedule id = .ok (some schedule) ∧
          Visits e after_ms.toInt (play.log.flatMap (cronFired id)) schedule := by
  intro play succeeds
  have start : CronKept [] ∅ := ⟨cron_book_empty,fun id => .absent (by simp) rfl rfl,by simp⟩
  have kept := (play_invariant crons_preserved ⟨fun _ => start,by simp⟩ opened along).holds.1 succeeds
  refine ⟨kept.once,?_⟩
  intro create_io entropy expression job after_ms id member
  have created : (expression,after_ms) ∈ play.log.flatMap (cronCreated id) :=
    List.mem_flatMap.mpr ⟨_,member,by simp [cronCreated]⟩
  cases kept.told id with
  | absent _ uncreated _ =>
    rw [uncreated] at created
    cases created
  | @present known known_after schedule e encoded once parsed valid made own found visits =>
    rw [once] at created
    cases List.mem_singleton.mp created
    refine ⟨e,schedule,parsed,?_,visits⟩
    unfold Store.get_cron_schedule
    rw [show play.session.store.get (cron_key id) = some encoded from found,Option.mapM_some,decode_encoded_cron valid made]
    rfl

end

/-- A schedule for every five minutes: ticks around its first run, then after a reopening
    a tick while it is switched off, and one behind its second run. -/
def createdAndTicked : List (Move CronCall Empty) :=
  [.Call (.CreateCronSchedule calm (some (.filled 7)) "*/5 * * * *".toList (.new [104] [1]) 0),
    .Call (.TickCronSchedules calm (fun _ => some (.filled 1)) (fun _ => 0) 299999 8),
    .Call (.TickCronSchedules calm (fun _ => some (.filled 1)) (fun _ => 0) 300000 8),
    .Reopen calm ["a.vstore"] .default,.Call (.SetCronScheduleEnabled calm (.filled 7) false),
    .Call (.TickCronSchedules calm (fun _ => some (.filled 2)) (fun _ => 0) 600000 8),
    .Call (.SetCronScheduleEnabled calm (.filled 7) true),
    .Call (.TickCronSchedules calm (fun _ => some (.filled 2)) (fun _ => 0) 600001 8)]

/-- The fact is not a tick that failed. -/
def CronFact.succeeds : CronFact → Bool
  | .Returned (.TickCronSchedules _ _ _ _ _) (.error _) => false
  | _ => true

theorem ticks_succeed_of_all {log : List CronFact} (fine : log.all CronFact.succeeds = true) : TicksSucceed log := by
  intro io entropy ties now_ms limit result member
  have ok := List.all_eq_true.mp fine _ member
  cases result with
  | ok reply => exact ⟨reply,rfl⟩
  | error e => cases ok

set_option maxRecDepth 20000 in
theorem created_and_ticked_visits : ∃ store left, @open_with_options crates calm ["a.vstore"] .default [] = .ok store left ∧
    let play := @Play.steps crates _ _ _ _ (@crons crates) ⟨.Idle store,[]⟩ createdAndTicked
    TicksSucceed play.log ∧ ∃ e schedule, CronExpression.parse "*/5 * * * *".toList = .ok e ∧
      play.session.store.get_cron_schedule (.filled 7) = .ok (some schedule) ∧ Visits e 0 [300000,600000] schedule := by
  obtain ⟨store,left,opened⟩ := @sound_opens crates calm [] ["a.vstore"] .default calm_faultless (.inl rfl)
  obtain ⟨-,-,-,empty,-,-⟩ := @new_store crates _ _ _ _ _ opened
  have evaluated : passes (@open_with_options crates calm ["a.vstore"] .default []) (fun store _ =>
        let log := (@Play.steps crates _ _ _ _ (@crons crates) ⟨.Idle store,[]⟩ createdAndTicked).log
        log.all CronFact.succeeds && decide (log.flatMap (cronFired (.filled 7)) = [300000,600000]) &&
          decide (log.flatMap (cronCreated (.filled 7)) = [("*/5 * * * *".toList,0)])) = true := by
    rw [crates_eq_quick]
    decide +kernel
  rw [opened,passes_ok] at evaluated
  simp only [Bool.and_eq_true,decide_eq_true_eq] at evaluated
  obtain ⟨⟨fine,fired⟩,created⟩ := evaluated
  have along : @Play.Along crates _ _ _ _ (@crons crates) cronTerms ⟨.Idle store,[]⟩ createdAndTicked := by
    refine ⟨⟨calm_durable,?_⟩,@along_of_fine crates _ _ _ _ _ cronTerms (fun call => ∀ state, cronTerms.call state call) (fun _ => True) _
      (fun state _ fine => fine state) (fun _ _ _ => trivial) (fun _ _ _ => trivial) ?_ _⟩
    · show store.state[_]? = none
      rw [empty]
      simp
    · intro move member
      simp only [List.mem_cons,List.not_mem_nil,or_false] at member
      rcases member with rfl | rfl | rfl | rfl | rfl | rfl | rfl
      · exact fun _ => ⟨calm_durable,trivial⟩
      · exact fun _ => ⟨calm_durable,trivial⟩
      · exact trivial
      · exact fun _ => ⟨calm_durable,trivial⟩
      · exact fun _ => ⟨calm_durable,trivial⟩
      · exact fun _ => ⟨calm_durable,trivial⟩
      · exact fun _ => ⟨calm_durable,trivial⟩
  have succeeds := ticks_succeed_of_all fine
  refine ⟨store,left,opened,succeeds,?_⟩
  obtain ⟨-,visited⟩ := @cron_visits_in_order crates _ _ _ _ _ opened _ along succeeds
  have member : ("*/5 * * * *".toList,(0 : Int64)) ∈ (@Play.steps crates _ _ _ _ (@crons crates) ⟨.Idle store,[]⟩ createdAndTicked).log.flatMap
      (cronCreated (.filled 7)) := by
    rw [created]
    simp
  obtain ⟨fact,in_log,shown⟩ := List.mem_flatMap.mp member
  unfold cronCreated at shown
  split at shown
  · rename_i io entropy expression job after_ms new
    split at shown
    · rename_i own
      cases List.mem_singleton.mp shown
      subst own
      obtain ⟨e,schedule,parsed,found,visits⟩ := visited _ _ _ _ _ _ in_log
      rw [fired] at visits
      exact ⟨e,schedule,parsed,found,visits⟩
    · cases shown
  · cases shown

/-- The disk takes what stands before the length of a record. -/
def tornHeader : Io := { tornWrite with written := fun _ => 21 }

/-- A schedule, a switch that leaves a part of its record at the end of the file, and two ticks with a reopening between them. -/
def tickedTwiceInTorn : List (Move CronCall Empty) :=
  [.Call (.CreateCronSchedule calm (some (.filled 7)) "*/5 * * * *".toList (.new [104] [1]) 0),
    .Call (.SetCronScheduleEnabled tornHeader (.filled 7) false),
    .Call (.TickCronSchedules calm (fun _ => some (.filled 1)) (fun _ => 0) 300000 8),.Reopen calm ["a.vstore"] .default,
    .Call (.TickCronSchedules calm (fun _ => some (.filled 2)) (fun _ => 0) 300000 8)]

set_option maxRecDepth 20000 in
/-- Both ticks return `Ok`, and the schedule has fired for one time twice. -/
theorem torn_switch_fires_twice : ∃ store left, @open_with_options crates calm ["a.vstore"] .default [] = .ok store left ∧
    let play := @Play.steps crates _ _ _ _ (@crons crates) ⟨.Idle store,[]⟩ tickedTwiceInTorn
    TicksSucceed play.log ∧ play.log.flatMap (cronFired (.filled 7)) = [300000,300000] ∧
      ∀ e schedule, ¬ Visits e 0 (play.log.flatMap (cronFired (.filled 7))) schedule := by
  have evaluated : passes (@open_with_options crates calm ["a.vstore"] .default []) (fun store _ =>
      let log := (@Play.steps crates _ _ _ _ (@crons crates) ⟨.Idle store,[]⟩ tickedTwiceInTorn).log
      log.all CronFact.succeeds && decide (log.flatMap (cronFired (.filled 7)) = [300000,300000])) = true := by
    rw [crates_eq_quick]
    decide +kernel
  obtain ⟨store,left,opened,evaluated⟩ := passes_iff.mp evaluated
  obtain ⟨fine,fired⟩ := Bool.and_eq_true_iff.mp evaluated
  have fired := of_decide_eq_true fired
  refine ⟨store,left,opened,ticks_succeed_of_all fine,fired,?_⟩
  intro e schedule visits
  have rises := visits.rises
  rw [fired] at rises
  simp at rises

end VoodooStore
