import VoodooStore.ScheduleRuns

/-!
# Schedules that stop a tick

A tick ends with the first schedule whose next run cannot be counted in
milliseconds, and those behind it in the order of the keys are not fired. Where
the store has room, nothing else stops it (`tick_fires_all_iff`).
-/
namespace VoodooStore
open Effects
set_option linter.unusedSimpArgs false

/-! ## Runs that can be counted -/

/-- The interval and the first run behind the time are times of the clock. -/
def DurableSchedule.Countable (schedule : DurableSchedule) (now_ms : Int64) : Prop :=
  match schedule.mode with
  | .Once => True
  | .Interval every_ms => every_ms.toNat < 2 ^ 63 ∧
    schedule.next_run_ms.toInt + ((now_ms.toInt - schedule.next_run_ms.toInt) / every_ms.toNat + 1) * every_ms.toNat < 2 ^ 63

instance (schedule : DurableSchedule) (now_ms : Int64) : Decidable (schedule.Countable now_ms) :=
  match mode : schedule.mode with
  | .Once => .isTrue (by rw [DurableSchedule.Countable,mode]; trivial)
  | .Interval every_ms => decidable_of_iff (every_ms.toNat < 2 ^ 63 ∧
      schedule.next_run_ms.toInt + ((now_ms.toInt - schedule.next_run_ms.toInt) / every_ms.toNat + 1) * every_ms.toNat < 2 ^ 63)
    (by rw [DurableSchedule.Countable,mode])

/-- The number of steps to the first point behind a time that is not before the start. -/
theorem first_behind_steps {start every time : Int} {k : Nat} (positive : 0 < every) (due : start ≤ time)
    (behind : time < start + k * every) (before : ∀ j : Nat, j < k → start + j * every ≤ time) :
    (time - start) / every + 1 = k := by
  have some_step : 0 < k := by
    rcases Nat.eq_zero_or_pos k with rfl | some
    · push_cast at behind
      omega
    · exact some
  have last := before (k - 1) (by omega)
  rw [Nat.cast_sub (by omega)] at last
  push_cast at last
  have low : (k : Int) - 1 ≤ (time - start) / every := by
    apply (Int.le_ediv_iff_mul_le positive).mpr
    linarith
  have high : (time - start) / every < k := by
    apply (Int.ediv_lt_iff_lt_mul positive).mpr
    linarith
  omega

theorem advanced_iff_countable {schedule : DurableSchedule} {now_ms : Int64} (stored : schedule.Stored)
    (due : schedule.next_run_ms ≤ now_ms) : (∃ next, schedule.advanced now_ms = .ok next) ↔ schedule.Countable now_ms := by
  unfold DurableSchedule.advanced DurableSchedule.Countable
  cases mode : schedule.mode with
  | Once => exact ⟨fun _ => trivial,fun _ => ⟨_,rfl⟩⟩
  | Interval every_ms =>
    dsimp only
    by_cases small : every_ms.toNat < 2 ^ 63
    · have positive := interval_positive stored mode
      have tried : Int64.try_from every_ms = some (Int64.ofNat every_ms.toNat) := if_pos small
      have value : (Int64.ofNat every_ms.toNat).toInt = every_ms.toNat := Int64.toInt_ofNat_of_lt small
      have least := schedule.next_run_ms.le_toInt
      rw [Int64.le_iff_toInt_le] at due
      obtain ⟨k,behind,before,ends⟩ := @first_run_ends now_ms (Int64.ofNat every_ms.toNat) (by omega) USIZE schedule.next_run_ms
        (by decide) (by rw [USIZE]; omega)
      rw [value] at behind
      simp only [value] at before
      rw [tried,first_behind_steps positive due behind before]
      show (∃ next, ((first_run_after now_ms (Int64.ofNat every_ms.toNat) USIZE schedule.next_run_ms).getD _ >>= _) = _) ↔ _
      rcases ends with ⟨t,found,ok⟩ | ⟨far,failed⟩
      · rw [ok]
        rw [value] at found
        refine ⟨fun _ => ⟨small,?_⟩,fun _ => ⟨_,rfl⟩⟩
        rw [← found]
        exact t.toInt_lt
      · rw [failed]
        rw [value] at far
        constructor
        · rintro ⟨next,absurd⟩
          cases absurd
        · rintro ⟨-,near⟩
          omega
    · have refused : Int64.try_from every_ms = none := if_neg small
      rw [refused]
      constructor
      · rintro ⟨next,absurd⟩
        cases absurd
      · rintro ⟨fits,-⟩
        exact absurd fits small

theorem get_schedule_listed {store : Store} {id : ScheduleId} {schedule : DurableSchedule}
    (got : store.get_schedule id = .ok (some schedule)) :
    ∃ entry ∈ Store.scan_prefix store SCHEDULE_PREFIX, decode_schedule entry.2 = .ok schedule := by
  unfold Store.get_schedule at got
  cases there : store.get (schedule_key id) with
  | none =>
    rw [there] at got
    cases got
  | some value =>
    rw [there] at got
    obtain ⟨same,decoded,is⟩ := mapM_some got
    cases is
    refine ⟨(schedule_key id,value),?_,decoded⟩
    rw [scan_prefix_eq]
    exact mem_scan.mpr ⟨schedule_key_own id,there⟩

/-! ## Ticks with room -/

/-- The job of a run of a schedule that was accepted fits its record. -/
theorem occurrence_storable {schedule : DurableSchedule} (stored : schedule.Stored) (accepted : schedule.Accepted) (id : JobId) :
    let job := { schedule.occurrence.template with id }
    job.Fits ∧ Storable (job_key id,job.spelling) := by
  intro job
  have short := accepted.short
  have template := job_spelling_length schedule.job.template
  have spelled := job_spelling_length job
  have keys : (spelledKey job.idempotency_key).length ≤ (spelledKey schedule.job.template.idempotency_key).length + 8 := by
    show (spelledKey (schedule.job.idempotency_key.map _)).length ≤ (spelledKey schedule.job.idempotency_key).length + 8
    cases schedule.job.idempotency_key with
    | none => simp [spelledKey]
    | some key =>
      simp [spelledKey,Int64.to_be_bytes]
      omega
  have handler : job.handler = schedule.job.template.handler := rfl
  have payload : job.payload = schedule.job.template.payload := rfl
  rw [handler,payload] at spelled
  simp only [DurableSchedule.spelling,List.length_append,List.length_singleton,schedule.id.property,i64_to_le_length,counted_length,
    schedule_key,SCHEDULE_PREFIX,INTERNAL_KEY_PREFIX] at short
  have key_long : (job_key id).length = 30 := by simp [job_key,JOB_PREFIX,INTERNAL_KEY_PREFIX,ascii,id.property]
  have front_long : (ascii "schedule:data:").length = 14 := by decide
  have five : ([0xff,118,100,115,58] : Bytes).length = 5 := rfl
  rw [front_long,five] at short
  rw [JOB_FIXED] at template spelled
  refine ⟨⟨stored.job.fits.handler,stored.job.fits.payload,?_⟩,?_,?_⟩
  · intro key given
    have long : (spelledKey (some key)).length = 5 + key.length := by
      simp [spelledKey]
      omega
    rw [given,long] at keys
    omega
  · show (job_key id).length + 100 < 2 ^ 32
    omega
  · show 4 + ((job_key id).length + job.spelling.length) < 2 ^ 32
    omega

section
variable [Hashes]

/-- The entries of a run: the job, its history and the schedule. -/
def fireEntries (job : DurableJob) (now_ms : Int64) (schedule : DurableSchedule) : List (Bytes × Bytes) :=
  [(job_key job.id,job.spelling),
    (history_key job.id 0,(JobHistoryEntry.mk 0 now_ms .Submitted (ascii "scheduled")).spelling),
    (schedule_key schedule.id,schedule.spelling)]

theorem fire_schedule_tx_eq {io : Io} {job : DurableJob} {now_ms : Int64} {schedule : DurableSchedule} (fits : job.Fits)
    (stored : schedule.Stored) :
    fire_schedule_tx io job now_ms schedule = rethrow .Store (put_entries io (fireEntries job now_ms schedule)) := by
  have short : (ascii "scheduled").length < 2 ^ 32 := by decide
  have history : encode_history ⟨0,now_ms,.Submitted,ascii "scheduled"⟩ =
      .ok (JobHistoryEntry.mk 0 now_ms .Submitted (ascii "scheduled")).spelling := encode_history_fits short
  unfold fire_schedule_tx write_job_tx append_history_tx fireEntries
  rw [encode_job_fits fits,history,encode_stored_schedule stored]
  simp only [put_entries,rethrow_bind,lift_ok_bind,bind_assoc,rethrow_pure,bind_pure_unit]

/-- A schedule that is due is fired, if its next run can be counted. -/
theorem fire_schedule_succeeds {io : Io} {drawn : ByteArr 16} {now_ms : Int64} {schedule : DurableSchedule} {store : Store}
    {transactions records : Nat} (faultless : io.Faultless) (stored : schedule.Stored) (accepted : schedule.Accepted)
    (due : schedule.next_run_ms ≤ now_ms) (countable : schedule.Countable now_ms) (roomy : Roomy store (transactions + 1) (records + 7)) :
    ∃ t, fire_schedule io (some drawn) now_ms schedule store = .ok drawn t ∧ Roomy t transactions records := by
  obtain ⟨next,advanced⟩ := (advanced_iff_countable stored due).mpr countable
  obtain ⟨next_stored,-,-⟩ := advanced_stored stored advanced
  have next_accepted := advanced_accepted stored accepted advanced
  obtain ⟨fits,storable⟩ := occurrence_storable stored accepted drawn
  have valid : validate_job_spec schedule.occurrence = .ok () := accepted.job
  have built : build_job schedule.occurrence (some drawn) = .ok { schedule.occurrence.template with id := drawn } := by
    rw [build_job,valid]
    rfl
  have all : ∀ entry ∈ fireEntries { schedule.occurrence.template with id := drawn } now_ms next, Storable entry := by
    intro entry member
    rcases List.mem_cons.mp member with rfl | member
    · exact storable
    · rcases List.mem_cons.mp member with rfl | member
      · have key_long : (history_key drawn 0).length = 41 := by
          simp [history_key, history_prefix,HISTORY_PREFIX,INTERNAL_KEY_PREFIX,ascii,drawn.property]
        have value_long : (JobHistoryEntry.mk 0 now_ms .Submitted (ascii "scheduled")).spelling.length = 31 := by
          simp [JobHistoryEntry.spelling,ascii]
        constructor
        · show (history_key drawn 0).length + 100 < 2 ^ 32
          omega
        · show 4 + ((history_key drawn 0).length + (JobHistoryEntry.mk 0 now_ms .Submitted (ascii "scheduled")).spelling.length) < 2 ^ 32
          omega
      · rcases List.mem_singleton.mp member with rfl
        have key_long : (schedule_key next.id).length = 35 := by
          simp [schedule_key,SCHEDULE_PREFIX,INTERNAL_KEY_PREFIX,ascii,next.id.property]
        refine ⟨?_,next_accepted.short⟩
        show (schedule_key next.id).length + 100 < 2 ^ 32
        omega
  obtain ⟨t,done,left⟩ := @within_puts_succeeds _ _ JobError.Store io store
    (fireEntries { schedule.occurrence.template with id := drawn } now_ms next) faultless all (by simp [fireEntries]) transactions records roomy
  refine ⟨t,?_,left⟩
  unfold fire_schedule
  rw [built,lift_ok_bind,advanced,lift_ok_bind,fire_schedule_tx_eq fits next_stored,bind_of_ok done]
  rfl

/-- With room, a tick whose runs can all be counted succeeds. -/
theorem tick_each_succeeds {io : Io} {entropy : Nat → Option (ByteArr 16)} {now_ms : Int64} {limit fired : Nat}
    {schedules : List DurableSchedule} {store : Store} (faultless : io.Faultless)
    (drawn : ∀ k, k < fired + schedules.length → ∃ id, entropy k = some id) (enough : fired + schedules.length ≤ limit)
    (stored : ∀ schedule ∈ schedules, schedule.Stored ∧ schedule.Accepted)
    (countable : ∀ schedule ∈ schedules, schedule.enabled = true → schedule.next_run_ms ≤ now_ms → schedule.Countable now_ms)
    (roomy : Roomy store schedules.length (7 * schedules.length)) :
    ∃ n t, tick_each io entropy now_ms limit fired (schedules.map scheduleEntry) store = .ok n t := by
  induction schedules generalizing fired store with
  | nil => exact ⟨fired,store,rfl⟩
  | cons schedule schedules ih =>
    rw [List.length_cons] at drawn enough roomy
    obtain ⟨fits,accepted⟩ := stored schedule (by simp)
    have later := fun other member => stored other (List.mem_cons_of_mem schedule member)
    have countable_later := fun other member => countable other (List.mem_cons_of_mem schedule member)
    have decoded : decode_schedule (scheduleEntry schedule).2 = .ok schedule := decode_schedule_spelling fits
    have more : fired ≠ limit := by omega
    rw [List.map_cons]
    by_cases passed : !schedule.enabled ∨ schedule.next_run_ms > now_ms
    · rw [tick_each_passes decoded more passed]
      refine ih (fun k small => drawn k (by omega)) (by omega) later countable_later ?_
      exact ⟨roomy.unlimited,by have := roomy.tx_ids; omega,by have := roomy.sequences; omega⟩
    · have enabled : schedule.enabled = true := by
        by_contra off
        exact passed (.inl (by simpa using off))
      have due : schedule.next_run_ms ≤ now_ms := by
        by_contra late
        exact passed (.inr (Int64.not_le.mp late))
      obtain ⟨id,draws⟩ := drawn fired (by omega)
      obtain ⟨t,fires,left⟩ := @fire_schedule_succeeds _ io id now_ms schedule store schedules.length (7 * schedules.length) faultless fits
        accepted due (countable schedule (by simp) enabled due) roomy
      rw [tick_each_due decoded more passed,draws,bind_of_ok fires]
      exact ih (fun k small => drawn k (by omega)) (by omega) later countable_later left

/-- A run that is due and cannot be counted stops the tick. -/
theorem tick_each_blocked {io : Io} {entropy : Nat → Option (ByteArr 16)} {now_ms : Int64} {limit fired : Nat}
    {schedules : List DurableSchedule} {store : Store} (enough : fired + schedules.length ≤ limit)
    (stored : ∀ schedule ∈ schedules, schedule.Stored) {blocking : DurableSchedule} (member : blocking ∈ schedules)
    (enabled : blocking.enabled = true) (due : blocking.next_run_ms ≤ now_ms) (uncountable : ¬ blocking.Countable now_ms) :
    ∃ e t, tick_each io entropy now_ms limit fired (schedules.map scheduleEntry) store = .error e t := by
  induction schedules generalizing fired store with
  | nil => cases member
  | cons schedule schedules ih =>
    rw [List.length_cons] at enough
    have decoded : decode_schedule (scheduleEntry schedule).2 = .ok schedule := decode_schedule_spelling (stored schedule (by simp))
    have later := fun other member => stored other (List.mem_cons_of_mem schedule member)
    have more : fired ≠ limit := by omega
    rw [List.map_cons]
    by_cases passed : !schedule.enabled ∨ schedule.next_run_ms > now_ms
    · rw [tick_each_passes decoded more passed]
      rcases List.mem_cons.mp member with rfl | behind
      · rcases passed with off | late
        · simp [enabled] at off
        · exact absurd due (Int64.not_le.mpr late)
      · exact ih (by omega) later behind
    · rw [tick_each_due decoded more passed]
      cases fires : fire_schedule io (entropy fired) now_ms schedule store with
      | error e t => exact ⟨e,t,bind_of_error fires⟩
      | ok job t =>
        rw [bind_of_ok fires]
        rcases List.mem_cons.mp member with rfl | behind
        · -- Firing it takes its next run.
          obtain ⟨built,_,fires⟩ := lift_bind_ok.mp fires
          obtain ⟨next,advanced,_⟩ := lift_bind_ok.mp fires
          exact absurd ((advanced_iff_countable (stored blocking (by simp)) due).mp ⟨next,advanced⟩) uncountable
        · exact ih (by omega) later behind

/-- The jobs that are new are one for each schedule that was enabled and due. -/
structure OneJobEach (store t : Store) (now_ms : Int64) (fs : List Firing) : Prop where
  each : ∀ id schedule, store.get_schedule id = .ok (some schedule) →
    (schedule.enabled = true ∧ schedule.next_run_ms ≤ now_ms ↔ ∃ f ∈ fs, f.schedule = id)
  once : (fs.map Firing.schedule).Nodup
  apart : (fs.map Firing.job).Nodup
  jobs : ∀ id, t.get (job_key id) ≠ store.get (job_key id) ↔ id ∈ fs.map Firing.job
  made : ∀ f ∈ fs, store.get_job f.job = .ok none ∧ ∃ job, t.get_job f.job = .ok (some job) ∧ job.available_at_ms = f.at_ms

/-- The tick succeeds and makes one job for each schedule that is enabled and due. -/
def FiresAll (store : Store) (io : Io) (entropy : Nat → Option (ByteArr 16)) (now_ms : Int64) (limit : Nat) : Prop :=
  ∃ report t fs, tick_schedules io entropy now_ms limit store = .ok report t ∧ report.fired = fs.length ∧ OneJobEach store t now_ms fs

/-- What a tick does that succeeds before it is full. -/
theorem ticked_one_job_each {store t : Store} {io : Io} {entropy : Nat → Option (ByteArr 16)} {now_ms : Int64} {limit : Nat}
    {report : SchedulerTickReport} (sound : store.Sound) (whole : fragment store.file = []) (book : ScheduleBook store.state)
    (durable : io.Durable) (fresh : Fresh entropy store.state) (enough : (scan store.state SCHEDULE_PREFIX).length ≤ limit)
    (done : tick_schedules io entropy now_ms limit store = .ok report t) :
    ∃ fs, report.fired = fs.length ∧ OneJobEach store t now_ms fs := by
  have fair : (ScheduleCall.TickSchedules io entropy now_ms limit).Fair store.state := ⟨durable,fresh⟩
  obtain ⟨leads,-⟩ := ScheduleCall.leads sound whole book fair
  obtain ⟨apart,unused⟩ := @firings_nodup _ io entropy now_ms limit (Store.scan_prefix store SCHEDULE_PREFIX) store _ fresh
  obtain ⟨schedules,listed,distinct,in_map,all⟩ := book.listed
  have stored := fun schedule member => (in_map schedule member).1
  obtain ⟨inside,sources⟩ := @firings_from _ io entropy now_ms limit 0 schedules store stored
  rw [← after_tick,after,done,ScheduleCall.told,scan_prefix_eq,listed] at leads
  rw [scan_prefix_eq,listed] at apart unused
  rw [listed,List.length_map] at enough
  have once := inside.nodup distinct
  unfold tick_schedules at done
  rw [get_bind,scan_prefix_eq,listed] at done
  obtain ⟨n,u,ticked,done⟩ := bind_ok.mp done
  cases done
  obtain ⟨counted,fires⟩ := tick_each_complete stored ticked
  refine ⟨_,by rw [counted,Nat.zero_add],?_,once,apart,?_,?_⟩
  · intro id schedule got
    obtain ⟨fits,rfl,found⟩ := book.get got
    constructor
    · rintro ⟨enabled,due⟩
      obtain ⟨job,member⟩ := fires (.inr (by omega)) schedule (all schedule fits found) enabled due
      exact ⟨_,member,rfl⟩
    · rintro ⟨f,member,own⟩
      obtain ⟨source,known,source_own,-,enabled,due⟩ := sources f member
      obtain ⟨source_fits,source_found⟩ := in_map source known
      -- The source of the run is the record of that id.
      rw [source_own,own,found] at source_found
      have read := decode_schedule_spelling source_fits
      rw [← Option.some.inj source_found,decode_schedule_spelling fits] at read
      cases read
      exact ⟨enabled,due⟩
  · intro id
    constructor
    · intro changed
      by_contra missing
      exact changed (leads_other_job leads missing)
    · intro member same
      obtain ⟨f,known,rfl⟩ := List.mem_map.mp member
      obtain ⟨⟨job,-,-,found⟩,-⟩ := leads_fired leads once apart known
      rw [show t.get (job_key f.job) = _ from found,show store.get (job_key f.job) = none from unused f known] at same
      cases same
  · intro f member
    obtain ⟨⟨job,fits,available,found⟩,-⟩ := leads_fired leads once apart member
    refine ⟨?_,job.kept,get_job_spelled fits found,available⟩
    unfold Store.get_job
    rw [show store.get (job_key f.job) = none from unused f member]
    rfl

/-- After any run on a new store, a tick with room for all schedules succeeds and makes one job
    for each that is enabled and due, exactly if the next run of each of these can be counted. -/
theorem tick_fires_all_iff {io : Io} {path : Path} {options : StoreOptions} {store : Store} {left : Bytes}
    (opened : open_with_options io path options [] = .ok store left) {moves : List (Move ScheduleMove (Io × Operation))}
    (along : (Play.mk (.Idle store) []).Along schedules scheduleTerms moves) {now : Store}
    (idle : (Play.steps schedules ⟨.Idle store,[]⟩ moves).session = .Idle now) {tick_io : Io} {entropy : Nat → Option (ByteArr 16)}
    {now_ms : Int64} {limit : Nat} (faultless : tick_io.Faultless) (fresh : Fresh entropy now.state)
    (drawn : ∀ k, k < (Store.scan_prefix now SCHEDULE_PREFIX).length → ∃ id, entropy k = some id)
    (roomy : Roomy now (Store.scan_prefix now SCHEDULE_PREFIX).length (7 * (Store.scan_prefix now SCHEDULE_PREFIX).length))
    (enough : (Store.scan_prefix now SCHEDULE_PREFIX).length ≤ limit) :
    FiresAll now tick_io entropy now_ms limit ↔ ∀ id schedule, now.get_schedule id = .ok (some schedule) → schedule.enabled = true →
      schedule.next_run_ms ≤ now_ms → schedule.Countable now_ms := by
  obtain ⟨sound,-,whole,empty,-,-⟩ := new_store opened
  obtain ⟨held,kept,-⟩ := schedule_play_kept (schedule_play_start sound whole empty) along
  have now_sound := held.session
  have now_whole := held.whole
  rw [idle] at now_sound now_whole kept
  have book : ScheduleBook now.state := kept.book
  obtain ⟨schedules,listed,distinct,in_map,all⟩ := book.listed
  have size : (Store.scan_prefix now SCHEDULE_PREFIX).length = schedules.length := by rw [scan_prefix_eq,listed,List.length_map]
  rw [size] at drawn roomy enough
  have run : tick_schedules tick_io entropy now_ms limit now =
      (do return ⟨schedules.length,← tick_each tick_io entropy now_ms limit 0 (schedules.map scheduleEntry)⟩ :
        EStateM JobError Store SchedulerTickReport) now := by
    unfold tick_schedules
    rw [get_bind,size,scan_prefix_eq,listed]
  constructor
  · rintro ⟨report,t,fs,done,-⟩ id schedule got enabled due
    by_contra uncountable
    obtain ⟨fits,rfl,found⟩ := book.get got
    obtain ⟨e,u,failed⟩ := @tick_each_blocked _ tick_io entropy now_ms limit 0 schedules now (by omega)
      (fun schedule member => (in_map schedule member).1) schedule (all schedule fits found) enabled due uncountable
    rw [run,bind_of_error failed] at done
    cases done
  · intro countable
    have durable : tick_io.Durable := ⟨faultless.writes_whole,fun _ => faultless.1 _⟩
    obtain ⟨n,t,done⟩ := @tick_each_succeeds _ tick_io entropy now_ms limit 0 schedules now faultless (by simpa using drawn) (by omega)
      (fun schedule member => ⟨(in_map schedule member).1,kept.accepted schedule (in_map schedule member).1 (in_map schedule member).2⟩)
      (fun schedule member => countable schedule.id schedule (get_schedule_spelled (in_map schedule member).1 (in_map schedule member).2)) roomy
    have ticked : tick_schedules tick_io entropy now_ms limit now = .ok ⟨schedules.length,n⟩ t := by
      rw [run,bind_of_ok done]
      rfl
    obtain ⟨fs,reported,one⟩ := ticked_one_job_each now_sound now_whole book durable fresh (by rw [listed,List.length_map]; exact enough) ticked
    exact ⟨_,t,fs,ticked,reported,one⟩

end

/-- Two ids are drawn. -/
def drawsTwo (k : Nat) : Option (ByteArr 16) := if k < 2 then some (.filled (.ofNat k)) else none

theorem draws_two_fresh {state : State} (unused : ∀ k, k < 2 → state[job_key ⟨List.replicate 16 (.ofNat k),rfl⟩]? = none) :
    Fresh drawsTwo state := by
  constructor
  · intro k id drawn
    unfold drawsTwo at drawn
    split at drawn
    · cases drawn
      exact unused k (by assumption)
    · cases drawn
  · intro k l id first second
    unfold drawsTwo at first second
    split at first
    · split at second
      · rename_i small small'
        rw [← second] at first
        interval_cases k <;> interval_cases l <;> first | rfl | (exact absurd first (by decide))
      · cases second
    · cases first

/-- A schedule with this interval, and behind it one that runs once. -/
def createdTwo (every_ms : UInt64) : List (Move ScheduleMove (Io × Operation)) :=
  [.Call (.Run (.CreateSchedule calm (some (.filled 1)) (.new [104] [1]) (.Interval every_ms) 0)),
    .Call (.Run (.CreateSchedule calm (some (.filled 2)) (.new [104] [1]) .Once 0))]

theorem created_two_along [Hashes] {every_ms : UInt64} {store : Store}
    (first : store.state = ∅)
    (second : (Play.steps schedules ⟨.Idle store,[]⟩ ((createdTwo every_ms).take 1)).session.store.state[schedule_key ⟨List.replicate 16 2,rfl⟩]? = none) :
    (Play.mk (.Idle store) []).Along schedules scheduleTerms (createdTwo every_ms) := by
  refine ⟨⟨calm_durable,?_⟩,⟨calm_durable,?_⟩,trivial⟩
  · rintro id ⟨⟩
    show store.state[_]? = none
    rw [first]
    simp
  · rintro id ⟨⟩
    exact second

set_option maxRecDepth 20000 in
/-- With a small interval both schedules are fired. -/
theorem small_interval_fires_all : ∃ store left now, @open_with_options crates calm ["a.vstore"] .default [] = .ok store left ∧
    (@Play.steps crates _ _ _ _ (@schedules crates) ⟨.Idle store,[]⟩ (createdTwo 10)).session = .Idle now ∧
    (Store.scan_prefix now SCHEDULE_PREFIX).length = 2 ∧ @FiresAll crates now calm drawsTwo 27 8 := by
  obtain ⟨store,left,opened⟩ := @sound_opens crates calm [] ["a.vstore"] .default calm_faultless (.inl rfl)
  obtain ⟨-,-,-,empty,-,-⟩ := @new_store crates _ _ _ _ _ opened
  have evaluated : passes (@open_with_options crates calm ["a.vstore"] .default []) (fun store _ =>
        let play := fun n => @Play.steps crates _ _ _ _ (@schedules crates) ⟨.Idle store,[]⟩ ((createdTwo 10).take n)
        let now := (play 2).session.store
        decide ((play 1).session.store.state[schedule_key ⟨List.replicate 16 2,rfl⟩]? = none) &&
          (List.range 2).all (fun k => decide (now.state[job_key ⟨List.replicate 16 (.ofNat k),rfl⟩]? = none)) &&
          decide ((Store.scan_prefix now SCHEDULE_PREFIX).length = 2) &&
          (Store.scan_prefix now SCHEDULE_PREFIX).all (fun entry => (decode_schedule entry.2).toOption.any (fun schedule => schedule.Countable 27)) &&
          decide (now.options.max_bytes = none ∧ now.options.namespace_max_bytes = none ∧ now.next_tx_id.toNat + 2 < 2 ^ 64 ∧
            now.next_sequence.toNat + 14 < 2 ^ 64)) = true := by
    decide +kernel
  rw [opened,passes_ok] at evaluated
  simp only [Bool.and_eq_true,decide_eq_true_eq,List.all_eq_true,List.mem_range] at evaluated
  obtain ⟨⟨⟨⟨fresh,unused⟩,two⟩,countable⟩,no_bytes,no_namespaces,tx_ids,sequences⟩ := evaluated
  obtain ⟨now,idle⟩ : ∃ now, (@Play.steps crates _ _ _ _ (@schedules crates) ⟨.Idle store,[]⟩ (createdTwo 10)).session = .Idle now :=
    ⟨_,rfl⟩
  have at_now : (@Play.steps crates _ _ _ _ (@schedules crates) ⟨.Idle store,[]⟩ ((createdTwo 10).take 2)).session.store = now :=
    congrArg Session.store idle
  rw [at_now] at two tx_ids sequences no_bytes no_namespaces countable
  simp only [at_now] at unused
  refine ⟨store,left,now,opened,idle,two,?_⟩
  refine (@tick_fires_all_iff crates _ _ _ _ _ opened _ (@created_two_along crates _ _ empty fresh) _ idle calm drawsTwo 27 8 calm_faultless
    (draws_two_fresh unused) ?_ ?_ ?_).mpr ?_
  · rw [two]
    intro k small
    exact ⟨_,if_pos small⟩
  · rw [two]
    exact ⟨⟨no_bytes,no_namespaces⟩,tx_ids,sequences⟩
  · rw [two]
    decide
  · intro id schedule got enabled due
    obtain ⟨entry,member,decoded⟩ := get_schedule_listed got
    have counted := countable entry member
    rw [decoded] at counted
    exact of_decide_eq_true counted

set_option maxRecDepth 20000 in
/-- An interval that is accepted and cannot be counted stops every tick. -/
theorem huge_interval_blocks : ∃ store left now, @open_with_options crates calm ["a.vstore"] .default [] = .ok store left ∧
    @Play.Along crates _ _ _ _ (@schedules crates) scheduleTerms ⟨.Idle store,[]⟩ (createdTwo (2 ^ 63)) ∧
    (@Play.steps crates _ _ _ _ (@schedules crates) ⟨.Idle store,[]⟩ (createdTwo (2 ^ 63))).session = .Idle now ∧
    scheduleFacts (@Play.steps crates _ _ _ _ (@schedules crates) ⟨.Idle store,[]⟩ (createdTwo (2 ^ 63))).log =
      [.Created ⟨List.replicate 16 1,rfl⟩ (.Interval (2 ^ 63)) 0,.Created ⟨List.replicate 16 2,rfl⟩ .Once 0] ∧
    (Store.scan_prefix now SCHEDULE_PREFIX).length ≤ 8 ∧ ¬ @FiresAll crates now calm drawsTwo 0 8 := by
  obtain ⟨store,left,opened⟩ := @sound_opens crates calm [] ["a.vstore"] .default calm_faultless (.inl rfl)
  obtain ⟨-,-,-,empty,-,-⟩ := @new_store crates _ _ _ _ _ opened
  have evaluated : passes (@open_with_options crates calm ["a.vstore"] .default []) (fun store _ =>
        let play := fun n => @Play.steps crates _ _ _ _ (@schedules crates) ⟨.Idle store,[]⟩ ((createdTwo (2 ^ 63)).take n)
        decide ((play 1).session.store.state[schedule_key ⟨List.replicate 16 2,rfl⟩]? = none) &&
          decide (scheduleFacts (play 2).log =
            [.Created ⟨List.replicate 16 1,rfl⟩ (.Interval (2 ^ 63)) 0,.Created ⟨List.replicate 16 2,rfl⟩ .Once 0]) &&
          decide ((Store.scan_prefix (play 2).session.store SCHEDULE_PREFIX).length ≤ 8) &&
          decide (failure (@tick_schedules crates calm drawsTwo 0 8 (play 2).session.store) = some .TimeOverflow)) = true := by
    decide +kernel
  rw [opened,passes_ok] at evaluated
  simp only [Bool.and_eq_true,decide_eq_true_eq] at evaluated
  obtain ⟨⟨⟨fresh,facts⟩,few⟩,failed⟩ := evaluated
  refine ⟨store,left,_,opened,@created_two_along crates _ _ empty fresh,rfl,facts,few,?_⟩
  rintro ⟨report,t,fs,done,-⟩
  have again : @tick_schedules crates calm drawsTwo 0 8
      (@Play.steps crates _ _ _ _ (@schedules crates) ⟨.Idle store,[]⟩ ((createdTwo (2 ^ 63)).take 2)).session.store = .ok report t := done
  rw [again] at failed
  cases failed

end VoodooStore
