import VoodooStore.JobLeases

/-!
# The jobs of cron schedules

A tick of the cron schedules submits a job for a run that is due and then moves the
schedule on, in two transactions. Where it is interrupted between them it comes back
to the same run, and only a job that still holds the key of the run tells it that there
is one. As long as there is, no run has two jobs (`one_job_a_run`).
-/
namespace VoodooStore
open Effects
set_option linter.unusedSimpArgs false

/-! ## One tick -/

theorem jobs_in_iff {s : State} (book : JobBook s) {job : DurableJob} : job ∈ jobsIn s ↔ JobIn s job := by
  rw [job_in_iff book]
  unfold jobsIn
  rw [List.mem_filterMap]
  constructor
  · rintro ⟨entry,member,read⟩
    refine ⟨entry,member,?_⟩
    cases decoded : decode_job entry.2 with
    | error e =>
      rw [decoded] at read
      cases read
    | ok other =>
      rw [decoded] at read
      exact congrArg Except.ok (Option.some.inj read)
  · rintro ⟨entry,member,decoded⟩
    exact ⟨entry,member,by rw [decoded]; rfl⟩

/-- A key that is free is held by nobody. -/
theorem KeyFree.unheld {s : State} {key : Bytes} (free : KeyFree s key) (book : JobBook s) : key ∉ heldKeys s := by
  intro held
  unfold heldKeys at held
  obtain ⟨job,member,keyed⟩ := List.mem_filterMap.mp held
  obtain ⟨inside,active⟩ := List.mem_filter.mp member
  exact free job ((jobs_in_iff book).mp inside) active keyed

/-- Two jobs of a map have different ids. -/
theorem jobs_in_distinct {store : Store} (book : JobBook store.state) : ((jobsIn store.state).map DurableJob.id).Nodup := by
  obtain ⟨jobs,listed,known,distinct⟩ := book.jobs
  rw [scan_prefix_eq] at listed
  have same : jobsIn store.state = jobs := by
    unfold jobsIn
    rw [listed,List.filterMap_map]
    clear listed distinct
    induction jobs with
    | nil => rfl
    | cons job jobs ih =>
      have read : ((fun entry : Bytes × Bytes => (decode_job entry.2).toOption) ∘ jobEntry) job = some job := by
        show (decode_job job.spelling).toOption = some job
        rw [decode_stored_job (known job (by simp)).1.stored]
        rfl
      rw [List.filterMap_cons_some read,ih (fun other member => known other (by simp [member]))]
  rw [same]
  exact distinct

/-- What is known when some of the jobs of a tick have been made. -/
structure Making (s : State) (done : List JobFact) (now : State) : Prop where
  each : ∀ job entry, .Submitted job entry ∈ done → JobIn now job ∧ job.state.active = true ∧ ∀ key, job.idempotency_key = some key → KeyFree s key
  apart : ∀ a b x y key, .Submitted a x ∈ done → .Submitted b y ∈ done → a.idempotency_key = some key → b.idempotency_key = some key → a = b
  stays : ∀ job, JobIn s job → JobIn now job
  known : ∀ job, JobIn now job → JobIn s job ∨ ∃ entry, .Submitted job entry ∈ done

theorem Making.same {s now next : State} {done : List JobFact} (making : Making s done now) (same : SameJobs now next) : Making s done next where
  each := fun job entry member => ⟨same.job_in.mp (making.each job entry member).1,(making.each job entry member).2⟩
  apart := making.apart
  stays := fun job has => same.job_in.mp (making.stays job has)
  known := fun job has => making.known job (same.job_in.mpr has)

/-- A job that is submitted has a key of its own. -/
theorem Making.step {s now next : State} {done : List JobFact} {made : DurableJob} {entry : JobHistoryEntry} (making : Making s done now)
    (step : JobStep now (.Submitted made entry) next) (fresh : now[job_key made.id]? = none) :
    Making s (done ++ [.Submitted made entry]) next := by
  have other : ∀ job, JobIn now job → made.id ≠ job.id := by
    intro job has same
    have stored := has.stored
    rw [← same,fresh] at stored
    cases stored
  have kept : ∀ job, JobIn now job → JobIn next job := fun job has => (step.others (other job has)).mpr has
  cases step.allowed with
  | submitted new first free =>
    have unlike : ∀ job entry key, .Submitted job entry ∈ done → job.idempotency_key = some key → made.idempotency_key ≠ some key := by
      intro job entry key member keyed same
      obtain ⟨has,active,-⟩ := making.each job entry member
      exact free key same job has active keyed
    refine ⟨?_,?_,fun job has => kept job (making.stays job has),?_⟩
    · intro job other member
      rcases List.mem_append.mp member with early | last
      · obtain ⟨has,active,unheld⟩ := making.each job other early
        exact ⟨kept job has,active,unheld⟩
      · cases List.mem_singleton.mp last
        exact ⟨step.has,by rw [new.state]; rfl,fun key keyed job has => free key keyed job (making.stays job has)⟩
    · intro a b x y key first second keyed same
      rcases List.mem_append.mp first with early | last
      · rcases List.mem_append.mp second with before | behind
        · exact making.apart a b x y key early before keyed same
        · cases List.mem_singleton.mp behind
          exact absurd same (unlike a x key early keyed)
      · cases List.mem_singleton.mp last
        rcases List.mem_append.mp second with before | behind
        · exact absurd keyed (unlike b y key before same)
        · cases List.mem_singleton.mp behind
          rfl
    · intro job has
      rcases step.known has with rfl | ⟨-,before⟩
      · exact .inr ⟨entry,by simp [JobFact.job]⟩
      · rcases making.known job before with was | ⟨told,member⟩
        · exact .inl was
        · exact .inr ⟨told,by simp [member]⟩

theorem making_path {s t : State} {facts : List JobFact} (path : JobPath s facts t) (only : ∀ fact ∈ facts, ∃ job entry, fact = .Submitted job entry)
    (distinct : (facts.filterMap JobFact.made).Nodup) (fresh : ∀ id ∈ facts.filterMap JobFact.made, s[job_key id]? = none) : Making s facts t := by
  have starts : Making s [] s := ⟨by simp,by simp,fun job has => has,fun job has => .inl has⟩
  have carried := @JobPath.carries s t facts [] (Making s) (fun fact => ∃ job entry, fact = .Submitted job entry)
    (fun done s t same making => making.same same) ?_ path distinct fresh only starts
  · exact carried
  · rintro done now fact next step fresh ⟨job,entry,rfl⟩ making
    exact making.step step (fresh _ rfl)

/-- The jobs that are new after a tick. -/
theorem Making.between {s : State} {t : Store} {facts : List JobFact} (making : Making s facts t.state) (book : JobBook t.state) {job : DurableJob}
    (member : job ∈ jobsBetween s t.state) : ∃ entry, .Submitted job entry ∈ facts := by
  unfold jobsBetween at member
  obtain ⟨inside,new⟩ := List.mem_filter.mp member
  rcases making.known job ((jobs_in_iff book).mp inside) with was | made
  · have stored := was.stored
    rw [of_decide_eq_true new] at stored
    cases stored
  · exact made

theorem jobs_between_distinct {s : State} {t : Store} (book : JobBook t.state) : (jobsBetween s t.state).Pairwise (fun a b => a ≠ b) := by
  have distinct := (jobs_in_distinct book).sublist ((@List.filter_sublist _ (fun job => s[job_key job.id]? = none) _).map DurableJob.id)
  rw [List.Nodup,List.pairwise_map] at distinct
  exact distinct.imp (fun apart same => apart (congrArg DurableJob.id same))

/-! ## Runs -/

/-- The jobs that ticks of the cron schedules have made. -/
def tickMade (log : List JobEvent) : List DurableJob :=
  log.flatMap (fun event => match event with | .Returned (.TickCronSchedules _ _ _ _ _) (.ok (.Ticked _ _ made)) => made | _ => [])

/-- Whenever a tick comes to a run for which there has been a job, the key of the run is held. -/
def Prompt (log : List JobEvent) : Prop :=
  ∀ before call due held made after, log = before ++ .Returned call (.ok (.Ticked due held made)) :: after →
    ∀ job ∈ tickMade before, ∀ key ∈ due, job.idempotency_key = some key → key ∈ held

/-- The ids are new. -/
def tickTerms : Terms JobUseError JobUse JobTxUse JobTold where
  mine := jobSpace
  call state call := call.io.Durable ∧ FreshDraws state call.draws
  callTx _ call := call.io.Durable
  commit _ := True

/-- The keys of the jobs that were made are those of runs, and all different. -/
structure OneEach (log : List JobEvent) : Prop where
  keyed : ∀ job ∈ tickMade log, ∃ id at_ms, job.idempotency_key = some (occurrence_key id at_ms)
  distinct : (tickMade log).Pairwise (fun a b => a.idempotency_key ≠ b.idempotency_key)

theorem tick_made_snoc (log : List JobEvent) (event : JobEvent) : tickMade (log ++ [event]) = tickMade log ++ tickMade [event] := by
  unfold tickMade
  rw [List.flatMap_append]

theorem Prompt.before {log : List JobEvent} {event : JobEvent} (prompt : Prompt (log ++ [event])) : Prompt log := by
  intro before call due held made after split
  exact prompt before call due held made (after ++ [event]) (by rw [split]; simp)

/-- An event that is no tick. -/
theorem OneEach.silent {log : List JobEvent} {event : JobEvent} (silent : tickMade [event] = []) (kept : Prompt log → OneEach log)
    (prompt : Prompt (log ++ [event])) : OneEach (log ++ [event]) := by
  have now := kept prompt.before
  constructor
  · rw [tick_made_snoc,silent,List.append_nil]
    exact now.keyed
  · rw [tick_made_snoc,silent,List.append_nil]
    exact now.distinct

theorem due_occurrences_keys {now_ms : Int64} {schedules : List DurableCronSchedule} {key : Bytes}
    (due : key ∈ dueOccurrences now_ms schedules) : ∃ id at_ms, key = occurrence_key id at_ms := by
  obtain ⟨schedule,-,rfl⟩ := List.mem_map.mp due
  exact ⟨schedule.id,schedule.next_run_ms,rfl⟩

/-- What a tick makes has keys of due runs, which were free and are all different. -/
theorem OneEach.tick {io : Io} {entropy : Nat → Option (ByteArr 16)} {ties : DurableCronSchedule → Nat} {now_ms : Int64} {limit : Nat}
    {store t : Store} {told : Except JobUseError JobTold} {facts : List JobFact} {log : List JobEvent}
    (does : Does store (.TickCronSchedules io entropy ties now_ms limit) told facts) (path : JobPath store.state facts t.state)
    (book : JobBook store.state) (fresh : FreshDraws store.state (JobUse.draws (.TickCronSchedules io entropy ties now_ms limit)))
    (kept : Prompt log → OneEach log)
    (prompt : Prompt (log ++ [Happened.Returned (.TickCronSchedules io entropy ties now_ms limit) (.ok (watchTick ties now_ms limit store t))])) :
    OneEach (log ++ [Happened.Returned (.TickCronSchedules io entropy ties now_ms limit) (.ok (watchTick ties now_ms limit store t))]) := by
  have now := kept prompt.before
  obtain ⟨distinct,unknown⟩ := fresh.path does.drawn
  have only : ∀ fact ∈ facts, ∃ job entry, fact = .Submitted job entry := by
    intro fact member
    obtain ⟨job,entry,-,-,is,-⟩ := does.ticked _ _ _ _ _ rfl fact member
    exact ⟨job,entry,is⟩
  have making := making_path path only distinct unknown
  have keyed : ∀ job ∈ jobsBetween store.state t.state, ∃ entry key schedules, .Submitted job entry ∈ facts ∧
      job.idempotency_key = some key ∧ store.list_cron_schedules ties = .ok schedules ∧ key ∈ (dueOccurrences now_ms schedules).take limit := by
    intro job member
    obtain ⟨entry,made⟩ := making.between (path.book book) member
    obtain ⟨other,told,key,schedules,is,holds,listed,due⟩ := does.ticked _ _ _ _ _ rfl _ made
    cases is
    exact ⟨entry,key,schedules,made,holds,listed,due⟩
  have last : tickMade [.Returned (.TickCronSchedules io entropy ties now_ms limit) (.ok (watchTick ties now_ms limit store t))] =
      jobsBetween store.state t.state := List.append_nil _
  constructor
  · rw [tick_made_snoc,last]
    intro job member
    rcases List.mem_append.mp member with early | made
    · exact now.keyed job early
    · obtain ⟨entry,key,schedules,inside,holds,-,due⟩ := keyed job made
      obtain ⟨id,at_ms,rfl⟩ := due_occurrences_keys (List.mem_of_mem_take due)
      exact ⟨id,at_ms,holds⟩
  · rw [tick_made_snoc,last,List.pairwise_append]
    refine ⟨now.distinct,?_,?_⟩
    · refine (jobs_between_distinct (path.book book)).imp_of_mem (fun {a b} first second apart same => apart ?_)
      obtain ⟨x,key,-,inside,holds,-⟩ := keyed a first
      obtain ⟨y,-,-,there,-⟩ := keyed b second
      exact making.apart a b x y key inside there holds (by rw [← same]; exact holds)
    · intro old early job made same
      obtain ⟨entry,key,schedules,inside,holds,listed,due⟩ := keyed job made
      have free : KeyFree store.state key := (making.each job entry inside).2.2 key holds
      refine free.unheld book (prompt log _ _ _ _ [] rfl old early key ?_ (same.trans holds))
      rw [listed]
      exact due

section
variable [Hashes]

theorem ticks_preserved : Preserved jobLife tickTerms (fun state view log =>
    (JobBook state ∧ ∀ seen, view = some seen → JobBook seen) ∧ (Prompt log → OneEach log)) := by
  refine job_life_preserved (fun key own => own) (fun state call ok => ok.1) (fun view call ok => ok) ?_ ?_ ?_ ?_ ?_ ?_
  · rintro call store log facts ⟨-,fresh⟩ book path does kept
    cases call with
    | TickCronSchedules io entropy ties now_ms limit => exact OneEach.tick does path book fresh kept
    | Job call => exact OneEach.silent rfl kept
    | FireTrigger io entropy id event_payload now_ms => exact OneEach.silent rfl kept
  · exact fun state log kept => OneEach.silent rfl kept
  · exact fun call state view next log facts _ _ _ _ kept => OneEach.silent rfl kept
  · exact fun state view next log _ kept => kept
  · exact fun state view next log _ _ kept => OneEach.silent rfl kept
  · exact fun state view log kept => OneEach.silent rfl kept

/-- As long as the key of a run for which there has been a job is held whenever a tick comes
    to that run again, no run of a schedule has two jobs. -/
theorem one_job_a_run {io : Io} {path : Path} {options : StoreOptions} {store : Store} {left : Bytes}
    (opened : open_with_options io path options [] = .ok store left) {moves : List (Move JobUse JobTxUse)}
    (along : (Play.mk (.Idle store) []).Along jobLife tickTerms moves) {log : List JobEvent}
    (seen : (Play.steps jobLife ⟨.Idle store,[]⟩ moves).log = log) (prompt : Prompt log) :
    (∀ job ∈ tickMade log, ∃ id at_ms, job.idempotency_key = some (occurrence_key id at_ms)) ∧
      ∀ id at_ms, ((tickMade log).filter (fun job => job.idempotency_key = some (occurrence_key id at_ms))).length ≤ 1 := by
  have starts : (JobBook ∅ ∧ ∀ seen, (none : Option State) = some seen → JobBook seen) ∧ (Prompt [] → OneEach []) :=
    ⟨⟨holding_empty _ _ _,by simp⟩,fun _ => ⟨by simp [tickMade],.nil⟩⟩
  obtain ⟨-,kept⟩ := (play_invariant ticks_preserved starts opened along).holds
  rw [seen] at kept
  have one := kept prompt
  refine ⟨one.keyed,fun id at_ms => ?_⟩
  have apart := one.distinct.sublist (@List.filter_sublist _ (fun job => job.idempotency_key = some (occurrence_key id at_ms)) _)
  by_contra several
  match found : (tickMade log).filter (fun job => job.idempotency_key = some (occurrence_key id at_ms)) with
  | [] => simp [found] at several
  | [_] => simp [found] at several
  | a :: b :: rest =>
    have first : a ∈ a :: b :: rest := by simp
    have second : b ∈ a :: b :: rest := by simp
    rw [← found] at first second
    rw [found] at apart
    have same : a.idempotency_key = b.idempotency_key := by
      rw [of_decide_eq_true (List.mem_filter.mp first).2,of_decide_eq_true (List.mem_filter.mp second).2]
    exact absurd same (List.rel_of_pairwise_cons apart (by simp))

end

/-- Checks the ticks of a log one after another. -/
def promptly (made : List DurableJob) : List JobEvent → Bool
  | [] => true
  | event :: log => (match event with
      | .Returned _ (.ok (.Ticked due held _)) =>
        made.all (fun job => due.all (fun key => decide (job.idempotency_key = some key → key ∈ held)))
      | _ => true) && promptly (made ++ tickMade [event]) log

theorem prompt_of_promptly {log : List JobEvent} (checked : promptly [] log = true) : Prompt log := by
  have general : ∀ (log : List JobEvent) made, promptly made log = true → ∀ before call due held jobs after,
      log = before ++ .Returned call (.ok (.Ticked due held jobs)) :: after →
      ∀ job ∈ made ++ tickMade before, ∀ key ∈ due, job.idempotency_key = some key → key ∈ held := by
    intro log
    induction log with
    | nil =>
      intro made _ before call due held jobs after split
      simp at split
    | cons event log ih =>
      intro made checked before call due held jobs after split job member key inside keyed
      obtain ⟨here,later⟩ := Bool.and_eq_true_iff.mp checked
      cases before with
      | nil =>
        cases split
        rw [show made ++ tickMade [] = made from List.append_nil _] at member
        exact of_decide_eq_true (List.all_eq_true.mp (List.all_eq_true.mp here job member) key inside) keyed
      | cons first before =>
        cases split
        refine ih _ later before call due held jobs after rfl job ?_ key inside keyed
        rw [List.append_assoc,show tickMade [event] ++ tickMade before = tickMade (event :: before) by simp [tickMade]]
        exact member
  exact general log [] checked

/-- A schedule for every five minutes, as it is written when it is made. -/
def fiveMinutes : DurableCronSchedule := ⟨.filled 7,ascii "*/5 * * * *",.new [104] [1],300000,true,0,none⟩

/-- The schedule is there. -/
def scheduleWritten : List (Move JobUse JobTxUse) :=
  [.Begin,.Write calm (.Put (cron_key fiveMinutes.id) (match encode_cron_schedule fiveMinutes with | .ok encoded => encoded | .error _ => [])),
    .Commit calm]

/-- The file cannot be reached when the schedule is to be moved on. -/
def lostCursor : Io := { calm with fails := fun call => if call = .append_seek 10 then some ⟨.Other,"seek"⟩ else none }

theorem lost_cursor_durable : lostCursor.Durable := ⟨fun sequence => by simp [lostCursor],fun tx_id => by simp [lostCursor]⟩

def drawsOnce (id : JobId) (n : Nat) : Option (ByteArr 16) := if n = 0 then some id else none

/-- A tick that is interrupted, and another one after the store has been opened again. -/
def tickedAgain : List (Move JobUse JobTxUse) :=
  [.Call (.TickCronSchedules lostCursor (drawsOnce (.filled 1)) (fun _ => 0) 300000 10),.Reopen calm ["a.vstore"] .default,
    .Call (.TickCronSchedules calm (fun _ => none) (fun _ => 0) 300001 10)]

/-- The store has no job with this id, and nothing is open. -/
def lacksJob (session : Session) (id : JobId) : Bool :=
  match session with
  | .Idle store => decide (store.state[job_key id]? = none)
  | .Busy _ => false

theorem ticked_again_along [Hashes] {store : Store}
    (lacks : lacksJob (Play.steps jobLife ⟨.Idle store,[]⟩ scheduleWritten).session ⟨List.replicate 16 1,rfl⟩ = true) :
    (Play.mk (.Idle store) []).Along jobLife tickTerms (scheduleWritten ++ tickedAgain) := by
  have quiet : ∀ state call, (call.io.Durable ∧ ∀ n, JobUse.draws call n = none) → tickTerms.call state call := by
    rintro state call ⟨durable,silent⟩
    refine ⟨durable,fun n id drawn => ?_,fun m n id drawn => ?_⟩
    · rw [silent] at drawn
      cases drawn
    · rw [silent] at drawn
      cases drawn
  refine Play.along_append.mpr ⟨?_,?_⟩
  · refine @along_of_fine _ _ _ _ _ _ _ _ _ _ quiet (fun _ _ none => none) (fun _ _ _ => trivial) ?_ _
    intro move member
    simp only [scheduleWritten,List.mem_cons,List.not_mem_nil,or_false] at member
    rcases member with rfl | rfl | rfl
    · exact trivial
    · refine ⟨calm_durable,?_⟩
      rintro (job | history)
      · exact prefixes_apart (by decide) job (List.prefix_append CRON_PREFIX fiveMinutes.id.val)
      · exact prefixes_apart (by decide) history (List.prefix_append CRON_PREFIX fiveMinutes.id.val)
    · exact calm_durable
  · generalize Play.steps jobLife ⟨.Idle store,[]⟩ scheduleWritten = play at lacks
    obtain ⟨session,log⟩ := play
    cases session with
    | Busy tx => cases lacks
    | Idle store =>
      refine ⟨⟨lost_cursor_durable,fun n id drawn => ?_,fun m n id first second => ?_⟩,?_⟩
      · simp only [JobUse.draws,drawsOnce] at drawn
        split at drawn
        · cases drawn
          exact of_decide_eq_true lacks
        · cases drawn
      · simp only [JobUse.draws,drawsOnce] at first second
        split at first
        · split at second
          · omega
          · cases second
        · cases first
      · refine @along_of_fine _ _ _ _ _ _ _ _ _ _ quiet (fun _ _ none => none) (fun _ _ _ => trivial) ?_ _
        intro move member
        simp only [List.mem_cons,List.not_mem_nil,or_false] at member
        rcases member with rfl | rfl
        · exact trivial
        · exact ⟨calm_durable,fun _ => rfl⟩

set_option maxRecDepth 20000 in
/-- The second tick finds the job of the first one. -/
theorem interrupted_tick_makes_one_job : ∃ store left, @open_with_options crates calm ["a.vstore"] .default [] = .ok store left ∧
    let log := (@Play.steps crates _ _ _ _ (@jobLife crates) ⟨.Idle store,[]⟩ (scheduleWritten ++ tickedAgain)).log
    (tickMade log).map DurableJob.id = [⟨List.replicate 16 1,rfl⟩] ∧
      ∀ id at_ms, ((tickMade log).filter (fun job => job.idempotency_key = some (occurrence_key id at_ms))).length ≤ 1 := by
  obtain ⟨store,left,opened⟩ := @sound_opens crates calm [] ["a.vstore"] .default calm_faultless (.inl rfl)
  have evaluated : passes (@open_with_options crates calm ["a.vstore"] .default []) (fun store _ =>
        let log := (@Play.steps crates _ _ _ _ (@jobLife crates) ⟨.Idle store,[]⟩ (scheduleWritten ++ tickedAgain)).log
        lacksJob (@Play.steps crates _ _ _ _ (@jobLife crates) ⟨.Idle store,[]⟩ scheduleWritten).session ⟨List.replicate 16 1,rfl⟩ &&
          promptly [] log && decide ((tickMade log).map DurableJob.id = [⟨List.replicate 16 1,rfl⟩])) = true := by
    rw [crates_eq_quick]
    decide +kernel
  rw [opened,passes_ok] at evaluated
  obtain ⟨⟨lacks,checked⟩,made⟩ := (Bool.and_eq_true_iff.mp evaluated).imp_left Bool.and_eq_true_iff.mp
  obtain ⟨-,one⟩ := @one_job_a_run crates _ _ _ _ _ opened _ (@ticked_again_along crates store lacks) _ rfl (prompt_of_promptly checked)
  exact ⟨store,left,opened,of_decide_eq_true made,one⟩

/-- A tick that is interrupted, and another one after the job of the first one is done. -/
def tickedTooLate : List (Move JobUse JobTxUse) :=
  [.Call (.TickCronSchedules lostCursor (drawsOnce (.filled 1)) (fun _ => 0) 300000 10),
    .Call (.Job (.ClaimJobForHandlers calm 300000 10 [])),.Call (.Job (.CompleteJob calm (.filled 1) 1 300000)),
    .Call (.TickCronSchedules calm (drawsOnce (.filled 2)) (fun _ => 0) 300001 10)]

set_option maxRecDepth 20000 in
/-- The same run has two jobs. -/
theorem late_tick_makes_second_job : lostCursor.Durable ∧
    ∃ store left, @open_with_options crates calm ["a.vstore"] .default [] = .ok store left ∧
      let log := (@Play.steps crates _ _ _ _ (@jobLife crates) ⟨.Idle store,[]⟩ (scheduleWritten ++ tickedTooLate)).log
      ((tickMade log).filter (fun job => job.idempotency_key = some (occurrence_key fiveMinutes.id 300000))).map DurableJob.id =
        [⟨List.replicate 16 1,rfl⟩,⟨List.replicate 16 2,rfl⟩] := by
  refine ⟨lost_cursor_durable,?_⟩
  obtain ⟨store,left,opened⟩ := @sound_opens crates calm [] ["a.vstore"] .default calm_faultless (.inl rfl)
  have evaluated : passes (@open_with_options crates calm ["a.vstore"] .default []) (fun store _ =>
        let log := (@Play.steps crates _ _ _ _ (@jobLife crates) ⟨.Idle store,[]⟩ (scheduleWritten ++ tickedTooLate)).log
        decide (((tickMade log).filter (fun job => job.idempotency_key = some (occurrence_key fiveMinutes.id 300000))).map DurableJob.id =
          [⟨List.replicate 16 1,rfl⟩,⟨List.replicate 16 2,rfl⟩])) = true := by
    rw [crates_eq_quick]
    decide +kernel
  rw [opened,passes_ok] at evaluated
  exact ⟨store,left,opened,of_decide_eq_true evaluated⟩

end VoodooStore
