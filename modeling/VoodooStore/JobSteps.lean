import VoodooStore.CronScheduler
import VoodooStore.JobRuns
import VoodooStore.Triggers

/-!
# What is done to jobs

Whatever call is made, it writes one job after another, each with at most one
entry of its history. `JobStep` says once what such a write can be, `JobPath` is
a chain of them, and for every call there is the chain that it walks.
-/
namespace VoodooStore
open Effects
set_option linter.unusedSimpArgs false

/-! ## Maps -/

/-- The maps have the same jobs and histories. -/
def SameJobs (s t : State) : Prop := ∀ key, jobSpace key → t[key]? = s[key]?

/-- The map has this job. -/
structure JobIn (s : State) (job : DurableJob) : Prop where
  recorded : job.Recorded
  stored : s[job_key job.id]? = some job.spelling

/-- No active job has this key. -/
def KeyFree (s : State) (key : Bytes) : Prop :=
  ∀ job, JobIn s job → job.state.active = true → job.idempotency_key ≠ some key

/-- The number of the next entry of a history. -/
def nextSequence (s : State) (id : JobId) : Except JobError UInt64 :=
  match (scan s (VoodooStore.history_prefix id)).getLast? with
  | none => .ok 0
  | some (key,_) => do
    let last ← decode_history_sequence id key
    ok_or .HistoryExhausted (last.checked_add 1)

theorem next_sequence_eq (store : Store) (id : JobId) : store.next_history_sequence id = nextSequence store.state id := by
  have scanned := scan_prefix_eq store (VoodooStore.history_prefix id)
  unfold Store.next_history_sequence nextSequence
  cases found : (scan store.state (VoodooStore.history_prefix id)).getLast? with
  | none => simp only [scanned,found]
  | some entry => simp only [scanned,found]

theorem JobBook.has_iff {store : Store} (book : JobBook store.state) {job : DurableJob} : store.HasJob job ↔ JobIn store.state job :=
  book.has.trans ⟨fun ⟨recorded,stored⟩ => ⟨recorded,stored⟩,fun has => ⟨has.recorded,has.stored⟩⟩

section
variable {s t u : State} {a b job : DurableJob} {id : JobId}

/-- There is one job with an id. -/
theorem JobIn.unique (first : JobIn s a) (second : JobIn s b) (same : a.id = b.id) : a = b := by
  have stored := second.stored
  rw [← same,first.stored] at stored
  exact job_spelling_injective first.recorded.stored second.recorded.stored (Option.some.inj stored)

theorem SameJobs.trans (first : SameJobs s t) (second : SameJobs t u) : SameJobs s u :=
  fun key own => (second key own).trans (first key own)

theorem SameJobs.symm (same : SameJobs s t) : SameJobs t s := fun key own => (same key own).symm

theorem job_space_outside {key : Bytes} (own : jobSpace key) : starts_with key CDC_PREFIX = false := by
  rcases own with job | history
  · exact domain_key_outside ⟨JOB_PREFIX,by decide,job⟩
  · exact domain_key_outside ⟨HISTORY_PREFIX,by decide,history⟩

theorem same_jobs_of_data (same : SameData s t) : SameJobs s t := fun key own => same key (job_space_outside own)

theorem SameJobs.job_in (same : SameJobs s t) : JobIn s job ↔ JobIn t job := by
  have here := same _ (job_key_space job.id)
  exact ⟨fun has => ⟨has.recorded,here.trans has.stored⟩,fun has => ⟨has.recorded,here.symm.trans has.stored⟩⟩

theorem SameJobs.key_free (same : SameJobs s t) {key : Bytes} (free : KeyFree s key) : KeyFree t key :=
  fun job has => free job (same.job_in.mpr has)

theorem SameJobs.scan (same : SameJobs s t) (id : JobId) : scan t (VoodooStore.history_prefix id) = scan s (VoodooStore.history_prefix id) :=
  scan_congr (fun key own => same key (.inr ((List.prefix_append HISTORY_PREFIX _).trans ((starts_with_iff _ _).mp own))))

theorem SameJobs.sequence (same : SameJobs s t) (id : JobId) : nextSequence t id = nextSequence s id := by
  unfold nextSequence
  rw [same.scan]

theorem SameJobs.book (same : SameJobs s t) (book : JobBook s) : JobBook t :=
  book.congr (fun key own => same key (.inl ((starts_with_iff _ _).mp own)))

/-- The jobs of a map are those that a scan reads. -/
theorem job_in_iff (book : JobBook s) : JobIn s job ↔ ∃ entry ∈ scan s JOB_PREFIX, decode_job entry.2 = .ok job := by
  constructor
  · intro has
    exact ⟨(job_key job.id,job.spelling),mem_scan.mpr ⟨job_key_own _,has.stored⟩,decode_stored_job has.recorded.stored⟩
  · rintro ⟨⟨key,value⟩,member,decoded⟩
    obtain ⟨own,found⟩ := mem_scan.mp member
    obtain ⟨known,recorded,same⟩ := book key value own found
    cases same
    rw [decode_stored_job recorded.stored] at decoded
    cases decoded
    exact ⟨recorded,found⟩

/-- What the lookup of a key finds. -/
theorem find_active_job_eq {key : Bytes} {jobs : List DurableJob} (recorded : ∀ job ∈ jobs, job.Recorded) :
    find_active_job key (jobs.map jobEntry) =
      .ok ((jobs.find? (fun job => job.state.active ∧ job.idempotency_key = some key)).map DurableJob.id) := by
  induction jobs with
  | nil => rfl
  | cons job jobs ih =>
    rw [List.map_cons,jobEntry,find_active_job,decode_stored_job (recorded job (by simp)).stored,ok_bind]
    by_cases found : job.state.active = true ∧ job.idempotency_key = some key
    · rw [if_pos found,List.find?_cons_of_pos (by simp [found])]
      rfl
    · rw [if_neg found,List.find?_cons_of_neg (by simpa using found)]
      exact ih (fun other member => recorded other (by simp [member]))

theorem find_active_none (book : JobBook s) {key : Bytes} (none_found : find_active_job key (scan s JOB_PREFIX) = .ok none) :
    KeyFree s key := by
  obtain ⟨jobs,listed,recorded⟩ := book.scan
  rw [listed,find_active_job_eq recorded] at none_found
  intro job has active keyed
  have inside : jobEntry job ∈ scan s JOB_PREFIX := mem_scan.mpr ⟨job_key_own _,has.stored⟩
  rw [listed] at inside
  obtain ⟨other,member,same⟩ := List.mem_map.mp inside
  have is := job_spelling_injective (recorded other member).stored has.recorded.stored (Prod.mk.inj same).2
  subst is
  have missing := List.find?_eq_none.mp (Option.map_eq_none_iff.mp (Except.ok.inj none_found)) other member
  simp [active,keyed] at missing

end

/-! ## Steps -/

/-- A job as it is made of a specification. -/
structure DurableJob.Newborn (job : DurableJob) : Prop where
  state : job.state = .Ready
  attempts : job.attempts = 0
  lease_generation : job.lease_generation = 0
  max_attempts : job.max_attempts ≠ 0

/-- The dead job that is to be tried again. -/
def DurableJob.revived (job : DurableJob) (now_ms : Int64) : DurableJob :=
  { job with state := .Ready, available_at_ms := now_ms, attempts := 0, lease_until_ms := 0, lease_generation := 0 }

/-- The job that waits to be tried again. -/
def DurableJob.rescheduled (job : DurableJob) (available_at_ms : Int64) : DurableJob :=
  { job with state := .Ready, available_at_ms, lease_until_ms := 0 }

/-- The job that is done with. -/
def DurableJob.closed (job : DurableJob) (state : DurableJobState) : DurableJob := { job with state, lease_until_ms := 0 }

/-- What can become of a job, and the entry of its history that tells. -/
inductive DurableJob.Becomes (job : DurableJob) : JobHistoryKind → DurableJob → Prop
  | claimed (lease_until_ms : Int64) (active : job.state.active = true) (tries : job.attempts < job.max_attempts) :
      job.Becomes .Claimed (job.leased lease_until_ms)
  | exhausted (active : job.state.active = true) (spent : job.max_attempts ≤ job.attempts) (room : job.attempts.toNat + 1 < 2 ^ 32) :
      job.Becomes .Dead job.exhausted
  | buried (active : job.state.active = true) : job.Becomes .Dead job.buried
  | completed (held : job.state = .Leased) : job.Becomes .Completed (job.closed .Completed)
  | rescheduled (held : job.state = .Leased) (available_at_ms : Int64) : job.Becomes .RetryScheduled (job.rescheduled available_at_ms)
  | revived (dead : job.state = .Dead) (now_ms : Int64) : job.Becomes .RetryScheduled (job.revived now_ms)
  | cancelled (active : job.state.active = true) : job.Becomes .Cancelled (job.closed .Cancelled)

/-- A write of a job. A job may be made for a key that has been looked up before, or
    without a look; its record may also be left without a history. -/
inductive JobFact
  | Submitted (job : DurableJob) (entry : JobHistoryEntry)
  | Scheduled (job : DurableJob) (entry : JobHistoryEntry)
  | Halved (job : DurableJob)
  | Turned (old new : DurableJob) (entry : JobHistoryEntry)
  | Prolonged (old : DurableJob) (lease_until_ms : Int64)

/-- The job that is written. -/
def JobFact.job : JobFact → DurableJob
  | .Submitted job _ => job
  | .Scheduled job _ => job
  | .Halved job => job
  | .Turned _ new _ => new
  | .Prolonged old lease_until_ms => { old with lease_until_ms }

/-- The entry that is written with it. -/
def JobFact.entry : JobFact → Option JobHistoryEntry
  | .Submitted _ entry => some entry
  | .Scheduled _ entry => some entry
  | .Halved _ => none
  | .Turned _ _ entry => some entry
  | .Prolonged _ _ => none

/-- The id of the job that is made. -/
def JobFact.made : JobFact → Option JobId
  | .Submitted job _ => some job.id
  | .Scheduled job _ => some job.id
  | .Halved job => some job.id
  | _ => none

/-- The map with the write. -/
def JobFact.written (fact : JobFact) (s : State) : State :=
  match fact.entry with
  | some entry => (s.insert (job_key fact.job.id) fact.job.spelling).insert (history_key fact.job.id entry.sequence) entry.spelling
  | none => s.insert (job_key fact.job.id) fact.job.spelling

/-- The entry is the first one of a history. -/
structure JobHistoryEntry.First (entry : JobHistoryEntry) : Prop where
  sequence : entry.sequence = 0
  kind : entry.kind = .Submitted

/-- The write may be made. -/
inductive JobFact.Allowed (s : State) : JobFact → Prop
  | submitted {job : DurableJob} {entry : JobHistoryEntry} (new : job.Newborn) (first : entry.First)
      (free : ∀ key, job.idempotency_key = some key → KeyFree s key) : JobFact.Allowed s (.Submitted job entry)
  | scheduled {job : DurableJob} {entry : JobHistoryEntry} (new : job.Newborn) (first : entry.First) :
      JobFact.Allowed s (.Scheduled job entry)
  | halved {job : DurableJob} (new : job.Newborn) (free : ∀ key, job.idempotency_key = some key → KeyFree s key) :
      JobFact.Allowed s (.Halved job)
  | turned {old new : DurableJob} {entry : JobHistoryEntry} (has : JobIn s old) (becomes : old.Becomes entry.kind new)
      (next : nextSequence s old.id = .ok entry.sequence) : JobFact.Allowed s (.Turned old new entry)
  | prolonged {old : DurableJob} (has : JobIn s old) (held : old.state = .Leased) (lease_until_ms : Int64) :
      JobFact.Allowed s (.Prolonged old lease_until_ms)

/-- One write leads from a map to another, up to what is not about jobs. -/
structure JobStep (s : State) (fact : JobFact) (t : State) : Prop where
  allowed : fact.Allowed s
  recorded : fact.job.Recorded
  short : ∀ entry, fact.entry = some entry → entry.detail.length < 2 ^ 32
  leads : SameJobs (fact.written s) t

/-- A chain of writes. -/
inductive JobPath : State → List JobFact → State → Prop
  | stay {s t : State} (same : SameJobs s t) : JobPath s [] t
  | go {s t u : State} {fact : JobFact} {facts : List JobFact} (first : JobStep s fact t) (rest : JobPath t facts u) :
      JobPath s (fact :: facts) u

section
variable {s t u : State} {fact : JobFact} {facts more : List JobFact} {job : DurableJob} {id : JobId}

theorem written_same (same : SameJobs s t) (fact : JobFact) : SameJobs (fact.written s) (fact.written t) := by
  intro key own
  unfold JobFact.written
  cases fact.entry with
  | none => rw [get_insert,get_insert,same key own]
  | some entry => rw [get_insert,get_insert,get_insert,get_insert,same key own]

theorem JobFact.Allowed.same (allowed : fact.Allowed s) (same : SameJobs s t) : fact.Allowed t := by
  cases allowed with
  | submitted new first free => exact .submitted new first (fun key given => same.key_free (free key given))
  | scheduled new first => exact .scheduled new first
  | halved new free => exact .halved new (fun key given => same.key_free (free key given))
  | turned has becomes next => exact .turned (same.job_in.mp has) becomes ((same.sequence _).trans next)
  | prolonged has held lease_until_ms => exact .prolonged (same.job_in.mp has) held lease_until_ms

theorem JobStep.before (same : SameJobs s t) (step : JobStep t fact u) : JobStep s fact u :=
  ⟨step.allowed.same same.symm,step.recorded,step.short,(written_same same fact).trans step.leads⟩

theorem JobStep.behind (step : JobStep s fact t) (same : SameJobs t u) : JobStep s fact u :=
  { step with leads := step.leads.trans same }

theorem JobPath.before (same : SameJobs s t) (path : JobPath t facts u) : JobPath s facts u := by
  cases path with
  | stay rest => exact .stay (same.trans rest)
  | go first rest => exact .go (first.before same) rest

theorem JobPath.trans (path : JobPath s facts t) (rest : JobPath t more u) : JobPath s (facts ++ more) u := by
  induction path with
  | stay same => exact rest.before same
  | go first _ ih => exact .go first (ih rest)

theorem JobPath.one (step : JobStep s fact t) : JobPath s [fact] t := .go step (.stay (fun _ _ => rfl))

theorem JobPath.refl (s : State) : JobPath s [] s := .stay (fun _ _ => rfl)

/-- A write changes the record of its job alone. -/
theorem JobStep.record (step : JobStep s fact t) (id : JobId) :
    t[job_key id]? = if fact.job.id = id then some fact.job.spelling else s[job_key id]? := by
  rw [step.leads _ (job_key_space id)]
  unfold JobFact.written
  have kinds : ∀ sequence, history_key fact.job.id sequence ≠ job_key id := fun sequence => history_not_job (job_key_own id) _ _
  have same : job_key fact.job.id = job_key id ↔ fact.job.id = id := ⟨job_key_injective,congrArg job_key⟩
  cases fact.entry with
  | none => simp only [get_insert,same]
  | some entry => simp only [get_insert,if_neg (kinds _),same]

theorem JobStep.has (step : JobStep s fact t) : JobIn t fact.job := ⟨step.recorded,by rw [step.record]; exact if_pos rfl⟩

theorem JobStep.others (step : JobStep s fact t) (other : fact.job.id ≠ job.id) : JobIn t job ↔ JobIn s job := by
  have here := step.record job.id
  rw [if_neg other] at here
  exact ⟨fun has => ⟨has.recorded,here.symm.trans has.stored⟩,fun has => ⟨has.recorded,here.trans has.stored⟩⟩

/-- What is there after a write is the job that was written, or was there before. -/
theorem JobStep.known (step : JobStep s fact t) (has : JobIn t job) : job = fact.job ∨ fact.job.id ≠ job.id ∧ JobIn s job := by
  by_cases same : fact.job.id = job.id
  · exact .inl (has.unique step.has same.symm)
  · exact .inr ⟨same,(step.others same).mp has⟩

theorem JobStep.book (step : JobStep s fact t) (book : JobBook s) : JobBook t := by
  refine step.leads.book ?_
  have inserted := @Holding.insert _ JOB_PREFIX jobEntry DurableJob.Recorded _ book fact.job step.recorded
  unfold JobFact.written
  cases fact.entry with
  | none => exact inserted
  | some entry => exact JobBook.elsewhere inserted (history_outside _ _)

theorem JobPath.book (path : JobPath s facts t) (book : JobBook s) : JobBook t := by
  induction path with
  | stay same => exact same.book book
  | go first _ ih => exact ih (first.book book)

/-- Writes of others leave a job as it is. -/
theorem JobPath.others (path : JobPath s facts t) (other : ∀ fact ∈ facts, fact.job.id ≠ job.id) : JobIn t job ↔ JobIn s job := by
  induction path with
  | stay same => exact same.job_in.symm
  | go first _ ih => exact (ih (fun fact member => other fact (by simp [member]))).trans (first.others (other _ (by simp)))

end

/-! ## What becomes of a job -/

section
variable {job new : DurableJob} {kind : JobHistoryKind}

theorem DurableJob.Becomes.id (becomes : job.Becomes kind new) : new.id = job.id := by cases becomes <;> rfl

theorem DurableJob.Becomes.key (becomes : job.Becomes kind new) : new.idempotency_key = job.idempotency_key := by
  cases becomes <;> rfl

theorem DurableJob.Becomes.recorded (becomes : job.Becomes kind new) (recorded : job.Recorded) : new.Recorded := by
  cases becomes <;> exact recorded.moved _ _ _ _ _

/-- What is active afterwards was active before, or was dead and is tried again. -/
theorem DurableJob.Becomes.active (becomes : job.Becomes kind new) (active : new.state.active = true) :
    job.state.active = true ∨ job.state = .Dead ∧ kind = .RetryScheduled := by
  cases becomes with
  | claimed lease_until_ms before tries => exact .inl before
  | exhausted => cases active
  | buried => cases active
  | completed => cases active
  | rescheduled held available_at_ms => exact .inl (by simp [DurableJobState.active,held])
  | revived dead now_ms => exact .inr ⟨dead,rfl⟩
  | cancelled => cases active

end

/-! ## Paths with new ids -/

section
variable {s t : State} {fact : JobFact} {facts done : List JobFact}

/-- An allowed write is about a new job, or about one that is there. -/
theorem JobFact.Allowed.known (allowed : fact.Allowed s) : fact.made = some fact.job.id ∨ s[job_key fact.job.id]? ≠ none := by
  cases allowed with
  | submitted => exact .inl rfl
  | scheduled => exact .inl rfl
  | halved => exact .inl rfl
  | @turned old new entry has becomes next =>
    refine .inr ?_
    show s[job_key new.id]? ≠ none
    rw [becomes.id,has.stored]
    simp
  | @prolonged old has held lease_until_ms =>
    refine .inr ?_
    show s[job_key old.id]? ≠ none
    rw [has.stored]
    simp

/-- What is kept by every write that makes no job twice is kept by a path whose new ids are new. -/
theorem JobPath.carries {holds : List JobFact → State → Prop} {ok : JobFact → Prop}
    (same : ∀ done s t, SameJobs s t → holds done s → holds done t)
    (step : ∀ done s fact t, JobStep s fact t → (∀ id, fact.made = some id → s[job_key id]? = none) → ok fact → holds done s →
      holds (done ++ [fact]) t) (path : JobPath s facts t) (distinct : (facts.filterMap JobFact.made).Nodup)
    (fresh : ∀ id ∈ facts.filterMap JobFact.made, s[job_key id]? = none) (oks : ∀ fact ∈ facts, ok fact) (now : holds done s) :
    holds (done ++ facts) t := by
  induction path generalizing done with
  | stay agrees =>
    rw [List.append_nil]
    exact same _ _ _ agrees now
  | @go s middle u fact facts first rest ih =>
    have here : ∀ id, fact.made = some id → s[job_key id]? = none :=
      fun id made => fresh id (List.mem_filterMap.mpr ⟨fact,by simp,made⟩)
    have later : (facts.filterMap JobFact.made).Nodup ∧ ∀ id ∈ facts.filterMap JobFact.made, fact.made ≠ some id := by
      cases made : fact.made with
      | none =>
        rw [List.filterMap_cons_none made] at distinct
        exact ⟨distinct,by simp⟩
      | some id =>
        rw [List.filterMap_cons_some made,List.nodup_cons] at distinct
        refine ⟨distinct.2,?_⟩
        rintro other member ⟨⟩
        exact distinct.1 member
    rw [List.append_cons]
    refine ih later.1 ?_ (fun other member => oks other (by simp [member])) (step done s fact middle first here (oks fact (by simp)) now)
    intro id member
    have unknown : s[job_key id]? = none := by
      obtain ⟨other,inside,made⟩ := List.mem_filterMap.mp member
      exact fresh id (List.mem_filterMap.mpr ⟨other,by simp [inside],made⟩)
    rw [first.record,if_neg]
    · exact unknown
    · rintro rfl
      rcases first.allowed.known with made | known
      · exact later.2 _ member made
      · exact known unknown

end

/-! ## Computations that walk a path -/

section
variable {ε φ α β σ : Type}

/-- The computation makes a chain of writes to the map that is looked at, of which this can be said. -/
def Walks (look : σ → State) (s : σ) (x : EStateM ε σ α) (said : Except ε α → List JobFact → Prop) : Prop :=
  ∃ facts, JobPath (look s) facts (look (after x s)) ∧ said (returned x s) facts

variable {look : σ → State} {s : σ} {x : EStateM ε σ α} {said : Except ε α → List JobFact → Prop}

theorem walks_of_reads (reads : Reads x) (silent : said (returned x s) []) : Walks look s x said := by
  refine ⟨[],?_,silent⟩
  rw [reads s]
  exact .refl _

theorem Walks.mono {more : Except ε α → List JobFact → Prop} (walks : Walks look s x said)
    (weaker : ∀ result facts, said result facts → more result facts) : Walks look s x more := by
  obtain ⟨facts,path,told⟩ := walks
  exact ⟨facts,path,weaker _ _ told⟩

theorem Walks.lifted {y : Except ε β} {f : β → EStateM ε σ α} (fails : ∀ e, y = .error e → said (.error e) [])
    (walks : ∀ b, y = .ok b → Walks look s (f b) said) : Walks look s (lift y >>= f) said := by
  cases y with
  | error e => exact walks_of_reads (reads_throw e) (fails e rfl)
  | ok b => exact walks b rfl

/-- What is read before is known afterwards. -/
theorem Walks.read {y : EStateM ε σ β} {f : β → EStateM ε σ α} (reads : Reads y)
    (fails : ∀ e t, y s = .error e t → said (.error e) []) (walks : ∀ b, y s = .ok b s → Walks look s (f b) said) :
    Walks look s (y >>= f) said := by
  cases result : y s with
  | error e t =>
    refine ⟨[],?_,?_⟩
    · rw [show after (y >>= f) s = s by rw [after,bind_of_error result]; exact reads.error result]
      exact .refl _
    · rw [show returned (y >>= f) s = .error e by rw [returned,bind_of_error result]]
      exact fails e t result
  | ok b t =>
    have same := reads.ok result
    subst same
    unfold Walks after returned
    rw [bind_of_ok result]
    exact walks b result

theorem Walks.rethrow {f : ε → φ} {more : Except φ α → List JobFact → Prop}
    (walks : Walks look s x (fun result facts => more (result.mapError f) facts)) : Walks look s (rethrow f x) more := by
  obtain ⟨facts,path,told⟩ := walks
  refine ⟨facts,?_,?_⟩
  · unfold after Effects.rethrow at *
    cases result : x s <;> rw [result] at path <;> exact path
  · unfold returned Effects.rethrow at *
    cases result : x s <;> rw [result] at told <;> exact told

/-- A chain of writes behind another one. -/
theorem Walks.bind {f : α → EStateM ε σ β} {more : Except ε β → List JobFact → Prop} (first : Walks look s x said)
    (fails : ∀ e facts, said (.error e) facts → more (.error e) facts)
    (second : ∀ a t facts, x s = .ok a t → JobPath (look s) facts (look t) → said (.ok a) facts →
      Walks look t (f a) (fun result rest => more result (facts ++ rest))) : Walks look s (x >>= f) more := by
  obtain ⟨facts,path,told⟩ := first
  unfold after at path
  unfold returned at told
  cases result : x s with
  | error e t =>
    rw [result] at path told
    refine ⟨facts,?_,?_⟩
    · rw [after,bind_of_error result]
      exact path
    · rw [returned,bind_of_error result]
      exact fails e facts told
  | ok a t =>
    rw [result] at path told
    obtain ⟨rest,onward,tells⟩ := second a t facts result path told
    refine ⟨facts ++ rest,?_,?_⟩
    · rw [after,bind_of_ok result]
      exact path.trans onward
    · rw [returned,bind_of_ok result]
      exact tells

theorem Walks.returning {f : α → β} {more : Except ε β → List JobFact → Prop}
    (walks : Walks look s x (fun result facts => more (result.map f) facts)) : Walks look s (do return f (← x)) more := by
  refine walks.bind (fun e facts told => told) (fun a t facts _ _ told => ?_)
  refine walks_of_reads (reads_pure (f a)) ?_
  rw [List.append_nil]
  exact told

end

section
variable [Hashes] {store : Store} {job old new : DurableJob} {entry : JobHistoryEntry}

/-- A job and its entry are written as a whole in the end, or nothing is, or the record alone. -/
theorem write_job_outcome (io : Io) (job : DurableJob) (entry : JobHistoryEntry) (tx : Transaction) :
    (write_job_tx io job entry tx = .ok () (after (write_job_tx io job entry) tx) ∧ job.kept.Recorded ∧ entry.detail.length < 2 ^ 32 ∧
      (after (write_job_tx io job entry) tx).view =
        (tx.view.insert (job_key job.id) job.spelling).insert (history_key job.id entry.sequence) entry.spelling) ∨
    (∃ e, write_job_tx io job entry tx = .error e (after (write_job_tx io job entry) tx)) ∧
      ((after (write_job_tx io job entry) tx).view = tx.view ∨
        job.kept.Recorded ∧ (after (write_job_tx io job entry) tx).view = tx.view.insert (job_key job.id) job.spelling) := by
  cases result : write_job_tx io job entry tx with
  | ok x u =>
    obtain ⟨fits,short,view⟩ := write_job_ok result
    obtain ⟨encoded,made,done⟩ := lift_bind_ok.mp result
    obtain ⟨_,middle,put_job,done⟩ := bind_ok.mp done
    obtain ⟨-,rfl⟩ := encode_job_ok made
    have room := put_internal_short (rethrow_ok.mp put_job)
    rw [← kept_spelling] at room
    rw [after,result]
    exact .inl ⟨rfl,⟨fits.stored,room⟩,short,view⟩
  | error e u =>
    rw [after,result]
    refine .inr ⟨⟨e,rfl⟩,?_⟩
    rcases lift_bind_error.mp result with ⟨-,rfl⟩ | ⟨encoded,made,failed⟩
    · exact .inl rfl
    obtain ⟨fits,rfl⟩ := encode_job_ok made
    rcases bind_error.mp failed with refused | ⟨_,middle,put_job,failed⟩
    · obtain ⟨d,refused,-⟩ := rethrow_error.mp refused
      exact .inl (put_clean io _ _ tx d u refused)
    have room := put_internal_short (rethrow_ok.mp put_job)
    rw [← kept_spelling] at room
    refine .inr ⟨⟨fits.stored,room⟩,?_⟩
    rw [← (put_internal_ok (rethrow_ok.mp put_job)).1]
    rcases lift_bind_error.mp failed with ⟨-,rfl⟩ | ⟨spelled,written,failed⟩
    · rfl
    obtain ⟨d,refused,-⟩ := rethrow_error.mp failed
    exact put_clean io _ _ middle d u refused


/-- A transaction of its own makes the writes of its body, or none. -/
theorem within_walks {ε α : Type} {wrap : EngineError → ε} {io : Io} {body : EStateM ε Transaction α} {told : α → List JobFact → Prop}
    (carries : ∀ tx, Carries tx (after body tx))
    (walks : ∀ tx a u, tx.view = store.state → body tx = .ok a u → ∃ facts, JobPath store.state facts u.view ∧ told a facts) :
    Walks Store.state store (within wrap io body)
      (fun result facts => (∃ e, result = .error e) ∧ facts = [] ∨ ∃ a, result = .ok a ∧ told a facts) := by
  cases result : within wrap io body store with
  | error e t =>
    refine ⟨[],?_,.inl ⟨⟨e,by rw [returned,result]⟩,rfl⟩⟩
    rw [after,result,within_error carries result]
    exact .refl _
  | ok a t =>
    obtain ⟨tx,u,begun,done,same⟩ := within_ok result
    obtain ⟨facts,path,tells⟩ := walks tx a u (begin_view begun).1 done
    refine ⟨facts,?_,.inr ⟨a,by rw [returned,result],tells⟩⟩
    rw [after,result]
    have more := path.trans (.stay (same_jobs_of_data same))
    rwa [List.append_nil] at more

/-- The body of a change of a job makes this write, or fails. -/
theorem write_job_step {io : Io} {tx u : Transaction} {fact : JobFact} {x : Unit} (is : fact.job = job.kept)
    (tells : fact.entry = some entry) (allowed : fact.Allowed tx.view) (done : write_job_tx io job entry tx = .ok x u) :
    JobStep tx.view fact u.view := by
  rcases write_job_outcome io job entry tx with ⟨-,recorded,short,view⟩ | ⟨⟨e,failed⟩,-⟩
  · rw [after,done] at view
    refine ⟨allowed,by rw [is]; exact recorded,?_,?_⟩
    · intro other given
      rw [tells] at given
      cases given
      exact short
    · intro key own
      rw [view]
      unfold JobFact.written
      rw [tells,is,kept_spelling]
      rfl
  · rw [done] at failed
    cases failed

/-- A change of a job that is made, or not. -/
inductive Turns {ε α : Type} (old new : DurableJob) (kind : JobHistoryKind) : Except ε α → List JobFact → Prop
  | made (a : α) (entry : JobHistoryEntry) (is : entry.kind = kind) : Turns old new kind (.ok a) [.Turned old new entry]
  | refused (e : ε) : Turns old new kind (.error e) []

theorem persist_walks {io : Io} {kind : JobHistoryKind} (has : JobIn store.state old) (becomes : old.Becomes kind new) (at_ms : Int64)
    (detail : Bytes) : Walks Store.state store (persist_job_with_history io new at_ms kind detail) (Turns old new kind) := by
  refine .read reads_get (fun e t failed => by cases failed) (fun self read => ?_)
  cases read
  refine .lifted (fun e _ => .refused e) (fun sequence next => ?_)
  rw [next_sequence_eq,becomes.id] at next
  refine Walks.mono (@within_walks _ store _ _ JobError.Store io _ (fun _ facts => facts = [.Turned old new ⟨sequence,at_ms,kind,detail⟩])
    (write_job_confined io new _).carries ?_) ?_
  · intro tx x u sees done
    rw [← sees] at has next ⊢
    have step : JobStep tx.view (.Turned old new ⟨sequence,at_ms,kind,detail⟩) u.view :=
      write_job_step (becomes.recorded has.recorded).stored.kept.symm rfl (.turned has becomes next) done
    exact ⟨_,.one step,rfl⟩
  · rintro result facts (⟨⟨e,rfl⟩,rfl⟩ | ⟨⟨⟩,rfl,rfl⟩)
    · exact .refused e
    · exact .made () _ rfl

/-- A lease is prolonged, or not. -/
theorem prolong_walks {io : Io} (has : JobIn store.state old) (held : old.state = .Leased) (lease_until_ms : Int64) :
    Walks Store.state store (persist_job io { old with lease_until_ms })
      (fun result facts => (∃ e, result = .error e) ∧ facts = [] ∨ result = .ok () ∧ facts = [.Prolonged old lease_until_ms]) := by
  have recorded : DurableJob.Recorded { old with lease_until_ms } := has.recorded.moved _ _ _ _ _
  refine .lifted (fun e _ => .inl ⟨⟨e,rfl⟩,rfl⟩) (fun encoded made => .rethrow ?_)
  obtain ⟨-,rfl⟩ := encode_job_ok made
  refine Walks.mono (@within_walks _ store _ _ (fun e : EngineError => e) io _ (fun _ facts => facts = [.Prolonged old lease_until_ms])
    (@put_confined (fun _ => True) _ io _ trivial _).carries ?_) ?_
  · intro tx x u sees done
    refine ⟨_,.one ⟨.prolonged has held lease_until_ms,recorded,(fun _ given => nomatch given),?_⟩,rfl⟩
    intro key own
    rw [(put_internal_ok done).1,sees]
    rfl
  · rintro result facts (⟨⟨e,rfl⟩,rfl⟩ | ⟨⟨⟩,rfl,rfl⟩)
    · exact .inl ⟨⟨_,rfl⟩,rfl⟩
    · exact .inr ⟨rfl,rfl⟩

end

end VoodooStore
