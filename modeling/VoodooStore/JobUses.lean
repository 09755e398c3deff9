import VoodooStore.ApiCalls
import VoodooStore.JobSteps

/-!
# The uses of jobs

Workers, clients, schedules, triggers and transactions all use the same jobs. For
every such call there is the chain of writes that it makes, and what it tells of
them (`job_use_does`).
-/
namespace VoodooStore
open Effects
set_option linter.unusedSimpArgs false

/-! ## What is seen of a write -/

/-- The lease that is handed out. -/
def JobFact.handed : JobFact → Option (JobId × UInt32)
  | .Turned _ new entry => if entry.kind = .Claimed then some (new.id,new.lease_generation) else none
  | _ => none

/-- The dead job that is tried again, and the number of the entry that tells. -/
def JobFact.again : JobFact → Option (JobId × UInt64)
  | .Turned old _ entry => if old.state = .Dead then some (old.id,entry.sequence) else none
  | _ => none

/-- The key of a job that is made without a look. -/
def JobFact.scheduled : JobFact → Option (Option Bytes)
  | .Scheduled job _ => some job.idempotency_key
  | _ => none

/-- An active job is worked on. -/
def JobFact.Worked : JobFact → Prop
  | .Turned old _ _ => old.state.active = true
  | .Prolonged _ _ => True
  | _ => False

theorem active_not_dead {state : DurableJobState} (active : state.active = true) : state ≠ .Dead := by
  rintro rfl
  cases active

theorem held_active {state : DurableJobState} (held : state = .Leased) : state.active = true := by
  rw [held]
  rfl

section
variable {fact : JobFact}

theorem JobFact.Worked.again (worked : fact.Worked) : fact.again = none := by
  cases fact with
  | Turned old new entry => exact if_neg (active_not_dead worked)
  | Prolonged old lease_until_ms => rfl
  | _ => exact worked.elim

theorem JobFact.Worked.made (worked : fact.Worked) : fact.made = none := by
  cases fact with
  | Turned old new entry => rfl
  | Prolonged old lease_until_ms => rfl
  | _ => exact worked.elim

theorem JobFact.Worked.scheduled (worked : fact.Worked) : fact.scheduled = none := by
  cases fact with
  | Turned old new entry => rfl
  | Prolonged old lease_until_ms => rfl
  | _ => exact worked.elim

end

/-! ## The calls on jobs -/

theorem find_existing_free {store : Store} (book : JobBook store.state) {given : Option Bytes}
    (none_found : find_existing given store = .ok none store) : ∀ key, given = some key → KeyFree store.state key := by
  rintro key rfl
  unfold find_existing at none_found
  dsimp only at none_found
  rw [get_bind] at none_found
  obtain ⟨looked,-⟩ := lift_eq_ok.mp none_found
  unfold Store.find_active_job_by_idempotency at looked
  rw [scan_prefix_eq] at looked
  exact find_active_none book looked

theorem build_job_ok {spec : JobSpec} {entropy : Option (ByteArr 16)} {job : DurableJob} (built : build_job spec entropy = .ok job) :
    job.kept.Newborn ∧ entropy = some job.id ∧ job.idempotency_key = spec.idempotency_key := by
  obtain ⟨⟨⟩,valid,built⟩ := bind_ok_iff.mp built
  obtain ⟨id,drawn,built⟩ := bind_ok_iff.mp built
  cases built
  have tries : spec.max_attempts ≠ 0 := by
    unfold validate_job_spec at valid
    split at valid
    · cases valid
    split at valid
    · cases valid
    · assumption
  refine ⟨?_,ok_or_ok.mp drawn,rfl⟩
  unfold DurableJob.kept
  split
  · exact ⟨rfl,rfl,rfl,tries⟩
  · exact ⟨rfl,rfl,rfl,tries⟩

theorem kept_id (job : DurableJob) : job.kept.id = job.id := by
  unfold DurableJob.kept
  split <;> rfl

theorem kept_key (job : DurableJob) : job.kept.idempotency_key = job.idempotency_key := by
  unfold DurableJob.kept
  split <;> rfl

section
variable [Hashes] {store : Store} {io : Io}

theorem submit_walks (book : JobBook store.state) (entropy : Option (ByteArr 16)) (spec : JobSpec) (now_ms : Int64) :
    Walks Store.state store (submit_job io entropy spec now_ms) (fun _ facts => facts = [] ∨ ∃ job entry,
      facts = [.Submitted job entry] ∧ entropy = some job.id ∧ job.idempotency_key = spec.idempotency_key) := by
  rw [submit_job_eq]
  refine .lifted (fun _ _ => .inl rfl) (fun _ _ => .read (find_existing_reads _) (fun _ _ _ => .inl rfl) (fun existing looked => ?_))
  cases existing with
  | some id => exact walks_of_reads (reads_pure id) (.inl rfl)
  | none =>
    refine .lifted (fun _ _ => .inl rfl) (fun job built => Walks.returning ?_)
    obtain ⟨new,drawn,keyed⟩ := build_job_ok built
    refine Walks.mono (@within_walks _ store _ _ JobError.Store io _
      (fun _ facts => facts = [.Submitted job.kept ⟨0,now_ms,.Submitted,[]⟩]) (write_job_confined io job _).carries ?_) ?_
    · intro tx x u sees done
      have free := find_existing_free book looked
      rw [← sees] at free ⊢
      rw [← keyed,← kept_key] at free
      have step : JobStep tx.view (.Submitted job.kept ⟨0,now_ms,.Submitted,[]⟩) u.view :=
        write_job_step rfl rfl (.submitted new ⟨rfl,rfl⟩ free) done
      exact ⟨_,.one step,rfl⟩
    · rintro result facts (⟨-,rfl⟩ | ⟨⟨⟩,-,rfl⟩)
      · exact .inl rfl
      · exact .inr ⟨_,_,rfl,by rw [kept_id]; exact drawn,by rw [kept_key]; exact keyed⟩

/-- These active jobs are worked on, and none is handed out. -/
def Among (jobs : List DurableJob) (facts : List JobFact) : Prop :=
  ∀ fact ∈ facts, (fact.Worked ∧ fact.handed = none) ∧ ∃ old ∈ jobs, fact.job.id = old.id

omit [Hashes] in
theorem among_none (jobs : List DurableJob) : Among jobs [] := by simp [Among]

omit [Hashes] in
theorem Turns.among {α ε : Type} {old new : DurableJob} {kind : JobHistoryKind} {result : Except ε α} {facts : List JobFact}
    (turns : Turns old new kind result facts) (becomes : old.Becomes kind new) (active : old.state.active = true) (other : kind ≠ .Claimed) :
    Among [old] facts := by
  cases turns with
  | made a entry is =>
    intro fact member
    rw [List.mem_singleton.mp member]
    exact ⟨⟨active,if_neg (by rw [is]; exact other)⟩,old,by simp,becomes.id⟩
  | refused e => exact among_none _

omit [Hashes] in
/-- A loop that changes one job after another. -/
theorem each_walks {α : Type} {loop : List DurableJob → EStateM JobError Store α} {body : DurableJob → EStateM JobError Store Unit}
    {done : α} (stops : loop [] = pure done) (goes : ∀ job jobs, loop (job :: jobs) = (do body job; loop jobs))
    {fits : DurableJob → Prop} (walks : ∀ (store : Store) job, JobIn store.state job → fits job →
      Walks Store.state store (body job) (fun _ facts => Among [job] facts)) {jobs : List DurableJob}
    (has : ∀ job ∈ jobs, JobIn store.state job ∧ fits job) (distinct : (jobs.map DurableJob.id).Nodup) :
    Walks Store.state store (loop jobs) (fun _ facts => Among jobs facts) := by
  induction jobs generalizing store with
  | nil =>
    rw [stops]
    exact walks_of_reads (reads_pure _) (among_none _)
  | cons job jobs ih =>
    rw [List.map_cons,List.nodup_cons] at distinct
    rw [goes]
    obtain ⟨here,fit⟩ := has job (by simp)
    have longer : ∀ facts, Among [job] facts → Among (job :: jobs) facts := by
      intro facts among fact member
      obtain ⟨quiet,old,inside,same⟩ := among fact member
      exact ⟨quiet,old,by simp [List.mem_singleton.mp inside],same⟩
    refine (walks store job here fit).bind (fun e facts told => longer facts told) (fun a t facts _ path told => ?_)
    refine Walks.mono (ih (fun other member => ?_) distinct.2) ?_
    · obtain ⟨there,fits⟩ := has other (by simp [member])
      refine ⟨(path.others ?_).mpr there,fits⟩
      intro fact inside same
      obtain ⟨-,old,own,is⟩ := told fact inside
      rw [List.mem_singleton.mp own] at is
      exact distinct.1 (List.mem_map.mpr ⟨other,member,same.symm.trans is⟩)
    · intro result rest later fact member
      rcases List.mem_append.mp member with early | late
      · exact longer facts told fact early
      · obtain ⟨quiet,old,inside,same⟩ := later fact late
        exact ⟨quiet,old,by simp [inside],same⟩

theorem bury_walks {now_ms : Int64} {jobs : List DurableJob} (has : ∀ job ∈ jobs, JobIn store.state job ∧ job.state.active = true)
    (distinct : (jobs.map DurableJob.id).Nodup) :
    Walks Store.state store (bury_overdue io now_ms jobs) (fun _ facts => Among jobs facts) := by
  refine @each_walks store Unit (bury_overdue io now_ms)
    (fun job => persist_job_with_history io job.buried now_ms .Dead (ascii "deadline exceeded")) () rfl (fun _ _ => rfl) _ ?_ jobs has distinct
  intro store job here active
  exact (persist_walks here (.buried active) _ _).mono (fun result facts turns => turns.among (.buried active) active (by decide))

/-- What is done to a job whose lease has run out. -/
def release_one (io : Io) (now_ms : Int64) (job : DurableJob) : EStateM JobError Store Unit :=
  if job.attempts ≥ job.max_attempts then
    persist_job_with_history io job.buried now_ms .Dead (ascii "lease expired: max attempts exhausted")
  else persist_job_with_history io (job.rescheduled now_ms) now_ms .RetryScheduled (ascii "lease expired")

theorem release_each_eq (io : Io) (now_ms : Int64) (job : DurableJob) (jobs : List DurableJob) :
    release_each io now_ms (job :: jobs) = (do release_one io now_ms job; release_each io now_ms jobs) := by
  rw [release_each,release_one]
  split <;> rfl

theorem release_each_walks {now_ms : Int64} {jobs : List DurableJob} (has : ∀ job ∈ jobs, JobIn store.state job ∧ job.state = .Leased)
    (distinct : (jobs.map DurableJob.id).Nodup) :
    Walks Store.state store (release_each io now_ms jobs) (fun _ facts => Among jobs facts) := by
  refine @each_walks store Unit (release_each io now_ms) (release_one io now_ms) () rfl (release_each_eq io now_ms) _ ?_ jobs has distinct
  intro store job here held
  have active := held_active held
  unfold release_one
  split
  · exact (persist_walks here (.buried active) _ _).mono (fun result facts turns => turns.among (.buried active) active (by decide))
  · exact (persist_walks here (.rescheduled held now_ms) _ _).mono
      (fun result facts turns => turns.among (.rescheduled held now_ms) active (by decide))

/-- The lease that a claim reports. -/
def claimedBy {ε : Type} : Except ε (Option DurableJob) → List (JobId × UInt32)
  | .ok (some job) => [(job.id,job.lease_generation)]
  | _ => []

/-- Active jobs are worked on, and what is handed out is what is reported. -/
structure Hands {ε : Type} (result : Except ε (Option DurableJob)) (facts : List JobFact) : Prop where
  worked : ∀ fact ∈ facts, fact.Worked
  handed : facts.filterMap JobFact.handed = claimedBy result

omit [Hashes] in
theorem Among.hands {ε : Type} {jobs : List DurableJob} {facts : List JobFact} (among : Among jobs facts)
    {result : Except ε (Option DurableJob)} (silent : claimedBy result = []) : Hands result facts := by
  refine ⟨fun fact member => (among fact member).1.1,?_⟩
  rw [silent,List.filterMap_eq_nil_iff]
  exact fun fact member => (among fact member).1.2

theorem take_walks {job : DurableJob} {now_ms lease_until_ms : Int64} (has : JobIn store.state job) (active : job.state.active = true) :
    Walks Store.state store (take_job io now_ms lease_until_ms job) Hands := by
  refine .lifted (fun e _ => (among_none []).hands rfl) (fun attempts raised => ?_)
  have value := u32_checked_add_some (ok_or_ok.mp raised)
  rw [UInt32.toNat_one] at value
  have room : job.attempts.toNat + 1 < 2 ^ 32 := by
    rw [← value]
    exact attempts.toNat_lt
  have sum : attempts = job.attempts + 1 := by
    refine UInt32.toNat_inj.mp ?_
    rw [value,UInt32.toNat_add,UInt32.toNat_one,Nat.mod_eq_of_lt room]
  subst sum
  split
  · rename_i spent
    rw [gt_iff_lt,UInt32.lt_iff_toNat_lt,value] at spent
    have becomes : job.Becomes .Dead job.exhausted := .exhausted active (UInt32.le_iff_toNat_le.mpr (by omega)) room
    refine Walks.returning ((persist_walks has becomes now_ms _).mono (fun result facts turns => ?_))
    exact (turns.among becomes active (by decide)).hands (by cases result <;> rfl)
  · rename_i tries
    rw [gt_iff_lt,UInt32.lt_iff_toNat_lt,value] at tries
    have becomes : job.Becomes .Claimed (job.leased lease_until_ms) := .claimed lease_until_ms active (UInt32.lt_iff_toNat_lt.mpr (by omega))
    refine Walks.returning ((persist_walks has becomes now_ms _).mono (fun result facts turns => ?_))
    cases turns with
    | made a entry is =>
      refine ⟨?_,?_⟩
      · intro fact member
        rw [List.mem_singleton.mp member]
        exact active
      · rw [List.filterMap_cons_some (show JobFact.handed (.Turned job (job.leased lease_until_ms) entry) = some _ from if_pos is)]
        rfl
    | refused e => exact (among_none []).hands rfl

omit [Hashes] in
/-- The jobs that a scan finds, under ids of their own. -/
theorem JobBook.jobs (book : JobBook store.state) : ∃ jobs : List DurableJob, Store.scan_prefix store JOB_PREFIX = jobs.map jobEntry ∧
    (∀ job ∈ jobs, job.Recorded ∧ JobIn store.state job) ∧ (jobs.map DurableJob.id).Nodup := by
  obtain ⟨jobs,listed,recorded,has,sorted⟩ := book.listed
  refine ⟨jobs,listed,fun job member => ⟨recorded job member,book.has_iff.mp ((has job).mp member)⟩,?_⟩
  rw [List.Nodup,List.pairwise_map]
  refine sorted.imp ?_
  intro a b less same
  rw [same,Std.ReflOrd.compare_self] at less
  cases less

omit [Hashes] in
theorem reclaimable_active {job : DurableJob} {now_ms : Int64} (free : job.reclaimable now_ms = true) : job.state.active = true := by
  unfold DurableJob.reclaimable at free
  rcases of_decide_eq_true free with ready | ⟨held,-⟩
  · rw [ready]
    rfl
  · exact held_active held

theorem claim_walks (book : JobBook store.state) (now_ms : Int64) (lease_duration_ms : UInt64) (handlers : List Bytes) :
    Walks Store.state store (claim_job_for_handlers io now_ms lease_duration_ms handlers) Hands := by
  have refused : ∀ e : JobError, Hands (.error e) [] := fun e => (among_none []).hands rfl
  obtain ⟨jobs,listed,has,distinct⟩ := book.jobs
  refine .lifted (fun e _ => refused e) (fun lease _ => .lifted (fun e _ => refused e) (fun lease_until_ms _ => ?_))
  refine .read reads_get (fun e t failed => by cases failed) (fun self read => ?_)
  cases read
  refine .lifted (fun e _ => refused e) (fun survey found => ?_)
  rw [listed,survey_jobs_eq (fun job member => (has job member).1)] at found
  cases found
  dsimp only
  rw [List.nil_append]
  refine Walks.bind (bury_walks (fun job member => ?_) ((List.filter_sublist.map _).nodup distinct)) ?_ ?_
  · obtain ⟨inside,expires⟩ := List.mem_filter.mp member
    simp only [DurableJob.expires,Bool.and_eq_true] at expires
    exact ⟨(has job inside).2,reclaimable_active expires.1.2⟩
  · exact fun e facts among => among.hands rfl
  intro _ t facts _ path among
  cases chosen : Choosing.choose outruns (jobs.filter (·.due now_ms handlers)) with
  | none =>
    rw [show (jobs.filter (·.due now_ms handlers)).foldl (Choosing.keep outruns) none = none from chosen]
    refine walks_of_reads (reads_pure none) ?_
    rw [List.append_nil]
    exact among.hands rfl
  | some best =>
    rw [show (jobs.filter (·.due now_ms handlers)).foldl (Choosing.keep outruns) none = some best from chosen]
    obtain ⟨inside,due⟩ := List.mem_filter.mp (Choosing.choose_mem outruns_order chosen)
    have parts := due
    simp only [DurableJob.due,Bool.and_eq_true,Bool.not_eq_true'] at parts
    have still : JobIn t.state best := by
      refine (path.others ?_).mpr (has best inside).2
      intro fact member same
      obtain ⟨-,old,buried,own⟩ := among fact member
      obtain ⟨there,expires⟩ := List.mem_filter.mp buried
      rw [List.inj_on_of_nodup_map distinct there inside (own.symm.trans same)] at expires
      simp only [DurableJob.expires,Bool.and_eq_true] at expires
      rw [parts.1.2] at expires
      cases expires.2
    refine (take_walks still (reclaimable_active parts.1.1.2)).mono (fun result rest hands => ?_)
    refine ⟨?_,?_⟩
    · intro fact member
      rcases List.mem_append.mp member with early | late
      · exact (among fact early).1.1
      · exact hands.worked fact late
    · have silent : facts.filterMap JobFact.handed = [] := List.filterMap_eq_nil_iff.mpr (fun fact member => (among fact member).1.2)
      rw [List.filterMap_append,silent,List.nil_append,hands.handed]

omit [Hashes] in
/-- The jobs whose lease has run out. -/
theorem expired_jobs_eq {now_ms : Int64} {jobs : List DurableJob} (recorded : ∀ job ∈ jobs, job.Recorded) (found : List DurableJob) :
    expired_jobs now_ms found (jobs.map jobEntry) =
      .ok (found ++ jobs.filter (fun job => job.state = .Leased ∧ job.lease_until_ms ≤ now_ms)) := by
  induction jobs generalizing found with
  | nil => simp [expired_jobs]
  | cons job jobs ih =>
    have later := fun found => ih (fun other member => recorded other (List.mem_cons_of_mem job member)) found
    rw [List.map_cons,jobEntry,expired_jobs,decode_stored_job (recorded job (by simp)).stored,ok_bind]
    by_cases out : job.state = .Leased ∧ job.lease_until_ms ≤ now_ms
    · rw [if_pos out,later]
      simp [out]
    · rw [if_neg out,later]
      simp [out]

theorem release_expired_walks (book : JobBook store.state) (now_ms : Int64) :
    Walks Store.state store (release_expired_jobs io now_ms) (fun _ facts => ∃ jobs, Among jobs facts) := by
  obtain ⟨jobs,listed,has,distinct⟩ := book.jobs
  refine .read reads_get (fun e t failed => by cases failed) (fun self read => ?_)
  cases read
  refine .lifted (fun e _ => ⟨[],among_none _⟩) (fun expired found => Walks.returning ?_)
  rw [listed,expired_jobs_eq (fun job member => (has job member).1)] at found
  cases found
  rw [List.nil_append]
  refine (release_each_walks (fun job member => ?_) ((List.filter_sublist.map _).nodup distinct)).mono (fun _ facts among => ⟨_,among⟩)
  obtain ⟨inside,out⟩ := List.mem_filter.mp member
  exact ⟨(has job inside).2,(of_decide_eq_true out).1⟩

/-! ## The workers -/

omit [Hashes] in
theorem get_job_in {id : JobId} {job : DurableJob} (book : JobBook store.state) (got : store.get_job id = .ok (some job)) :
    JobIn store.state job ∧ job.id = id := by
  unfold Store.get_job at got
  cases stored : store.get (job_key id) with
  | none =>
    rw [stored] at got
    cases got
  | some value =>
    rw [stored] at got
    obtain ⟨same,decoded,is⟩ := mapM_some got
    cases is
    obtain ⟨known,recorded,own,rfl⟩ := book.found stored
    rw [decode_stored_job recorded.stored] at decoded
    cases decoded
    exact ⟨⟨recorded,by rw [own]; exact stored⟩,own⟩

omit [Hashes] in
/-- The lookup of a job. -/
theorem get_job_walks {α : Type} {id : JobId} {missing : EStateM JobError Store α} {found : DurableJob → EStateM JobError Store α}
    {said : Except JobError α → List JobFact → Prop} (book : JobBook store.state) (fails : ∀ e, said (.error e) [])
    (none_there : Walks Store.state store missing said)
    (there : ∀ job, JobIn store.state job → job.id = id → Walks Store.state store (found job) said) :
    Walks Store.state store (do
      match ← lift ((← get).get_job id) with
      | none => missing
      | some job => found job) said := by
  refine .read reads_get (fun e t failed => by cases failed) (fun self read => ?_)
  cases read
  refine .lifted (fun e _ => fails e) (fun looked got => ?_)
  cases looked with
  | none => exact none_there
  | some job =>
    obtain ⟨has,own⟩ := get_job_in book got
    exact there job has own

/-- The worker with this lease may act on the job. -/
def HoldsLease (s : State) (id : JobId) (lease_generation : UInt32) (job : DurableJob) : Prop :=
  JobIn s job ∧ job.id = id ∧ job.state = .Leased ∧ job.lease_generation = lease_generation

/-- A worker acts on the job that it has leased, or nothing happens. -/
structure Acts {ε α : Type} (s : State) (id : JobId) (lease_generation : UInt32) (accepted : α → Prop) (result : Except ε α)
    (facts : List JobFact) : Prop where
  among : ∃ jobs, Among jobs facts
  holds : ∀ a, result = .ok a → accepted a → ∃ job, HoldsLease s id lease_generation job

section
variable {id : JobId} {lease_generation : UInt32} {now_ms : Int64}

omit [Hashes] in
theorem acts_refused {ε α : Type} {s : State} {accepted : α → Prop} (e : ε) :
    Acts s id lease_generation accepted (.error e : Except ε α) [] :=
  ⟨⟨[],among_none _⟩,fun a none => by cases none⟩

omit [Hashes] in
theorem Turns.acts {ε α : Type} {s : State} {old new : DurableJob} {kind : JobHistoryKind} {accepted : α → Prop} {result : Except ε α}
    {facts : List JobFact} (turns : Turns old new kind result facts) (becomes : old.Becomes kind new) (other : kind ≠ .Claimed)
    (holds : HoldsLease s id lease_generation old) : Acts s id lease_generation accepted result facts :=
  ⟨⟨[old],turns.among becomes (held_active holds.2.2.1) other⟩,fun _ _ _ => ⟨old,holds⟩⟩

theorem heartbeat_walks (book : JobBook store.state) (lease_duration_ms : UInt64) :
    Walks Store.state store (heartbeat_job io id lease_generation now_ms lease_duration_ms)
      (Acts store.state id lease_generation (· = true)) := by
  refine get_job_walks book acts_refused ?_ (fun job has own => ?_)
  · exact walks_of_reads (reads_pure false) ⟨⟨[],among_none _⟩,by rintro a ⟨⟩ ⟨⟩⟩
  · split
    · exact walks_of_reads (reads_pure false) ⟨⟨[],among_none _⟩,by rintro a ⟨⟩ ⟨⟩⟩
    · rename_i held
      rw [not_or,not_not,not_not] at held
      refine .lifted (fun e _ => acts_refused e) (fun duration _ => .lifted (fun e _ => acts_refused e) (fun lease_until_ms _ => ?_))
      refine Walks.returning ((prolong_walks has held.1 lease_until_ms).mono ?_)
      rintro result facts (⟨⟨e,rfl⟩,rfl⟩ | ⟨rfl,rfl⟩)
      · exact acts_refused e
      · refine ⟨⟨[job],?_⟩,fun _ _ _ => ⟨job,has,own,held⟩⟩
        intro fact member
        rw [List.mem_singleton.mp member]
        exact ⟨⟨trivial,rfl⟩,job,by simp,rfl⟩

omit [Hashes] in
/-- What a worker settles. -/
theorem leased_walks {α : Type} {accepted : α → Prop} {found : DurableJob → EStateM JobError Store α} (book : JobBook store.state)
    (there : ∀ job, HoldsLease store.state id lease_generation job →
      Walks Store.state store (found job) (Acts store.state id lease_generation accepted)) :
    Walks Store.state store (leased_job id lease_generation >>= found) (Acts store.state id lease_generation accepted) := by
  refine .read (leased_job_reads id lease_generation) (fun e _ _ => acts_refused e) (fun job got => there job ?_)
  unfold leased_job at got
  rw [get_bind] at got
  obtain ⟨looked,read,got⟩ := lift_bind_ok.mp got
  obtain ⟨job,is,got⟩ := lift_bind_ok.mp got
  obtain ⟨⟨⟩,valid,got⟩ := lift_bind_ok.mp got
  cases got
  rw [ok_or_ok.mp is] at read
  obtain ⟨held,same⟩ : job.state = .Leased ∧ job.lease_generation = lease_generation := by
    unfold validate_job_lease at valid
    split at valid
    · cases valid
    split at valid
    · cases valid
    · rename_i held same
      exact ⟨not_not.mp held,not_not.mp same⟩
  obtain ⟨has,own⟩ := get_job_in book read
  exact ⟨has,own,held,same⟩

theorem complete_walks (book : JobBook store.state) :
    Walks Store.state store (complete_job io id lease_generation now_ms) (Acts store.state id lease_generation (fun _ => True)) := by
  refine leased_walks book (fun job holds => ?_)
  have becomes : job.Becomes .Completed (job.closed .Completed) := .completed holds.2.2.1
  exact (persist_walks holds.1 becomes now_ms []).mono (fun result facts turns => turns.acts becomes (by decide) holds)

theorem fail_walks (book : JobBook store.state) (detail : Bytes) :
    Walks Store.state store (fail_job io id lease_generation now_ms detail) (Acts store.state id lease_generation (fun _ => True)) := by
  refine leased_walks book (fun job holds => ?_)
  split
  · have becomes : job.Becomes .Dead job.buried := .buried (held_active holds.2.2.1)
    refine Walks.returning ((persist_walks holds.1 becomes now_ms detail).mono (fun result facts turns => ?_))
    cases turns with
    | made a entry is => exact (Turns.made DurableJobState.Dead entry is).acts becomes (by decide) holds
    | refused e => exact acts_refused e
  · refine .lifted (fun e _ => acts_refused e) (fun delay _ => .lifted (fun e _ => acts_refused e) (fun available_at_ms _ => ?_))
    have becomes : job.Becomes .RetryScheduled (job.rescheduled available_at_ms) := .rescheduled holds.2.2.1 available_at_ms
    refine Walks.returning ((persist_walks holds.1 becomes now_ms detail).mono (fun result facts turns => ?_))
    cases turns with
    | made a entry is => exact (Turns.made DurableJobState.Ready entry is).acts becomes (by decide) holds
    | refused e => exact acts_refused e

theorem release_walks (book : JobBook store.state) :
    Walks Store.state store (release_job io id lease_generation now_ms) (Acts store.state id lease_generation (· = true)) := by
  refine get_job_walks book acts_refused ?_ (fun job has own => ?_)
  · exact walks_of_reads (reads_pure false) ⟨⟨[],among_none _⟩,by rintro a ⟨⟩ ⟨⟩⟩
  · split
    · exact walks_of_reads (reads_pure false) ⟨⟨[],among_none _⟩,by rintro a ⟨⟩ ⟨⟩⟩
    · rename_i held
      rw [not_or,not_not,not_not] at held
      have becomes : job.Becomes .RetryScheduled (job.rescheduled now_ms) := .rescheduled held.1 now_ms
      refine Walks.returning ((persist_walks has becomes now_ms _).mono (fun result facts turns => ?_))
      cases turns with
      | made a entry is => exact (Turns.made true entry is).acts becomes (by decide) ⟨has,own,held⟩
      | refused e => exact acts_refused e

theorem cancel_walks (book : JobBook store.state) :
    Walks Store.state store (cancel_job io id now_ms) (fun _ facts => ∃ jobs, Among jobs facts) := by
  refine get_job_walks book (fun e => ⟨[],among_none _⟩) (walks_of_reads (reads_pure false) ⟨[],among_none _⟩) (fun job has own => ?_)
  split
  · exact walks_of_reads (reads_pure false) ⟨[],among_none _⟩
  · rename_i going
    have active : job.state.active = true := by
      cases state : job.state <;> simp [state,DurableJobState.active] at going ⊢
    have becomes : job.Becomes .Cancelled (job.closed .Cancelled) := .cancelled active
    refine Walks.returning ((persist_walks has becomes now_ms []).mono (fun result facts turns => ?_))
    exact ⟨[job],turns.among becomes active (by decide)⟩

/-- A dead job is tried again, or nothing happens. -/
inductive Revives {ε : Type} (s : State) (id : JobId) : Except ε (Option DurableJob) → List JobFact → Prop
  | revived {old : DurableJob} (has : JobIn s old) (own : old.id = id) (dead : old.state = .Dead) (entry : JobHistoryEntry)
      (is : entry.kind = .RetryScheduled) (now_ms : Int64) : Revives s id (.ok (some (old.revived now_ms))) [.Turned old (old.revived now_ms) entry]
  | passed (result : Except ε (Option DurableJob)) (silent : ∀ job, result ≠ .ok (some job)) : Revives s id result []

theorem retry_walks (book : JobBook store.state) : Walks Store.state store (retry_job io id now_ms) (Revives store.state id) := by
  refine get_job_walks book (fun e => .passed _ (by rintro job ⟨⟩)) ?_ (fun job has own => ?_)
  · exact walks_of_reads (reads_pure none) (.passed _ (by rintro job ⟨⟩))
  · split
    · exact walks_of_reads (reads_pure none) (.passed _ (by rintro job ⟨⟩))
    · rename_i dead
      rw [not_not] at dead
      have becomes : job.Becomes .RetryScheduled (job.revived now_ms) := .revived dead now_ms
      refine Walks.returning ((persist_walks has becomes now_ms _).mono (fun result facts turns => ?_))
      cases turns with
      | made a entry is => exact .revived has own dead entry is now_ms
      | refused e => exact .passed _ (by rintro job ⟨⟩)

end

/-! ## Schedules -/

/-- The keys of the jobs of the runs that are due, as far as their schedules can be read. -/
def dueKeys (now_ms : Int64) (entries : List (Bytes × Bytes)) : List (Option Bytes) :=
  entries.filterMap (fun entry => match decode_schedule entry.2 with
    | .ok schedule => if schedule.enabled ∧ schedule.next_run_ms ≤ now_ms then some schedule.occurrence.idempotency_key else none
    | .error _ => none)

/-- Jobs are made with ids that are drawn from here on, one after another. -/
def Drawn (draws : Nat → Option JobId) (start : Nat) (ids : List JobId) : Prop :=
  ∃ ns : List Nat, ns.Pairwise (· < ·) ∧ (∀ n ∈ ns, start ≤ n) ∧ ids.map some = ns.map draws

omit [Hashes] in
theorem drawn_none (draws : Nat → Option JobId) (start : Nat) : Drawn draws start [] := ⟨[],.nil,by simp,rfl⟩

omit [Hashes] in
theorem Drawn.next {draws : Nat → Option JobId} {start : Nat} {ids : List JobId} {id : JobId} (drawn : Drawn draws (start + 1) ids)
    (here : draws start = some id) : Drawn draws start (id :: ids) := by
  obtain ⟨ns,rises,behind,same⟩ := drawn
  refine ⟨start :: ns,List.pairwise_cons.mpr ⟨fun n member => behind n member,rises⟩,?_,?_⟩
  · intro n member
    rcases List.mem_cons.mp member with rfl | later
    · exact Nat.le_refl _
    · exact Nat.le_of_succ_le (behind n later)
  · rw [List.map_cons,List.map_cons,here,same]

omit [Hashes] in
theorem Drawn.earlier {draws : Nat → Option JobId} {start : Nat} {ids : List JobId} (drawn : Drawn draws (start + 1) ids) :
    Drawn draws start ids := by
  obtain ⟨ns,rises,behind,same⟩ := drawn
  exact ⟨ns,rises,fun n member => Nat.le_of_succ_le (behind n member),same⟩

/-- What a tick of the schedules makes: the jobs of the first runs that are due. -/
structure Schedules (draws : Nat → Option JobId) (start : Nat) (due : List (Option Bytes)) (facts : List JobFact) : Prop where
  only : ∀ fact ∈ facts, ∃ job entry, fact = .Scheduled job entry
  drawn : Drawn draws start (facts.filterMap JobFact.made)
  keyed : facts.filterMap JobFact.scheduled <+: due

omit [Hashes] in
theorem schedules_none (draws : Nat → Option JobId) (start : Nat) (due : List (Option Bytes)) : Schedules draws start due [] :=
  ⟨by simp,drawn_none _ _,List.nil_prefix⟩

theorem tick_each_walks {entropy : Nat → Option (ByteArr 16)} {now_ms : Int64} {limit fired : Nat} {entries : List (Bytes × Bytes)}
    (few : fired ≤ limit) : Walks Store.state store (tick_each io entropy now_ms limit fired entries)
      (fun _ facts => Schedules entropy fired ((dueKeys now_ms entries).take (limit - fired)) facts) := by
  induction entries generalizing fired store with
  | nil => exact walks_of_reads (reads_pure _) (schedules_none _ _ _)
  | cons entry entries ih =>
    rw [tick_each]
    split
    · exact walks_of_reads (reads_pure _) (schedules_none _ _ _)
    rename_i room
    refine .lifted (fun e _ => schedules_none _ _ _) (fun schedule read => ?_)
    have head : dueKeys now_ms (entry :: entries) = if schedule.enabled ∧ schedule.next_run_ms ≤ now_ms then
        schedule.occurrence.idempotency_key :: dueKeys now_ms entries else dueKeys now_ms entries := by
      unfold dueKeys
      rw [List.filterMap_cons,read]
      dsimp only
      by_cases due : schedule.enabled ∧ schedule.next_run_ms ≤ now_ms
      · rw [if_pos due,if_pos due]
      · rw [if_neg due,if_neg due]
    split
    · rename_i waits
      rw [head,if_neg]
      · exact ih few
      · rintro ⟨on,now⟩
        rcases waits with off | later
        · rw [on] at off
          cases off
        · exact absurd now (Int64.not_le.mpr later)
    rename_i due
    have is_due : schedule.enabled ∧ schedule.next_run_ms ≤ now_ms := by
      rw [not_or,Bool.not_eq_true',Bool.not_eq_false] at due
      exact ⟨due.1,Int64.not_lt.mp due.2⟩
    rw [head,if_pos is_due]
    refine .lifted (fun e _ => schedules_none _ _ _) (fun job built => ?_)
    refine .lifted (fun e _ => schedules_none _ _ _) (fun next _ => ?_)
    obtain ⟨new,drawn,keyed⟩ := build_job_ok built
    refine Walks.bind (@within_walks _ store _ _ JobError.Store io _
      (fun _ facts => facts = [.Scheduled job.kept ⟨0,now_ms,.Submitted,ascii "scheduled"⟩]) ?_ ?_) ?_ ?_
    · exact (@fire_schedule_orderly _ False io False.elim job now_ms next).confined.carries
    · intro tx x u sees done
      obtain ⟨_,middle,wrote,done⟩ := bind_ok.mp done
      obtain ⟨encoded,made,done⟩ := lift_bind_ok.mp done
      have step : JobStep tx.view (.Scheduled job.kept ⟨0,now_ms,.Submitted,ascii "scheduled"⟩) middle.view :=
        write_job_step rfl rfl (.scheduled new ⟨rfl,rfl⟩) wrote
      rw [← sees]
      refine ⟨_,.one (step.behind ?_),rfl⟩
      intro key own
      rw [(put_internal_ok (rethrow_ok.mp done)).1,get_insert,if_neg]
      rintro rfl
      exact schedule_not_job (schedule_key_own _) own
    · rintro e facts (⟨-,rfl⟩ | ⟨⟨⟩,⟨⟩,-⟩)
      exact schedules_none _ _ _
    · rintro ⟨⟩ t facts _ path (⟨⟨e,⟨⟩⟩,-⟩ | ⟨⟨⟩,-,rfl⟩)
      have left : limit - fired = (limit - (fired + 1)) + 1 := by omega
      refine (ih (show fired + 1 ≤ limit by omega)).mono (fun result rest later => ?_)
      refine ⟨?_,?_,?_⟩
      · intro fact member
        rcases List.mem_append.mp member with here | there
        · exact ⟨_,_,List.mem_singleton.mp here⟩
        · exact later.only fact there
      · exact later.drawn.next (drawn.trans (by rw [kept_id]))
      · rw [left,List.take_succ_cons,← keyed,← kept_key]
        exact (List.prefix_cons_inj _).mpr later.keyed

end

end VoodooStore
