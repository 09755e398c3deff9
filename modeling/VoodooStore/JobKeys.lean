import VoodooStore.JobLife

/-!
# The keys of jobs

A job that is submitted with an idempotency key is first looked for among the active
ones. A dead job that is tried again is not, and neither is the job of a schedule. As
long as neither happens for a key that is held, no two active jobs have the same key
(`keys_exclusive`).
-/
namespace VoodooStore
open Effects
set_option linter.unusedSimpArgs false

/-! ## Writes -/

/-- No two active jobs have the same key. -/
def Exclusive (s : State) : Prop :=
  ∀ a b key, JobIn s a → JobIn s b → a.state.active = true → b.state.active = true → a.idempotency_key = some key →
    b.idempotency_key = some key → a = b

/-- No job becomes active for a key that is held and that nobody looks up. -/
def JobFact.Unheld (s : State) : JobFact → Prop
  | .Scheduled job _ => ∀ key, job.idempotency_key = some key → KeyFree s key
  | .Turned old _ _ => old.state = .Dead → ∀ key, old.idempotency_key = some key → KeyFree s key
  | _ => True

section
variable {s t : State} {fact : JobFact} {facts : List JobFact} {job : DurableJob} {key : Bytes}

theorem Exclusive.same (exclusive : Exclusive s) (same : SameJobs s t) : Exclusive t :=
  fun a b key first second => exclusive a b key (same.job_in.mpr first) (same.job_in.mpr second)

/-- Who has the key of a job that is active after the write is that job itself. -/
theorem JobStep.holder (step : JobStep s fact t) (exclusive : Exclusive s) (unheld : fact.Unheld s)
    (active : fact.job.state.active = true) (keyed : fact.job.idempotency_key = some key) (has : JobIn s job)
    (holds : job.state.active = true) (same : job.idempotency_key = some key) : job.id = fact.job.id := by
  cases step.allowed with
  | submitted new first free => exact absurd same (free key keyed job has holds)
  | scheduled new first => exact absurd same (unheld key keyed job has holds)
  | halved new free => exact absurd same (free key keyed job has holds)
  | @turned old new entry before becomes next =>
    have old_keyed : old.idempotency_key = some key := becomes.key.symm.trans keyed
    show job.id = new.id
    rw [becomes.id]
    rcases becomes.active active with going | ⟨dead,-⟩
    · exact congrArg DurableJob.id (exclusive job old key has before holds going same old_keyed)
    · exact absurd same (unheld dead key old_keyed job has holds)
  | @prolonged old before held lease_until_ms =>
    show job.id = old.id
    exact congrArg DurableJob.id (exclusive job old key has before holds (held_active held) same keyed)

theorem Exclusive.step (exclusive : Exclusive s) (step : JobStep s fact t) (unheld : fact.Unheld s) : Exclusive t := by
  intro a b key first second going active keyed same
  rcases step.known first with rfl | ⟨apart,before⟩
  · rcases step.known second with rfl | ⟨other,was⟩
    · rfl
    · exact absurd (step.holder exclusive unheld going keyed was active same).symm other
  · rcases step.known second with rfl | ⟨other,was⟩
    · exact absurd (step.holder exclusive unheld active same before going keyed).symm apart
    · exact exclusive a b key before was going active keyed same

/-- A key stays free as long as no job is written that has it. -/
theorem KeyFree.step (free : KeyFree s key) (step : JobStep s fact t) (other : fact.job.idempotency_key ≠ some key) : KeyFree t key := by
  intro job has active keyed
  rcases step.known has with rfl | ⟨-,before⟩
  · exact other keyed
  · exact free job before active keyed

/-- Work on active jobs, and jobs whose keys were looked up. -/
theorem Exclusive.path (exclusive : Exclusive s) (path : JobPath s facts t) (unheld : ∀ fact ∈ facts, ∀ s, fact.Unheld s) : Exclusive t := by
  induction path with
  | stay same => exact exclusive.same same
  | go first _ ih =>
    exact ih (exclusive.step first (unheld _ (by simp) _)) (fun fact member => unheld fact (by simp [member]))

/-- The jobs of schedules, one after another, whose keys are free and all different. -/
theorem Exclusive.scheduled (exclusive : Exclusive s) (path : JobPath s facts t) (only : ∀ fact ∈ facts, ∃ job entry, fact = .Scheduled job entry)
    (distinct : ((facts.filterMap JobFact.scheduled).filterMap id).Nodup)
    (free : ∀ key, some key ∈ facts.filterMap JobFact.scheduled → KeyFree s key) : Exclusive t := by
  induction path with
  | stay same => exact exclusive.same same
  | @go s middle t fact facts first rest ih =>
    obtain ⟨job,entry,rfl⟩ := only fact (by simp)
    rw [List.filterMap_cons_some (show JobFact.scheduled (.Scheduled job entry) = some job.idempotency_key from rfl)] at distinct free
    have here : JobFact.Unheld s (.Scheduled job entry) := fun key keyed => free key (by rw [keyed]; simp)
    refine ih (exclusive.step first here) (fun fact member => only fact (by simp [member])) ?_ ?_
    · exact distinct.sublist ((List.sublist_cons_self _ _).filterMap _)
    · intro key member
      refine (free key (List.mem_cons_of_mem _ member)).step first ?_
      show job.idempotency_key ≠ some key
      intro keyed
      rw [keyed,List.filterMap_cons_some (show id (some key) = some key from rfl),List.nodup_cons] at distinct
      exact distinct.1 (List.mem_filterMap.mpr ⟨some key,member,rfl⟩)

end

/-! ## Runs -/

/-- The call makes no job active for a key that is held and that it does not look up. -/
structure Heeds (s : State) (call : JobUse) : Prop where
  retried : ∀ io id now_ms, call = .Job (.RetryJob io id now_ms) → ∀ job, JobIn s job → job.id = id → job.state = .Dead →
    ∀ key, job.idempotency_key = some key → KeyFree s key
  due : ∀ key, some key ∈ call.due s → KeyFree s key
  distinct : ((call.due s).filterMap id).Nodup

/-- No dead job is tried again, and no schedule fires, for a key that is held. -/
def jobKeyTerms : Terms JobUseError JobUse JobTxUse JobTold where
  mine := jobSpace
  call state call := call.io.Durable ∧ Heeds state call
  callTx _ call := call.io.Durable
  commit _ := True

/-- What a call writes keeps the keys exclusive. -/
theorem Does.exclusive {store : Store} {call : JobUse} {told : Except JobUseError JobTold} {facts : List JobFact} {t : State}
    (does : Does store call told facts) (path : JobPath store.state facts t) (heeds : Heeds store.state call)
    (exclusive : Exclusive store.state) : Exclusive t := by
  by_cases ticks : facts.filterMap JobFact.scheduled = []
  · by_cases revived : ∃ old new entry, JobFact.Turned old new entry ∈ facts ∧ old.state = .Dead
    · obtain ⟨old,new,entry,member,dead⟩ := revived
      obtain ⟨rfl,io,now_ms,is,has⟩ := does.revives old new entry member dead
      cases path with
      | go first rest =>
        have unheld : JobFact.Unheld store.state (.Turned old new entry) := fun _ => heeds.retried io old.id now_ms is old has rfl dead
        exact (exclusive.step first unheld).path rest (by simp)
    · refine exclusive.path path (fun fact member s => ?_)
      cases fact with
      | Scheduled job entry => exact absurd rfl (List.filterMap_eq_nil_iff.mp ticks _ member ▸ Option.some_ne_none job.idempotency_key)
      | Turned old new entry => exact fun dead => absurd ⟨old,new,entry,member,dead⟩ revived
      | _ => exact trivial
  · refine exclusive.scheduled path (does.ticks ticks) ?_ ?_
    · exact heeds.distinct.sublist (does.scheduled.sublist.filterMap _)
    · exact fun key member => heeds.due key (does.scheduled.subset member)

theorem DoesTx.exclusive {call : JobTxUse} {facts : List JobFact} {s t : State} (does : DoesTx call facts) (path : JobPath s facts t)
    (exclusive : Exclusive s) : Exclusive t := by
  refine exclusive.path path (fun fact member s => ?_)
  cases does with
  | nothing => cases member
  | made entry drawn =>
    cases List.mem_singleton.mp member
    exact trivial
  | halved drawn =>
    cases List.mem_singleton.mp member
    exact trivial

section
variable [Hashes]

theorem job_keys_preserved : Preserved jobLife jobKeyTerms (fun state view _ =>
    (JobBook state ∧ ∀ seen, view = some seen → JobBook seen) ∧ Exclusive state ∧ ∀ seen, view = some seen → Exclusive seen) := by
  refine job_life_preserved (fun key own => own) (fun state call ok => ok.1) (fun view call ok => ok) ?_ ?_ ?_ ?_ ?_ ?_
  · rintro call store log facts ⟨-,heeds⟩ book path does ⟨exclusive,-⟩
    exact ⟨does.exclusive path heeds exclusive,by simp⟩
  · rintro state log ⟨exclusive,-⟩
    refine ⟨exclusive,?_⟩
    rintro _ ⟨⟩
    exact exclusive
  · rintro call state view next log facts - book path does ⟨exclusive,seen⟩
    refine ⟨exclusive,?_⟩
    rintro _ ⟨⟩
    exact does.exclusive path (seen view rfl)
  · rintro state view next log same ⟨exclusive,seen⟩
    refine ⟨exclusive,?_⟩
    rintro _ ⟨⟩
    exact (seen view rfl).same same
  · rintro state view next log - same ⟨-,seen⟩
    exact ⟨(seen view rfl).same same,by simp⟩
  · rintro state view log ⟨exclusive,-⟩
    exact ⟨exclusive,by simp⟩

/-- As long as no dead job is tried again, and no schedule fires, for a key that an
    active job holds, no two active jobs have the same key. -/
theorem keys_exclusive {io : Io} {path : Path} {options : StoreOptions} {store : Store} {left : Bytes}
    (opened : open_with_options io path options [] = .ok store left) {moves : List (Move JobUse JobTxUse)}
    (along : (Play.mk (.Idle store) []).Along jobLife jobKeyTerms moves) {later : Store}
    (reached : (Play.steps jobLife ⟨.Idle store,[]⟩ moves).session.store = later) {a b : DurableJob} {key : Bytes}
    (first : later.HasJob a) (second : later.HasJob b) (going : a.state.active = true) (active : b.state.active = true)
    (keyed : a.idempotency_key = some key) (same : b.idempotency_key = some key) : a = b := by
  have empty : ∀ job, ¬ JobIn ∅ job := by
    intro job has
    have stored := has.stored
    simp at stored
  have starts : (JobBook ∅ ∧ ∀ seen, (none : Option State) = some seen → JobBook seen) ∧ Exclusive ∅ ∧
      ∀ seen, (none : Option State) = some seen → Exclusive seen :=
    ⟨⟨holding_empty _ _ _,by simp⟩,fun a _ _ has => absurd has (empty a),by simp⟩
  obtain ⟨⟨book,-⟩,exclusive,-⟩ := (play_invariant job_keys_preserved starts opened along).holds
  rw [reached] at book exclusive
  exact exclusive a b key (book.has_iff.mp first) (book.has_iff.mp second) going active keyed same

end

/-- A job is completed, and another one is submitted with its key. -/
def submittedAgain : List (Move JobUse JobTxUse) :=
  [.Call (.Job (.SubmitJob calm (some (.filled 1)) { JobSpec.new [104] [1] with idempotency_key := some [107] } 0)),
    .Call (.Job (.ClaimJobForHandlers calm 0 10 [])),
    .Call (.Job (.CompleteJob calm (.filled 1) 1 5)),
    .Call (.Job (.SubmitJob calm (some (.filled 2)) { JobSpec.new [104] [2] with idempotency_key := some [107] } 6))]

theorem submitted_again_along [Hashes] (store : Store) : (Play.mk (.Idle store) []).Along jobLife jobKeyTerms submittedAgain := by
  refine @along_of_fine _ _ _ _ _ _ _ (fun call => call.io.Durable ∧ (∀ s, call.due s = []) ∧ ∀ io id now_ms, call ≠ .Job (.RetryJob io id now_ms))
    (fun _ => False) _ ?_ (fun _ _ none => none.elim) (fun _ _ _ => trivial) ?_ _
  · rintro state call ⟨durable,silent,other⟩
    refine ⟨durable,fun io id now_ms is => absurd is (other io id now_ms),?_,?_⟩
    · rw [silent]
      simp
    · rw [silent]
      exact .nil
  · intro move member
    simp only [submittedAgain,List.mem_cons,List.not_mem_nil,or_false] at member
    rcases member with rfl | rfl | rfl | rfl
    all_goals exact ⟨calm_durable,fun _ => rfl,by rintro io id now_ms ⟨⟩⟩

/-- The job that a store has under this id is active and has this key. -/
def holdsKey (store : Store) (id : JobId) (key : Bytes) : Bool :=
  match store.get_job id with
  | .ok (some job) => decide (job.id = id) && job.state.active && decide (job.idempotency_key = some key)
  | _ => false

theorem holds_key {store : Store} {id : JobId} {key : Bytes} (holds : holdsKey store id key = true) :
    ∃ job, store.HasJob job ∧ job.id = id ∧ job.state.active = true ∧ job.idempotency_key = some key := by
  unfold holdsKey at holds
  split at holds
  · rename_i job got
    obtain ⟨⟨rfl,active⟩,keyed⟩ := by simpa using holds
    exact ⟨job,got,rfl,active,keyed⟩
  · cases holds

set_option maxRecDepth 20000 in
/-- The job that was submitted second is the only active one with the key. -/
theorem key_is_passed_on : ∃ store left job, @open_with_options crates calm ["a.vstore"] .default [] = .ok store left ∧
    let later := (@Play.steps crates _ _ _ _ (@jobLife crates) ⟨.Idle store,[]⟩ submittedAgain).session.store
    later.HasJob job ∧ job.id = ⟨List.replicate 16 2,rfl⟩ ∧
      ∀ other, later.HasJob other → other.state.active = true → other.idempotency_key = some [107] → other = job := by
  obtain ⟨store,left,opened⟩ := @sound_opens crates calm [] ["a.vstore"] .default calm_faultless (.inl rfl)
  have evaluated : passes (@open_with_options crates calm ["a.vstore"] .default []) (fun store _ =>
        holdsKey (@Play.steps crates _ _ _ _ (@jobLife crates) ⟨.Idle store,[]⟩ submittedAgain).session.store ⟨List.replicate 16 2,rfl⟩ [107]) = true := by
    rw [crates_eq_quick]
    decide +kernel
  rw [opened,passes_ok] at evaluated
  obtain ⟨job,has,own,active,keyed⟩ := holds_key evaluated
  refine ⟨store,left,job,opened,has,own,fun other there going same => ?_⟩
  exact @keys_exclusive crates _ _ _ _ _ opened _ (@submitted_again_along crates store) _ rfl _ _ _ there has going active same keyed

/-- A job dies, another one is submitted with its key, and the dead one is tried again. -/
def revivedBeside : List (Move JobUse JobTxUse) :=
  [.Call (.Job (.SubmitJob calm (some (.filled 1)) { JobSpec.new [104] [1] with idempotency_key := some [107], max_attempts := 1 } 0)),
    .Call (.Job (.ClaimJobForHandlers calm 0 10 [])),
    .Call (.Job (.ReleaseExpiredJobs calm 10)),
    .Call (.Job (.SubmitJob calm (some (.filled 2)) { JobSpec.new [104] [2] with idempotency_key := some [107] } 11)),
    .Call (.Job (.RetryJob calm (.filled 1) 12))]

set_option maxRecDepth 20000 in
/-- Two active jobs have the same key. -/
theorem revived_key_is_shared : ∃ store left a b, @open_with_options crates calm ["a.vstore"] .default [] = .ok store left ∧
    let later := (@Play.steps crates _ _ _ _ (@jobLife crates) ⟨.Idle store,[]⟩ revivedBeside).session.store
    later.HasJob a ∧ later.HasJob b ∧ a.state.active = true ∧ b.state.active = true ∧ a.idempotency_key = some [107] ∧
      b.idempotency_key = some [107] ∧ a ≠ b := by
  obtain ⟨store,left,opened⟩ := @sound_opens crates calm [] ["a.vstore"] .default calm_faultless (.inl rfl)
  have evaluated : passes (@open_with_options crates calm ["a.vstore"] .default []) (fun store _ =>
        let later := (@Play.steps crates _ _ _ _ (@jobLife crates) ⟨.Idle store,[]⟩ revivedBeside).session.store
        holdsKey later ⟨List.replicate 16 1,rfl⟩ [107] && holdsKey later ⟨List.replicate 16 2,rfl⟩ [107]) = true := by
    rw [crates_eq_quick]
    decide +kernel
  rw [opened,passes_ok] at evaluated
  obtain ⟨first,second⟩ := Bool.and_eq_true_iff.mp evaluated
  obtain ⟨a,has,own,going,keyed⟩ := holds_key first
  obtain ⟨b,there,other,active,same⟩ := holds_key second
  refine ⟨store,left,a,b,opened,has,there,going,active,keyed,same,?_⟩
  rintro rfl
  rw [own] at other
  exact absurd other (by decide)

end VoodooStore
