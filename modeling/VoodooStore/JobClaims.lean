import VoodooStore.Cron
import VoodooStore.JobCalls
import VoodooStore.Lib.Choosing
import VoodooStore.Room

/-!
# Which job is claimed

A claim goes through all jobs once. It buries those whose deadline has passed,
and takes the foremost of those that are due, without looking at how often that
one was tried. If it was tried too often, it is buried as well, and the claim
reports that there is nothing to do (`job_claim_selects_iff`).
-/
namespace VoodooStore
open Effects
set_option linter.unusedSimpArgs false

/-! ## The jobs of a map -/

/-- The entry of a job in the map. -/
def jobEntry (job : DurableJob) : Bytes × Bytes := (job_key job.id,job.spelling)

/-- A job whose record could be written. -/
structure DurableJob.Recorded (job : DurableJob) : Prop where
  stored : job.Stored
  short : 4 + ((job_key job.id).length + job.spelling.length) < 2 ^ 32

/-- The records of jobs are at the keys of their ids. -/
abbrev JobBook : State → Prop := Holding JOB_PREFIX jobEntry DurableJob.Recorded

/-- The store has this job. -/
def Store.HasJob (store : Store) (job : DurableJob) : Prop := store.get_job job.id = .ok (some job)

theorem JobBook.found {state : State} (book : JobBook state) {id : JobId} {value : Bytes} (found : state[job_key id]? = some value) :
    ∃ job : DurableJob, job.Recorded ∧ job.id = id ∧ value = job.spelling := by
  obtain ⟨job,recorded,same⟩ := book _ _ (job_key_own id) found
  obtain ⟨key,spelled⟩ := Prod.mk.inj same
  exact ⟨job,recorded,job_key_injective key,spelled.symm⟩

theorem has_job_of_spelled {store : Store} {job : DurableJob} (stored : job.Stored)
    (found : store.state[job_key job.id]? = some job.spelling) : store.HasJob job := by
  unfold Store.HasJob Store.get_job
  rw [show store.get (job_key job.id) = some job.spelling from found,Option.mapM_some,decode_stored_job stored]
  rfl

theorem JobBook.has {store : Store} (book : JobBook store.state) {job : DurableJob} :
    store.HasJob job ↔ job.Recorded ∧ store.state[job_key job.id]? = some job.spelling := by
  unfold Store.HasJob Store.get_job
  constructor
  · intro got
    cases there : store.get (job_key job.id) with
    | none =>
      rw [there] at got
      cases got
    | some value =>
      rw [there] at got
      obtain ⟨known,recorded,own,rfl⟩ := book.found there
      rw [Option.mapM_some,decode_stored_job recorded.stored] at got
      cases got
      exact ⟨recorded,there⟩
  · rintro ⟨recorded,found⟩
    exact has_job_of_spelled recorded.stored found

/-- What a scan finds are the jobs of the map, by their ids. -/
theorem JobBook.listed {store : Store} (book : JobBook store.state) : ∃ jobs : List DurableJob,
    Store.scan_prefix store JOB_PREFIX = jobs.map jobEntry ∧ (∀ job ∈ jobs, job.Recorded) ∧ (∀ job, job ∈ jobs ↔ store.HasJob job) ∧
      jobs.Pairwise (fun a b => compare a.id.val b.id.val = .lt) := by
  obtain ⟨jobs,listed,recorded⟩ := book.scan
  refine ⟨jobs,listed,recorded,?_,?_⟩
  · intro job
    rw [book.has]
    constructor
    · intro member
      have inside : jobEntry job ∈ scan store.state JOB_PREFIX := by
        rw [listed]
        exact List.mem_map_of_mem member
      exact ⟨recorded job member,(mem_scan.mp inside).2⟩
    · rintro ⟨fits,found⟩
      have inside : jobEntry job ∈ scan store.state JOB_PREFIX := mem_scan.mpr ⟨job_key_own _,found⟩
      rw [listed] at inside
      obtain ⟨other,member,same⟩ := List.mem_map.mp inside
      rw [← job_spelling_injective (recorded other member).stored fits.stored (Prod.mk.inj same).2]
      exact member
  · have sorted : (scan store.state JOB_PREFIX).Pairwise (fun a b => compare a.1 b.1 = .lt) :=
      Std.ExtTreeMap.ordered_keys_toList.filter _
    rw [listed,List.pairwise_map] at sorted
    refine sorted.imp ?_
    intro a b less
    rwa [show (jobEntry a).1 = JOB_PREFIX ++ a.id.val from rfl,show (jobEntry b).1 = JOB_PREFIX ++ b.id.val from rfl,compare_front] at less

/-- The job of this kind with the highest priority, the earliest of these, and the one with the smallest id of these. -/
structure ForemostJob (store : Store) (kind : DurableJob → Bool) (best : DurableJob) : Prop where
  has : store.HasJob best
  fits : kind best = true
  first : ∀ other, store.HasJob other → kind other = true → other ≠ best → other.priority < best.priority ∨
    other.priority = best.priority ∧ (best.available_at_ms < other.available_at_ms ∨
      best.available_at_ms = other.available_at_ms ∧ compare best.id.val other.id.val = .lt)

/-! ## The survey -/

/-- A worker with these handlers looks at the job. Without handlers it looks at every job. -/
def DurableJob.accepted (handlers : List Bytes) (job : DurableJob) : Bool := handlers = [] ∨ job.handler ∈ handlers

/-- Nobody works at the job, or the one who does has lost the lease. -/
def DurableJob.reclaimable (now_ms : Int64) (job : DurableJob) : Bool :=
  job.state = .Ready ∨ job.state = .Leased ∧ job.lease_until_ms ≤ now_ms

/-- The deadline has passed. -/
def DurableJob.lapsed (now_ms : Int64) (job : DurableJob) : Bool := job.deadline_ms.any (fun deadline => deadline ≤ now_ms)

/-- The job is buried because of its deadline. -/
def DurableJob.expires (now_ms : Int64) (handlers : List Bytes) (job : DurableJob) : Bool :=
  job.accepted handlers && job.reclaimable now_ms && job.lapsed now_ms

/-- The job can be taken. -/
def DurableJob.due (now_ms : Int64) (handlers : List Bytes) (job : DurableJob) : Bool :=
  job.accepted handlers && job.reclaimable now_ms && !job.lapsed now_ms && !(job.state = .Ready ∧ job.available_at_ms > now_ms)

/-- The job can be taken and may still be tried. -/
def DurableJob.claimable (now_ms : Int64) (handlers : List Bytes) (job : DurableJob) : Bool :=
  job.due now_ms handlers && job.attempts < job.max_attempts

def outruns (a b : DurableJob) : Bool := a.priority > b.priority ∨ a.priority = b.priority ∧ a.available_at_ms < b.available_at_ms

theorem outruns_iff {a b : DurableJob} : outruns a b = true ↔ b.priority.toInt < a.priority.toInt ∨
    a.priority.toInt = b.priority.toInt ∧ a.available_at_ms.toInt < b.available_at_ms.toInt := by
  rw [outruns,decide_eq_true_eq,gt_iff_lt,Int32.lt_iff_toInt_lt,Int64.lt_iff_toInt_lt,← Int32.toInt_inj]

theorem outruns_order : Choosing.StrictWeak outruns := by
  constructor
  · intro a b c first second
    rw [outruns_iff] at first second ⊢
    omega
  · intro a b c first second
    rw [← Bool.not_eq_true] at second
    rw [outruns_iff] at first second ⊢
    omega

/-- What the survey notes of a job. -/
theorem survey_note (survey : Survey) (now_ms : Int64) (job : DurableJob) (handlers : List Bytes) (accepted : job.accepted handlers = true) :
    survey.note now_ms job = ⟨if job.due now_ms handlers then Choosing.keep outruns survey.candidate job else survey.candidate,
      if job.expires now_ms handlers then survey.expired ++ [job] else survey.expired⟩ := by
  by_cases open_job : job.state = .Ready ∨ job.state = .Leased ∧ job.lease_until_ms ≤ now_ms
  · by_cases late : job.lapsed now_ms = true
    · have deadline : job.deadline_ms.any (fun deadline => deadline ≤ now_ms) = true := late
      simp [Survey.note,DurableJob.due,DurableJob.expires,DurableJob.reclaimable,accepted,open_job,late,deadline]
    · have deadline : ¬ job.deadline_ms.any (fun deadline => deadline ≤ now_ms) = true := late
      by_cases early : job.state = .Ready ∧ job.available_at_ms > now_ms
      · simp [Survey.note,DurableJob.due,DurableJob.expires,DurableJob.reclaimable,accepted,open_job,late,deadline,early]
      · have due : job.due now_ms handlers = true := by
          simp only [DurableJob.due,DurableJob.reclaimable,accepted,open_job,late,early,decide_true,decide_false]
          rfl
        have stays : job.expires now_ms handlers = false := by
          simp [DurableJob.expires,late]
        unfold Survey.note
        rw [if_neg (by simp [open_job]),if_neg deadline,if_neg early,due,stays]
        unfold Choosing.keep
        by_cases first : survey.candidate.all (outruns job) = true
        · rw [if_pos first]
          exact if_pos first
        · rw [if_neg first]
          exact if_neg first
  · simp [Survey.note,DurableJob.due,DurableJob.expires,DurableJob.reclaimable,accepted,open_job]

/-- The survey of all jobs: the foremost of those that are due, and those whose deadline has passed. -/
theorem survey_jobs_eq {now_ms : Int64} {handlers : List Bytes} {jobs : List DurableJob} (recorded : ∀ job ∈ jobs, job.Recorded)
    (survey : Survey) : survey_jobs now_ms handlers survey (jobs.map jobEntry) =
      .ok ⟨(jobs.filter (·.due now_ms handlers)).foldl (Choosing.keep outruns) survey.candidate,
        survey.expired ++ jobs.filter (·.expires now_ms handlers)⟩ := by
  induction jobs generalizing survey with
  | nil => simp [survey_jobs]
  | cons job jobs ih =>
    have later := fun survey => ih (fun other member => recorded other (List.mem_cons_of_mem job member)) survey
    rw [List.map_cons,jobEntry,survey_jobs,decode_stored_job (recorded job (by simp)).stored,ok_bind]
    by_cases accepted : job.accepted handlers = true
    · have looked : ¬ (handlers ≠ [] ∧ job.handler ∉ handlers) := by
        have either : handlers = [] ∨ job.handler ∈ handlers := of_decide_eq_true accepted
        tauto
      rw [if_neg looked,survey_note survey now_ms job handlers accepted,later]
      by_cases due : job.due now_ms handlers = true
      · have stays : job.expires now_ms handlers = false := by
          simp only [DurableJob.due,Bool.and_eq_true] at due
          simp only [DurableJob.expires,due.1.2,Bool.and_eq_false_iff]
          exact .inr (by simpa using due.1.2)
        simp [due,stays]
      · by_cases late : job.expires now_ms handlers = true
        · simp [due,late]
        · simp [due,late]
    · have skipped : handlers ≠ [] ∧ job.handler ∉ handlers := by
        have neither : ¬ (handlers = [] ∨ job.handler ∈ handlers) := fun either => accepted (decide_eq_true either)
        tauto
      rw [if_pos skipped,later]
      have not_due : job.due now_ms handlers = false := by simp [DurableJob.due,accepted]
      have stays : job.expires now_ms handlers = false := by simp [DurableJob.expires,accepted]
      simp [not_due,stays]

theorem lease_end {now_ms : Int64} {lease_duration_ms : UInt64} (small : lease_duration_ms.toNat < 2 ^ 63)
    (fits : now_ms.toInt + lease_duration_ms.toNat < 2 ^ 63) : ∃ lease lease_until_ms, Int64.try_from lease_duration_ms = some lease ∧
      now_ms.checked_add lease = some lease_until_ms ∧ lease_until_ms.toInt = now_ms.toInt + lease_duration_ms.toNat := by
  have tried : Int64.try_from lease_duration_ms = some (Int64.ofNat lease_duration_ms.toNat) := if_pos small
  have value : (Int64.ofNat lease_duration_ms.toNat).toInt = lease_duration_ms.toNat := Int64.toInt_ofNat_of_lt small
  have least := now_ms.le_toInt
  cases added : now_ms.checked_add (Int64.ofNat lease_duration_ms.toNat) with
  | none =>
    have far := i64_checked_add_none.mp added
    omega
  | some lease_until_ms =>
    have sum := i64_checked_add_eq.mp added
    rw [value] at sum
    exact ⟨_,lease_until_ms,tried,added,sum⟩

/-- The foremost of the jobs in the order of their ids. -/
theorem foremost_of_chosen {store : Store} {jobs : List DurableJob} {kind : DurableJob → Bool} {best : DurableJob}
    (has : ∀ job, job ∈ jobs ↔ store.HasJob job) (sorted : jobs.Pairwise (fun a b => compare a.id.val b.id.val = .lt))
    (chosen : Choosing.choose outruns (jobs.filter kind) = some best) : ForemostJob store kind best := by
  have member := Choosing.choose_mem outruns_order chosen
  obtain ⟨inside,is_kind⟩ := List.mem_filter.mp member
  obtain ⟨before,behind,split,first,rest⟩ := Choosing.choose_first outruns_order chosen
  have order := sorted.filter kind
  rw [split] at order
  refine ⟨(has best).mp inside,is_kind,?_⟩
  intro other known other_kind different
  have listed : other ∈ jobs.filter kind := List.mem_filter.mpr ⟨(has other).mpr known,other_kind⟩
  rw [split] at listed
  rw [Int32.lt_iff_toInt_lt,Int64.lt_iff_toInt_lt,← Int32.toInt_inj,← Int64.toInt_inj]
  rcases List.mem_append.mp listed with early | late
  · have ahead := outruns_iff.mp (first other early)
    omega
  · rcases List.mem_cons.mp late with same | after_best
    · exact absurd same different
    · have not_ahead := rest other after_best
      rw [← Bool.not_eq_true,outruns_iff] at not_ahead
      have by_id : compare best.id.val other.id.val = .lt := by
        obtain ⟨-,tail,-⟩ := List.pairwise_append.mp order
        exact (List.pairwise_cons.mp tail).1 other after_best
      by_cases lower : other.priority.toInt < best.priority.toInt
      · exact .inl lower
      · refine .inr ⟨by omega,?_⟩
        by_cases later : best.available_at_ms.toInt < other.available_at_ms.toInt
        · exact .inl later
        · exact .inr ⟨by omega,by_id⟩

/-! ## Writing a job -/

/-- The state of a job that is buried. -/
def DurableJob.buried (job : DurableJob) : DurableJob := { job with state := .Dead, lease_until_ms := 0 }

/-- The job with a lease of its own. -/
def DurableJob.leased (job : DurableJob) (lease_until_ms : Int64) : DurableJob :=
  { job with attempts := job.attempts + 1, state := .Leased, lease_until_ms, lease_generation := job.attempts + 1 }

/-- The job that was tried too often. -/
def DurableJob.exhausted (job : DurableJob) : DurableJob :=
  { job with attempts := job.attempts + 1, state := .Dead, lease_until_ms := 0 }

/-- Only the fields of fixed size change. -/
theorem DurableJob.Recorded.moved {job : DurableJob} (recorded : job.Recorded) (state : DurableJobState) (available_at_ms : Int64)
    (attempts : UInt32) (lease_until_ms : Int64) (lease_generation : UInt32) :
    DurableJob.Recorded { job with state, available_at_ms, attempts, lease_until_ms, lease_generation } := by
  refine ⟨⟨⟨recorded.stored.fits.handler,recorded.stored.fits.payload,recorded.stored.fits.key⟩,recorded.stored.deadline⟩,?_⟩
  have short := recorded.short
  rw [job_spelling_length] at short ⊢
  exact short

/-- An entry is in the history of its own job. -/
theorem history_key_of {a b : JobId} {sequence : UInt64} (own : history_prefix a <+: history_key b sequence) : a = b := by
  unfold history_key history_prefix at own
  rw [List.append_assoc,List.prefix_append_right_inj] at own
  have front := List.prefix_of_prefix_length_le own (List.prefix_append _ _) (by rw [a.property,b.property])
  exact Subtype.ext (front.eq_of_length (by rw [a.property,b.property]))

section
variable [Hashes]

theorem write_job_tx_eq {io : Io} {job : DurableJob} {entry : JobHistoryEntry} (fits : job.Fits) (short : entry.detail.length < 2 ^ 32) :
    write_job_tx io job entry =
      rethrow .Store (put_entries io [(job_key job.id,job.spelling),(history_key job.id entry.sequence,entry.spelling)]) := by
  unfold write_job_tx append_history_tx
  rw [encode_job_fits fits,encode_history_fits short]
  simp only [put_entries,rethrow_bind,lift_ok_bind,bind_assoc,rethrow_pure,bind_pure_unit]

/-- What a change of a job leaves of the map. -/
theorem persist_job_ok {io : Io} {job : DurableJob} {at_ms : Int64} {kind : JobHistoryKind} {detail : Bytes} {store t : Store} {x : Unit}
    (done : persist_job_with_history io job at_ms kind detail store = .ok x t) :
    (∀ id, t.state[job_key id]? = if job.id = id then some job.spelling else store.state[job_key id]?) ∧
      ∀ id, id ≠ job.id → t.next_history_sequence id = store.next_history_sequence id := by
  unfold persist_job_with_history at done
  rw [get_bind] at done
  obtain ⟨sequence,_,done⟩ := lift_bind_ok.mp done
  obtain ⟨tx,u,begun,wrote,same⟩ := within_ok done
  obtain ⟨fits,_,view⟩ := write_job_ok wrote
  rw [(begin_view begun).1] at view
  constructor
  · intro id
    have own := job_key_own id
    rw [same _ (job_outside_feed own),view,get_insert,if_neg (history_not_job own _ _),get_insert]
    by_cases here : job.id = id
    · subst here
      rw [if_pos rfl,if_pos rfl]
    · rw [if_neg (fun keys => here (job_key_injective keys)),if_neg here]
  · intro id other
    unfold Store.next_history_sequence
    rw [scan_prefix_eq,scan_prefix_eq,scan_congr]
    intro key own
    rw [starts_with_iff] at own
    have outside : starts_with key CDC_PREFIX = false :=
      domain_key_outside ⟨HISTORY_PREFIX,by decide,(List.prefix_append _ _).trans own⟩
    rw [same key outside,view,get_insert,if_neg,get_insert,if_neg]
    · rintro rfl
      exact prefixes_apart (by decide) ((List.prefix_append HISTORY_PREFIX _).trans own) (List.prefix_append JOB_PREFIX _)
    · rintro rfl
      exact other (history_key_of own)

theorem persist_job_succeeds {io : Io} {job : DurableJob} {at_ms : Int64} {kind : JobHistoryKind} {detail : Bytes} {store : Store}
    {transactions records : Nat} (faultless : io.Faultless) (recorded : job.Recorded) (short : detail.length + 100 < 2 ^ 32)
    (continues : ∃ sequence, store.next_history_sequence job.id = .ok sequence) (roomy : Roomy store (transactions + 1) (records + 5)) :
    ∃ t, persist_job_with_history io job at_ms kind detail store = .ok () t ∧ Roomy t transactions records := by
  obtain ⟨sequence,continues⟩ := continues
  have job_key_long : (job_key job.id).length = 30 := by simp [job_key,JOB_PREFIX,INTERNAL_KEY_PREFIX,ascii,job.id.property]
  have history_key_long : (history_key job.id sequence).length = 41 := by
    simp [history_key, history_prefix,HISTORY_PREFIX,INTERNAL_KEY_PREFIX,ascii,job.id.property]
  have entry_long : (JobHistoryEntry.mk sequence at_ms kind detail).spelling.length = 22 + detail.length := by
    simp [JobHistoryEntry.spelling]
    omega
  have all : ∀ entry ∈ [(job_key job.id,job.spelling),(history_key job.id sequence,(JobHistoryEntry.mk sequence at_ms kind detail).spelling)],
      Storable entry := by
    intro entry member
    rcases List.mem_cons.mp member with rfl | member
    · refine ⟨?_,recorded.short⟩
      show (job_key job.id).length + 100 < 2 ^ 32
      omega
    · rcases List.mem_singleton.mp member with rfl
      constructor
      · show (history_key job.id sequence).length + 100 < 2 ^ 32
        omega
      · show 4 + ((history_key job.id sequence).length + (JobHistoryEntry.mk sequence at_ms kind detail).spelling.length) < 2 ^ 32
        omega
  obtain ⟨t,done,left⟩ := @within_puts_succeeds _ _ JobError.Store io store _ faultless all (by simp) transactions records roomy
  refine ⟨t,?_,left⟩
  unfold persist_job_with_history
  rw [get_bind,continues,lift_ok_bind,write_job_tx_eq recorded.stored.fits (show detail.length < 2 ^ 32 by omega)]
  exact done

/-- These jobs have been buried, and nothing else has changed. -/
structure Buries (jobs : List DurableJob) (s t : Store) : Prop where
  dead : ∀ job ∈ jobs, t.state[job_key job.id]? = some job.buried.spelling
  others : ∀ id, id ∉ jobs.map DurableJob.id → t.state[job_key id]? = s.state[job_key id]? ∧
    t.next_history_sequence id = s.next_history_sequence id

theorem bury_overdue_succeeds {io : Io} {now_ms : Int64} {jobs : List DurableJob} {store : Store} {transactions records : Nat}
    (faultless : io.Faultless) (recorded : ∀ job ∈ jobs, job.Recorded) (distinct : (jobs.map DurableJob.id).Nodup)
    (continues : ∀ job ∈ jobs, ∃ sequence, store.next_history_sequence job.id = .ok sequence)
    (roomy : Roomy store (transactions + jobs.length) (records + 5 * jobs.length)) :
    ∃ t, bury_overdue io now_ms jobs store = .ok () t ∧ Roomy t transactions records ∧ Buries jobs store t := by
  induction jobs generalizing store with
  | nil => exact ⟨store,rfl,roomy,by simp,fun _ _ => ⟨rfl,rfl⟩⟩
  | cons job jobs ih =>
    rw [List.map_cons,List.nodup_cons] at distinct
    rw [List.length_cons] at roomy
    have buried : job.buried.Recorded :=
      (recorded job (by simp)).moved .Dead job.available_at_ms job.attempts 0 job.lease_generation
    obtain ⟨middle,done,left⟩ := @persist_job_succeeds _ io job.buried now_ms .Dead (ascii "deadline exceeded") store
      (transactions + jobs.length) (records + 5 * jobs.length) faultless buried (by decide) (continues job (by simp))
      ⟨roomy.unlimited,by have := roomy.tx_ids; omega,by have := roomy.sequences; omega⟩
    obtain ⟨written,histories⟩ := persist_job_ok done
    have apart : ∀ other ∈ jobs, other.id ≠ job.id := by
      intro other member same
      exact distinct.1 (List.mem_map.mpr ⟨other,member,same⟩)
    obtain ⟨t,rest,room,dead,others⟩ := ih (fun other member => recorded other (by simp [member])) distinct.2 (by
      intro other member
      rw [histories other.id (apart other member)]
      exact continues other (by simp [member])) left
    refine ⟨t,?_,room,?_,?_⟩
    · show (persist_job_with_history io job.buried now_ms .Dead (ascii "deadline exceeded") >>= fun _ => bury_overdue io now_ms jobs) store = _
      rw [bind_of_ok done]
      exact rest
    · intro other member
      rcases List.mem_cons.mp member with rfl | later
      · rw [(others _ distinct.1).1,written]
        exact if_pos rfl
      · exact dead other later
    · intro id missing
      rw [List.map_cons,List.mem_cons,not_or] at missing
      obtain ⟨same,history⟩ := others id missing.2
      refine ⟨same.trans ?_,history.trans (histories id missing.1)⟩
      rw [written]
      exact if_neg (fun here => missing.1 here.symm)

/-- Every history can be continued. -/
def Continues (store : Store) : Prop := ∀ id, ∃ sequence, store.next_history_sequence id = .ok sequence

/-- After what was found out about the jobs: what the claim does with the foremost one. -/
inductive Claims (store t : Store) (now_ms lease_until_ms : Int64) (handlers : List Bytes) :
    EStateM.Result JobError Store (Option DurableJob) → Prop
  | nothing (none_due : ∀ job, store.HasJob job → job.due now_ms handlers = false) : Claims store t now_ms lease_until_ms handlers (.ok none t)
  | full {best : DurableJob} (foremost : ForemostJob store (·.due now_ms handlers) best) (full : 2 ^ 32 ≤ best.attempts.toNat + 1) :
      Claims store t now_ms lease_until_ms handlers (.error .AttemptExhausted t)
  | exhausts {best : DurableJob} {u : Store} (foremost : ForemostJob store (·.due now_ms handlers) best)
      (room : best.attempts.toNat + 1 < 2 ^ 32) (exhausted : best.max_attempts ≤ best.attempts)
      (written : ∀ id, u.state[job_key id]? = if best.id = id then some best.exhausted.spelling else t.state[job_key id]?) :
      Claims store t now_ms lease_until_ms handlers (.ok none u)
  | leases {best : DurableJob} {u : Store} (foremost : ForemostJob store (·.due now_ms handlers) best)
      (tries : best.attempts < best.max_attempts)
      (written : ∀ id, u.state[job_key id]? = if best.id = id then some (best.leased lease_until_ms).spelling else t.state[job_key id]?) :
      Claims store t now_ms lease_until_ms handlers (.ok (some (best.leased lease_until_ms)) u)

/-- What a claim does with the job that it takes. -/
def take_job (io : Io) (now_ms lease_until_ms : Int64) (job : DurableJob) : EStateM JobError Store (Option DurableJob) := do
  let attempts ← lift (ok_or .AttemptExhausted (job.attempts.checked_add 1))
  if attempts > job.max_attempts then
    persist_job_with_history io { job with attempts, state := .Dead, lease_until_ms := 0 } now_ms .Dead (ascii "max attempts exceeded")
    return none
  else
    let job := { job with attempts, state := .Leased, lease_until_ms, lease_generation := attempts }
    persist_job_with_history io job now_ms .Claimed []
    return some job

/-- What a claim does where the store has room. -/
theorem claim_outcome {store : Store} {io : Io} {now_ms : Int64} {lease_duration_ms : UInt64} {handlers : List Bytes}
    (book : JobBook store.state) (faultless : io.Faultless) (continues : Continues store)
    (roomy : Roomy store ((Store.scan_prefix store JOB_PREFIX).length + 1) (5 * ((Store.scan_prefix store JOB_PREFIX).length + 1)))
    (small : lease_duration_ms.toNat < 2 ^ 63) (fits : now_ms.toInt + lease_duration_ms.toNat < 2 ^ 63) :
    ∃ jobs t lease_until_ms, (∀ job, job ∈ jobs ↔ store.HasJob job ∧ job.expires now_ms handlers = true) ∧ Buries jobs store t ∧
      lease_until_ms.toInt = now_ms.toInt + lease_duration_ms.toNat ∧
      Claims store t now_ms lease_until_ms handlers (claim_job_for_handlers io now_ms lease_duration_ms handlers store) := by
  obtain ⟨jobs,listed,recorded,has,sorted⟩ := book.listed
  obtain ⟨lease,lease_until_ms,tried,added,until_value⟩ := lease_end small fits
  have size : (Store.scan_prefix store JOB_PREFIX).length = jobs.length := by rw [listed,List.length_map]
  rw [size] at roomy
  have distinct : (jobs.map DurableJob.id).Nodup := by
    rw [List.Nodup,List.pairwise_map]
    refine sorted.imp ?_
    intro a b less same
    rw [same,Std.ReflOrd.compare_self] at less
    cases less
  have few : (jobs.filter (·.expires now_ms handlers)).length ≤ jobs.length := List.length_filter_le _ _
  obtain ⟨t,buried,room,buries⟩ := @bury_overdue_succeeds _ io now_ms (jobs.filter (·.expires now_ms handlers)) store 1 5 faultless
    (fun job member => recorded job (List.mem_filter.mp member).1) ((List.filter_sublist.map _).nodup distinct)
    (fun job _ => continues job.id)
    ⟨roomy.unlimited,by have := roomy.tx_ids; omega,by have := roomy.sequences; omega⟩
  refine ⟨_,t,lease_until_ms,fun job => by rw [List.mem_filter,has],buries,until_value,?_⟩
  have started : claim_job_for_handlers io now_ms lease_duration_ms handlers store =
      ((Choosing.choose outruns (jobs.filter (·.due now_ms handlers))).elim (return none) (take_job io now_ms lease_until_ms) :
        EStateM JobError Store (Option DurableJob)) t := by
    unfold claim_job_for_handlers
    rw [tried,lift_bind_run]
    show (lift (ok_or JobError.TimeOverflow (now_ms.checked_add lease)) >>= _) store = _
    rw [added,lift_bind_run]
    show (lift (survey_jobs now_ms handlers ⟨none,[]⟩ (Store.scan_prefix store JOB_PREFIX)) >>= _) store = _
    rw [listed,survey_jobs_eq recorded,lift_ok_bind,List.nil_append,bind_of_ok buried]
    unfold Choosing.choose
    cases List.foldl (Choosing.keep outruns) none (jobs.filter (·.due now_ms handlers)) <;> rfl
  rw [started]
  cases chosen : Choosing.choose outruns (jobs.filter (·.due now_ms handlers)) with
  | none =>
    refine .nothing ?_
    intro job known
    rw [Bool.eq_false_iff]
    intro due
    have member : job ∈ jobs.filter (·.due now_ms handlers) := List.mem_filter.mpr ⟨(has job).mpr known,due⟩
    rw [Choosing.choose_eq_none.mp chosen] at member
    cases member
  | some best =>
    have foremost := foremost_of_chosen has sorted chosen
    have best_recorded := recorded best ((has best).mpr foremost.has)
    -- The foremost job is not one of those that were buried.
    have not_buried : best.id ∉ (jobs.filter (·.expires now_ms handlers)).map DurableJob.id := by
      intro again
      obtain ⟨other,member,same⟩ := List.mem_map.mp again
      obtain ⟨inside,expires⟩ := List.mem_filter.mp member
      rw [List.inj_on_of_nodup_map distinct inside ((has best).mpr foremost.has) same] at expires
      have due := foremost.fits
      simp only [DurableJob.due,DurableJob.expires,Bool.and_eq_true,Bool.not_eq_true'] at due expires
      rw [due.1.2] at expires
      cases expires.2
    have history : ∃ sequence, t.next_history_sequence best.id = .ok sequence := by
      rw [(buries.others best.id not_buried).2]
      exact continues best.id
    by_cases space : best.attempts.toNat + 1 < 2 ^ 32
    · have raised : best.attempts.checked_add 1 = some (best.attempts + 1) := if_pos space
      have value : (best.attempts + 1).toNat = best.attempts.toNat + 1 := u32_checked_add_some raised
      by_cases tries : best.attempts < best.max_attempts
      · have allowed : ¬ best.attempts + 1 > best.max_attempts := by
          rw [gt_iff_lt,UInt32.lt_iff_toNat_lt,value]
          rw [UInt32.lt_iff_toNat_lt] at tries
          omega
        obtain ⟨u,done,-⟩ := @persist_job_succeeds _ io (best.leased lease_until_ms) now_ms .Claimed [] t 0 0 faultless
          (best_recorded.moved .Leased best.available_at_ms (best.attempts + 1) lease_until_ms (best.attempts + 1)) (by decide) history room
        have result : take_job io now_ms lease_until_ms best t = .ok (some (best.leased lease_until_ms)) u := by
          rw [take_job,raised,lift_bind_run]
          show (if best.attempts + 1 > best.max_attempts then _ else _ : EStateM JobError Store (Option DurableJob)) t = _
          rw [if_neg allowed]
          show (persist_job_with_history io (best.leased lease_until_ms) now_ms .Claimed [] >>= _) t = _
          rw [bind_of_ok done]
          rfl
        rw [Option.elim_some,result]
        exact .leases foremost tries (persist_job_ok done).1
      · have refused : best.attempts + 1 > best.max_attempts := by
          rw [gt_iff_lt,UInt32.lt_iff_toNat_lt,value]
          rw [UInt32.lt_iff_toNat_lt] at tries
          omega
        obtain ⟨u,done,-⟩ := @persist_job_succeeds _ io best.exhausted now_ms .Dead (ascii "max attempts exceeded") t 0 0 faultless
          (best_recorded.moved .Dead best.available_at_ms (best.attempts + 1) 0 best.lease_generation) (by decide) history room
        have result : take_job io now_ms lease_until_ms best t = .ok none u := by
          rw [take_job,raised,lift_bind_run]
          show (if best.attempts + 1 > best.max_attempts then _ else _ : EStateM JobError Store (Option DurableJob)) t = _
          rw [if_pos refused]
          show (persist_job_with_history io best.exhausted now_ms .Dead (ascii "max attempts exceeded") >>= _) t = _
          rw [bind_of_ok done]
          rfl
        rw [Option.elim_some,result]
        exact .exhausts foremost space (UInt32.not_lt.mp tries) (persist_job_ok done).1
    · have refused : best.attempts.checked_add 1 = none := if_neg space
      have result : take_job io now_ms lease_until_ms best t = .error .AttemptExhausted t := by
        rw [take_job,refused,lift_bind_run]
        rfl
      rw [Option.elim_some,result]
      exact .full foremost (by omega)

end

/-! ## What a claim should do -/

/-- The claim takes the foremost job that is claimable, finds nothing only if there is none,
    and buries others only for their deadlines or because they were tried too often. -/
structure ClaimsRightly (store t : Store) (now_ms lease_until_ms : Int64) (handlers : List Bytes) (outcome : Option DurableJob) : Prop where
  takes : (∃ job, store.HasJob job ∧ job.claimable now_ms handlers = true) →
    ∃ best, ForemostJob store (·.claimable now_ms handlers) best ∧ outcome = some (best.leased lease_until_ms) ∧
      t.HasJob (best.leased lease_until_ms)
  nothing : outcome = none → ¬ ∃ job, store.HasJob job ∧ job.claimable now_ms handlers = true
  others : ∀ job, store.HasJob job → outcome.map DurableJob.id ≠ some job.id → t.HasJob job ∨
    ∃ dead, t.HasJob dead ∧ dead.id = job.id ∧ dead.state = .Dead ∧ (job.lapsed now_ms = true ∨ job.max_attempts ≤ job.attempts)

/-- The foremost job of those that are due may still be tried; or no job is claimable, and its attempts can be counted. -/
def ForemostTries (store : Store) (now_ms : Int64) (handlers : List Bytes) : Prop :=
  ∀ best, ForemostJob store (·.due now_ms handlers) best → best.attempts < best.max_attempts ∨
    (¬ ∃ job, store.HasJob job ∧ job.claimable now_ms handlers = true) ∧ best.attempts.toNat + 1 < 2 ^ 32

theorem ForemostJob.unique {store : Store} {kind : DurableJob → Bool} {a b : DurableJob} (first : ForemostJob store kind a)
    (second : ForemostJob store kind b) : a = b := by
  by_contra different
  have ahead := first.first b second.has second.fits (Ne.symm different)
  have behind := second.first a first.has first.fits different
  rw [Int32.lt_iff_toInt_lt,Int64.lt_iff_toInt_lt,← Int32.toInt_inj,← Int64.toInt_inj] at ahead behind
  have apart : ¬ (compare a.id.val b.id.val = .lt ∧ compare b.id.val a.id.val = .lt) := by
    rintro ⟨less,more⟩
    rw [Std.OrientedOrd.eq_swap,more] at less
    cases less
  rcases ahead with low | ⟨_,later | ⟨_,less⟩⟩ <;> rcases behind with low | ⟨_,later | ⟨_,more⟩⟩
  all_goals first | omega | exact apart ⟨less,more⟩

theorem claimable_due {job : DurableJob} {now_ms : Int64} {handlers : List Bytes} (claimable : job.claimable now_ms handlers = true) :
    job.due now_ms handlers = true ∧ job.attempts < job.max_attempts := by
  rw [DurableJob.claimable,Bool.and_eq_true,decide_eq_true_eq] at claimable
  exact claimable

/-- What became of a job that was not taken. -/
theorem Buries.fate {jobs : List DurableJob} {s t : Store} {now_ms : Int64} {handlers : List Bytes} (buries : Buries jobs s t)
    (book : JobBook s.state) (expired : ∀ job, job ∈ jobs ↔ s.HasJob job ∧ job.expires now_ms handlers = true) {job : DurableJob}
    (has : s.HasJob job) : t.state[job_key job.id]? = some job.spelling ∨
      t.state[job_key job.id]? = some job.buried.spelling ∧ job.lapsed now_ms = true := by
  by_cases expires : job.expires now_ms handlers = true
  · refine .inr ⟨buries.dead job ((expired job).mpr ⟨has,expires⟩),?_⟩
    simp only [DurableJob.expires,Bool.and_eq_true] at expires
    exact expires.2
  · left
    rw [(buries.others job.id ?_).1]
    · exact (book.has.mp has).2
    · intro again
      obtain ⟨other,member,same⟩ := List.mem_map.mp again
      obtain ⟨known,late⟩ := (expired other).mp member
      -- The other one has the same record.
      unfold Store.HasJob at known has
      rw [same,has] at known
      cases known
      exact expires late

section
variable [Hashes]

theorem claim_right_iff {store : Store} {io : Io} {now_ms : Int64} {lease_duration_ms : UInt64} {handlers : List Bytes}
    (book : JobBook store.state) (faultless : io.Faultless) (continues : Continues store)
    (roomy : Roomy store ((Store.scan_prefix store JOB_PREFIX).length + 1) (5 * ((Store.scan_prefix store JOB_PREFIX).length + 1)))
    (small : lease_duration_ms.toNat < 2 ^ 63) (fits : now_ms.toInt + lease_duration_ms.toNat < 2 ^ 63) :
    (∃ outcome t lease_until_ms, claim_job_for_handlers io now_ms lease_duration_ms handlers store = .ok outcome t ∧
      lease_until_ms.toInt = now_ms.toInt + lease_duration_ms.toNat ∧ ClaimsRightly store t now_ms lease_until_ms handlers outcome) ↔
    ForemostTries store now_ms handlers := by
  obtain ⟨jobs,t,lease_until_ms,expired,buries,until_value,claims⟩ := @claim_outcome _ store io now_ms lease_duration_ms handlers book
    faultless continues roomy small fits
  have fate := fun job (has : store.HasJob job) => buries.fate book expired has
  have recorded := fun job (has : store.HasJob job) => (book.has.mp has).1
  have as_dead : ∀ job, store.HasJob job → job.buried.Stored := fun job has =>
    ((recorded job has).moved .Dead job.available_at_ms job.attempts 0 job.lease_generation).stored
  generalize claim_job_for_handlers io now_ms lease_duration_ms handlers store = result at claims
  cases claims with
  | nothing none_due =>
    have none_claimable : ¬ ∃ job, store.HasJob job ∧ job.claimable now_ms handlers = true := by
      rintro ⟨job,has,claimable⟩
      have := none_due job has
      rw [(claimable_due claimable).1] at this
      cases this
    constructor
    · intro _ best foremost
      have := none_due best foremost.has
      rw [show best.due now_ms handlers = true from foremost.fits] at this
      cases this
    · intro _
      refine ⟨none,t,lease_until_ms,rfl,until_value,fun some_claimable => absurd some_claimable none_claimable,fun _ => none_claimable,?_⟩
      intro job has _
      rcases fate job has with same | ⟨dead,late⟩
      · exact .inl (has_job_of_spelled (recorded job has).stored same)
      · exact .inr ⟨job.buried,has_job_of_spelled (as_dead job has) dead,rfl,rfl,.inl late⟩
  | @full best foremost overflows =>
    constructor
    · rintro ⟨outcome,u,lease_until,done,-⟩
      cases done
    · intro tries
      have bound := best.max_attempts.toNat_lt
      rcases tries best foremost with less | ⟨-,room⟩
      · rw [UInt32.lt_iff_toNat_lt] at less
        omega
      · omega
  | @exhausts best u foremost room exhausted written =>
    constructor
    · rintro ⟨outcome,w,lease_until,done,-,rightly⟩ other also
      cases done
      rw [also.unique foremost]
      exact .inr ⟨rightly.nothing rfl,room⟩
    · intro tries
      have none_claimable : ¬ ∃ job, store.HasJob job ∧ job.claimable now_ms handlers = true := by
        rcases tries best foremost with less | ⟨none_claimable,-⟩
        · exact absurd exhausted (UInt32.not_le.mpr less)
        · exact none_claimable
      refine ⟨none,u,lease_until_ms,rfl,until_value,fun some_claimable => absurd some_claimable none_claimable,fun _ => none_claimable,?_⟩
      intro job has _
      by_cases here : best.id = job.id
      · have same : best = job := by
          have known := foremost.has
          unfold Store.HasJob at known has
          rw [here,has] at known
          cases known
          rfl
        subst same
        have dead_stored := (recorded best has).moved .Dead best.available_at_ms (best.attempts + 1) 0 best.lease_generation
        refine .inr ⟨best.exhausted,has_job_of_spelled dead_stored.stored ?_,rfl,rfl,.inr exhausted⟩
        show u.state[job_key best.id]? = _
        rw [written,if_pos rfl]
      · rcases fate job has with same | ⟨dead,late⟩
        · exact .inl (has_job_of_spelled (recorded job has).stored (by rw [written,if_neg here]; exact same))
        · exact .inr ⟨job.buried,has_job_of_spelled (as_dead job has) (by
            show u.state[job_key job.id]? = _
            rw [written,if_neg here]
            exact dead),rfl,rfl,.inl late⟩
  | @leases best u foremost tries written =>
    constructor
    · intro _ other also
      rw [also.unique foremost]
      exact .inl tries
    · intro _
      have leased_stored := (recorded best foremost.has).moved .Leased best.available_at_ms (best.attempts + 1) lease_until_ms
        (best.attempts + 1)
      have best_claimable : best.claimable now_ms handlers = true := by
        rw [DurableJob.claimable,Bool.and_eq_true]
        exact ⟨foremost.fits,decide_eq_true tries⟩
      refine ⟨_,u,lease_until_ms,rfl,until_value,?_,by simp,?_⟩
      · intro _
        refine ⟨best,⟨foremost.has,best_claimable,?_⟩,rfl,has_job_of_spelled leased_stored.stored ?_⟩
        · intro other has claimable different
          exact foremost.first other has (claimable_due claimable).1 different
        · show u.state[job_key best.id]? = _
          rw [written,if_pos rfl]
      · intro job has different
        have here : ¬ best.id = job.id := fun same => different (congrArg some same)
        rcases fate job has with same | ⟨dead,late⟩
        · exact .inl (has_job_of_spelled (recorded job has).stored (by rw [written,if_neg here]; exact same))
        · exact .inr ⟨job.buried,has_job_of_spelled (as_dead job has) (by
            show u.state[job_key job.id]? = _
            rw [written,if_neg here]
            exact dead),rfl,rfl,.inl late⟩

end

end VoodooStore
