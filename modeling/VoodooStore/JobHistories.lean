import VoodooStore.JobLeases

/-!
# The histories of jobs

A job and its history are written together: the last entry tells what the job is
doing, and its attempts are the claims since it was last submitted or revived. As
long as no transaction is committed that made a job without a history, this holds of
every job, and what is done with stays done with (`histories_agree`).
-/
namespace VoodooStore
open Effects
set_option linter.unusedSimpArgs false

/-! ## One job -/

/-- The state of a job whose history ends with such an entry. -/
def JobHistoryKind.leaves : JobHistoryKind → DurableJobState
  | .Submitted => .Ready
  | .RetryScheduled => .Ready
  | .Claimed => .Leased
  | .Completed => .Completed
  | .Dead => .Dead
  | .Cancelled => .Cancelled

/-- The entry tells that the job is submitted, or that it was dead and is tried again. -/
def JobHistoryEntry.resets (again : List (JobId × UInt64)) (id : JobId) (entry : JobHistoryEntry) : Bool :=
  decide (entry.kind = .Submitted) || decide ((id,entry.sequence) ∈ again)

/-- The claims since then. -/
def claimsSince (again : List (JobId × UInt64)) (id : JobId) (history : List JobHistoryEntry) : Nat :=
  (history.reverse.takeWhile (fun entry => !entry.resets again id)).countP (fun entry => entry.kind = .Claimed)

/-- The map holds a job and its history, where these dead jobs have been tried again. -/
structure Storied (again : List (JobId × UInt64)) (s : State) (job : DurableJob) (history : List JobHistoryEntry) : Prop where
  has : JobIn s job
  lined : Lined (VoodooStore.history_prefix job.id) JobHistoryEntry.sequence JobHistoryEntry.spelling history s
  fits : ∀ entry ∈ history, entry.detail.length < 2 ^ 32
  numbered : history.map (fun entry => entry.sequence.toNat) = List.range history.length
  begins : history.head?.map JobHistoryEntry.kind = some .Submitted
  ends : history.getLast?.map (fun entry => entry.kind.leaves) = some job.state
  tries : job.state ≠ .Dead → job.attempts.toNat = claimsSince again job.id history ∧ job.attempts ≤ job.max_attempts
  told : ∀ sequence, (job.id,sequence) ∈ again → sequence.toNat < history.length

/-- Every job has its history, and nothing is told of what is not there. -/
structure Histories (again : List (JobId × UInt64)) (s : State) : Prop where
  known : ∀ job, JobIn s job → ∃ history, Storied again s job history
  unknown : ∀ id, s[job_key id]? = none →
    Lined (VoodooStore.history_prefix id) JobHistoryEntry.sequence JobHistoryEntry.spelling [] s ∧ ∀ sequence, (id,sequence) ∉ again

theorem claims_since_snoc (again : List (JobId × UInt64)) (id : JobId) (history : List JobHistoryEntry) (entry : JobHistoryEntry) :
    claimsSince again id (history ++ [entry]) = if entry.resets again id then 0
      else claimsSince again id history + if entry.kind = .Claimed then 1 else 0 := by
  unfold claimsSince
  rw [List.reverse_append,List.reverse_singleton,List.singleton_append]
  by_cases resets : entry.resets again id = true
  · rw [List.takeWhile_cons_of_neg (by simp [resets]),if_pos resets]
    rfl
  · rw [List.takeWhile_cons_of_pos (by simp [resets]),if_neg resets,List.countP_cons]
    simp

/-- What is told of others, or of later entries, does not count. -/
theorem claims_since_more {again more : List (JobId × UInt64)} {id : JobId} {history : List JobHistoryEntry}
    (apart : ∀ entry ∈ history, (id,entry.sequence) ∉ more) : claimsSince (again ++ more) id history = claimsSince again id history := by
  unfold claimsSince
  have same : ∀ entry ∈ history.reverse, (!entry.resets (again ++ more) id) = (!entry.resets again id) := by
    intro entry member
    have other := apart entry (List.mem_reverse.mp member)
    simp [JobHistoryEntry.resets,List.mem_append,other]
  congr 1
  generalize history.reverse = entries at same
  induction entries with
  | nil => rfl
  | cons entry entries ih =>
    rw [List.takeWhile_cons,List.takeWhile_cons,same entry (by simp),ih (fun other member => same other (by simp [member]))]

section
variable {again more : List (JobId × UInt64)} {s t : State} {job : DurableJob} {history : List JobHistoryEntry} {id : JobId}

theorem job_history_inside {key : Bytes} (own : starts_with key (VoodooStore.history_prefix id) = true) : jobSpace key :=
  .inr ((List.prefix_append HISTORY_PREFIX _).trans ((starts_with_iff _ _).mp own))

/-- A job whose record and history are left alone. -/
theorem Storied.congr (storied : Storied again s job history) (has : JobIn t job)
    (same : ∀ key, starts_with key (VoodooStore.history_prefix job.id) = true → t[key]? = s[key]?) (others : ∀ sequence, (job.id,sequence) ∉ more) :
    Storied (again ++ more) t job history := by
  refine { storied with has,lined := storied.lined.congr same,tries := fun alive => ?_,told := ?_ }
  · rw [claims_since_more (fun entry _ => others entry.sequence)]
    exact storied.tries alive
  · intro sequence member
    rcases List.mem_append.mp member with early | late
    · exact storied.told sequence early
    · exact absurd late (others sequence)

theorem Histories.same (histories : Histories again s) (same : SameJobs s t) : Histories again t := by
  refine ⟨?_,?_⟩
  · intro job has
    obtain ⟨history,storied⟩ := histories.known job (same.job_in.mpr has)
    have kept := @Storied.congr again [] s t job history storied has (fun key own => same key (job_history_inside own)) (by simp)
    rw [List.append_nil] at kept
    exact ⟨history,kept⟩
  · intro id none
    obtain ⟨silent,untold⟩ := histories.unknown id (by rw [← same _ (job_key_space id)]; exact none)
    exact ⟨silent.congr (fun key own => same key (job_history_inside own)),untold⟩

theorem Storied.nonempty (storied : Storied again s job history) : history ≠ [] := by
  rintro rfl
  cases storied.begins

theorem decode_sequence_job (id : JobId) (sequence : UInt64) : decode_history_sequence id (history_key id sequence) = .ok sequence := by
  have own : starts_with (history_key id sequence) (VoodooStore.history_prefix id) = true := (starts_with_iff _ _).mpr (List.prefix_append _ _)
  have size : (history_key id sequence).length = (VoodooStore.history_prefix id).length + 8 := by simp [history_key]
  have bound : sequence.toNat < 256 ^ 8 := sequence.toNat_lt
  unfold decode_history_sequence
  dsimp only
  rw [own,size,if_neg (by simp),slice_ok (Nat.le_add_right _ 8) (by rw [size]),history_key,List.drop_left,ok_bind,UInt64.to_be_bytes,
    Nat.add_sub_cancel_left,List.take_of_length_le (by simp),Endian.ofBe_toBe bound,UInt64.ofNat_toNat]
  rfl

/-- The next number is the length of the history. -/
theorem Storied.sequence (storied : Storied again s job history) {sequence : UInt64} (counted : nextSequence s job.id = .ok sequence) :
    sequence.toNat = history.length := by
  obtain ⟨front,last,rfl⟩ := List.eq_nil_or_concat history |>.resolve_left storied.nonempty
  unfold nextSequence at counted
  rw [storied.lined.scan,List.concat_eq_append,List.map_append,List.map_singleton,List.getLast?_concat] at counted
  dsimp only at counted
  rw [show  history_prefix job.id ++ last.sequence.to_be_bytes = history_key job.id last.sequence from rfl,decode_sequence_job,ok_bind]
    at counted
  have above := u64_checked_add_some (ok_or_ok.mp counted)
  have ends := congrArg List.getLast? storied.numbered
  rw [List.concat_eq_append,List.map_append,List.map_singleton,List.getLast?_concat,List.length_append,List.length_singleton,
    List.range_succ,List.getLast?_concat] at ends
  rw [above,UInt64.toNat_one,Option.some.inj ends]
  simp

theorem Storied.below (storied : Storied again s job history) {sequence : UInt64} (next : sequence.toNat = history.length) :
    ∀ other ∈ history, other.sequence < sequence := by
  intro other member
  have among : other.sequence.toNat ∈ history.map (fun entry => entry.sequence.toNat) := List.mem_map.mpr ⟨other,member,rfl⟩
  rw [storied.numbered,List.mem_range] at among
  rw [UInt64.lt_iff_toNat_lt,next]
  exact among

end

/-! ## One write -/

section
variable {again more : List (JobId × UInt64)} {s t : State} {fact : JobFact} {facts : List JobFact} {job : DurableJob}
  {history : List JobHistoryEntry} {id : JobId}

/-- A write changes a history by its entry alone. -/
theorem JobStep.history_at (step : JobStep s fact t) {key : Bytes} (own : starts_with key (VoodooStore.history_prefix id) = true) :
    t[key]? = match fact.entry with
      | some entry => (s.insert (history_key fact.job.id entry.sequence) entry.spelling)[key]?
      | none => s[key]? := by
  have apart : job_key fact.job.id ≠ key := by
    rintro rfl
    exact prefixes_apart (by decide) ((starts_with_iff _ _).mp (job_key_own fact.job.id))
      ((List.prefix_append HISTORY_PREFIX _).trans ((starts_with_iff _ _).mp own))
  rw [step.leads _ (job_history_inside own)]
  unfold JobFact.written
  cases fact.entry with
  | none => exact get_insert.trans (if_neg apart)
  | some entry =>
    dsimp only
    rw [get_insert,get_insert,get_insert,if_neg apart]

theorem JobStep.history_other (step : JobStep s fact t) (other : fact.job.id ≠ id) {key : Bytes}
    (own : starts_with key (VoodooStore.history_prefix id) = true) : t[key]? = s[key]? := by
  rw [step.history_at own]
  cases fact.entry with
  | none => rfl
  | some entry =>
    dsimp only
    rw [get_insert,if_neg]
    rintro rfl
    rw [starts_with_iff] at own
    have inside : HISTORY_PREFIX ++ id.val <+: HISTORY_PREFIX ++ fact.job.id.val ++ entry.sequence.to_be_bytes := own
    exact other (id_front inside).symm

/-- The history grows by the entry that is written. -/
theorem JobStep.longer (step : JobStep s fact t) {entry : JobHistoryEntry} (tells : fact.entry = some entry)
    (lined : Lined (VoodooStore.history_prefix fact.job.id) JobHistoryEntry.sequence JobHistoryEntry.spelling history s)
    (last : ∀ other ∈ history, other.sequence < entry.sequence) :
    Lined (VoodooStore.history_prefix fact.job.id) JobHistoryEntry.sequence JobHistoryEntry.spelling (history ++ [entry]) t := by
  refine (lined.snoc last).congr (fun key own => ?_)
  rw [step.history_at own,tells]
  rfl

theorem JobFact.again_id {sequence : UInt64} (is : fact.again = some (id,sequence)) (allowed : fact.Allowed s) : id = fact.job.id := by
  cases allowed with
  | @turned old new entry has becomes next =>
    unfold JobFact.again at is
    dsimp only at is
    split at is
    · obtain ⟨rfl,-⟩ := Prod.mk.inj (Option.some.inj is)
      exact becomes.id.symm
    · cases is
  | _ => cases is

/-- The history of a job that is made. -/
theorem JobStep.first (step : JobStep s fact t) {entry : JobHistoryEntry} (tells : fact.entry = some entry) (first : entry.First)
    (new : fact.job.Newborn) (untold : ∀ sequence, (fact.job.id,sequence) ∉ again)
    (silent : Lined (VoodooStore.history_prefix fact.job.id) JobHistoryEntry.sequence JobHistoryEntry.spelling [] s) :
    Storied again t fact.job [entry] where
  has := step.has
  lined := step.longer tells silent (by simp)
  fits := by simpa using step.short entry tells
  numbered := by simp [first.sequence]
  begins := congrArg some first.kind
  ends := by simp [first.kind,new.state,JobHistoryKind.leaves]
  tries := by
    intro _
    have resets : entry.resets again fact.job.id = true := by simp [JobHistoryEntry.resets,first.kind]
    have none_yet := claims_since_snoc again fact.job.id [] entry
    rw [List.nil_append,if_pos resets] at none_yet
    rw [none_yet,new.attempts]
    exact ⟨rfl,UInt32.zero_le⟩
  told := fun sequence member => absurd member (untold sequence)

/-- The history of a job that is turned. -/
theorem Storied.turned {old new : DurableJob} {entry : JobHistoryEntry} (storied : Storied again s old history)
    (step : JobStep s (.Turned old new entry) t) (becomes : old.Becomes entry.kind new) (next : entry.sequence.toNat = history.length) :
    Storied (again ++ (JobFact.again (.Turned old new entry)).toList) t new (history ++ [entry]) := by
  have own : new.id = old.id := becomes.id
  have told : JobFact.again (.Turned old new entry) = if old.state = .Dead then some (old.id,entry.sequence) else none := rfl
  have fresh : ∀ other ∈ history, (old.id,other.sequence) ∉ (JobFact.again (.Turned old new entry)).toList := by
    intro other member inside
    rw [told] at inside
    split at inside
    · have same : other.sequence = entry.sequence := by simpa using inside
      have less := storied.below next other member
      rw [same] at less
      exact UInt64.lt_irrefl _ less
    · simp at inside
  have untold : (old.id,entry.sequence) ∉ again := fun inside => absurd (storied.told _ inside) (by omega)
  refine ⟨step.has,?_,?_,?_,?_,?_,?_,?_⟩
  · refine step.longer rfl ?_ (storied.below next)
    show Lined (VoodooStore.history_prefix new.id) _ _ history s
    rw [own]
    exact storied.lined
  · intro other member
    rcases List.mem_append.mp member with early | last
    · exact storied.fits other early
    · rw [List.mem_singleton.mp last]
      exact step.short entry rfl
  · rw [List.map_append,storied.numbered,List.length_append,List.length_singleton,List.range_succ,List.map_singleton,next]
  · rw [List.head?_append_of_ne_nil _ storied.nonempty]
    exact storied.begins
  · rw [List.getLast?_concat,Option.map_some]
    generalize entry.kind = kind at becomes
    cases becomes <;> rfl
  · intro alive
    rw [own,claims_since_snoc,claims_since_more fresh]
    have alive_before : entry.kind ≠ .Dead → old.state ≠ .Dead → entry.resets (again ++ (JobFact.again (.Turned old new entry)).toList) old.id =
        decide (entry.kind = .Submitted) := by
      intro _ going
      rw [told,if_neg going]
      simp [JobHistoryEntry.resets,untold]
    generalize kind : entry.kind = spoken at becomes
    cases becomes with
    | claimed lease_until_ms active tried =>
      have going := active_not_dead active
      obtain ⟨count,-⟩ := storied.tries going
      have room : old.attempts.toNat + 1 < 2 ^ 32 := by
        rw [UInt32.lt_iff_toNat_lt] at tried
        have := old.max_attempts.toNat_lt
        omega
      have raised : (old.attempts + 1).toNat = old.attempts.toNat + 1 := by
        rw [UInt32.toNat_add,UInt32.toNat_one,Nat.mod_eq_of_lt room]
      rw [alive_before (by rw [kind]; decide) going,kind,if_neg (by decide),if_pos rfl,← count]
      refine ⟨raised,?_⟩
      show old.attempts + 1 ≤ old.max_attempts
      rw [UInt32.le_iff_toNat_le,raised]
      exact UInt32.lt_iff_toNat_lt.mp tried
    | exhausted active spent room => exact absurd rfl alive
    | buried active => exact absurd rfl alive
    | completed held =>
      have going := active_not_dead (held_active held)
      obtain ⟨count,few⟩ := storied.tries going
      rw [alive_before (by rw [kind]; decide) going,kind,if_neg (by decide),if_neg (by decide),← count]
      exact ⟨rfl,few⟩
    | rescheduled held available_at_ms =>
      have going := active_not_dead (held_active held)
      obtain ⟨count,few⟩ := storied.tries going
      rw [alive_before (by rw [kind]; decide) going,kind,if_neg (by decide),if_neg (by decide),← count]
      exact ⟨rfl,few⟩
    | revived dead now_ms =>
      have resets : entry.resets (again ++ (JobFact.again (.Turned old (old.revived now_ms) entry)).toList) old.id = true := by
        rw [told,if_pos dead]
        simp [JobHistoryEntry.resets]
      rw [if_pos resets]
      exact ⟨rfl,UInt32.zero_le⟩
    | cancelled active =>
      have going := active_not_dead active
      obtain ⟨count,few⟩ := storied.tries going
      rw [alive_before (by rw [kind]; decide) going,kind,if_neg (by decide),if_neg (by decide),← count]
      exact ⟨rfl,few⟩
  · intro sequence member
    rw [own] at member
    rw [List.length_append,List.length_singleton]
    rcases List.mem_append.mp member with early | late
    · exact Nat.lt_succ_of_lt (storied.told sequence early)
    · rw [told] at late
      split at late
      · have same : sequence = entry.sequence := by simpa using late
        rw [same,next]
        exact Nat.lt_succ_self _
      · simp at late

/-- The history of a lease that is prolonged stays as it is. -/
theorem Storied.prolonged {old : DurableJob} {lease_until_ms : Int64} (storied : Storied again s old history)
    (step : JobStep s (.Prolonged old lease_until_ms) t) : Storied again t { old with lease_until_ms } history := by
  refine { storied with has := step.has,lined := storied.lined.congr (fun key own => ?_) }
  rw [step.history_at own]
  rfl

/-- Every write keeps the histories, if it does not leave a record without one. -/
theorem Histories.step (histories : Histories again s) (step : JobStep s fact t)
    (fresh : ∀ id, fact.made = some id → s[job_key id]? = none) (whole : ∀ job, fact ≠ .Halved job) :
    Histories (again ++ fact.again.toList) t := by
  have others : ∀ id, fact.job.id ≠ id → ∀ sequence, (id,sequence) ∉ fact.again.toList := by
    intro id other sequence member
    rw [Option.mem_toList] at member
    exact other (JobFact.again_id member step.allowed).symm
  have born : ∀ entry, fact.entry = some entry → entry.First → fact.job.Newborn → fact.made = some fact.job.id → fact.again = none →
      ∃ history, Storied (again ++ fact.again.toList) t fact.job history := by
    intro entry tells first new made quiet
    obtain ⟨silent,untold⟩ := histories.unknown _ (fresh _ made)
    rw [quiet]
    exact ⟨_,step.first tells first new (by simpa using untold) silent⟩
  refine ⟨?_,?_⟩
  · intro job has
    rcases step.known has with rfl | ⟨other,before⟩
    · cases step.allowed with
      | submitted new first free => exact born _ rfl first new rfl rfl
      | scheduled new first => exact born _ rfl first new rfl rfl
      | @halved job new free => exact absurd rfl (whole job)
      | turned before becomes next =>
        obtain ⟨history,storied⟩ := histories.known _ before
        exact ⟨_,storied.turned step becomes (storied.sequence next)⟩
      | prolonged before held lease_until_ms =>
        obtain ⟨history,storied⟩ := histories.known _ before
        rw [show JobFact.again (.Prolonged _ lease_until_ms) = none from rfl,Option.toList_none,List.append_nil]
        exact ⟨history,storied.prolonged step⟩
    · obtain ⟨history,storied⟩ := histories.known job before
      exact ⟨history,storied.congr has (fun key own => step.history_other other own) (others job.id other)⟩
  · intro id none
    have here := step.record id
    by_cases own : fact.job.id = id
    · rw [if_pos own,none] at here
      cases here
    · rw [if_neg own,none] at here
      obtain ⟨silent,untold⟩ := histories.unknown id here.symm
      refine ⟨silent.congr (fun key inside => step.history_other own inside),fun sequence member => ?_⟩
      rcases List.mem_append.mp member with early | late
      · exact untold sequence early
      · exact others id own sequence late

/-- So does a chain of writes, if its jobs are new. -/
theorem Histories.path (histories : Histories again s) (path : JobPath s facts t) (distinct : (facts.filterMap JobFact.made).Nodup)
    (fresh : ∀ id ∈ facts.filterMap JobFact.made, s[job_key id]? = none) (whole : ∀ fact ∈ facts, ∀ job, fact ≠ .Halved job) :
    Histories (again ++ facts.filterMap JobFact.again) t := by
  have carried := @JobPath.carries s t facts [] (fun done s => Histories (again ++ done.filterMap JobFact.again) s)
    (fun fact => ∀ job, fact ≠ .Halved job) (fun done s t same kept => kept.same same) ?_ path distinct fresh whole (by simpa using histories)
  · exact carried
  · intro done s fact t step fresh whole kept
    have next := kept.step step fresh whole
    rw [List.filterMap_append,← List.append_assoc]
    cases again : fact.again with
    | none =>
      rw [again] at next
      rw [List.filterMap_cons_none again]
      exact next
    | some told =>
      rw [again] at next
      rw [List.filterMap_cons_some again]
      exact next

/-- A record that is left without a history is seen. -/
theorem Histories.orphan (histories : Histories again s) (step : JobStep s (.Halved job) t) (fresh : s[job_key job.id]? = none)
    (book : JobBook s) : orphaned s t = true := by
  have quiet : scan t (VoodooStore.history_prefix job.id) = [] := by
    have lined := (histories.unknown _ fresh).1.congr (fun key own => (step.history_at own : t[key]? = s[key]?))
    rw [lined.scan]
    rfl
  unfold orphaned
  rw [List.any_eq_true]
  refine ⟨job,?_,decide_eq_true quiet⟩
  unfold jobsBetween
  rw [List.mem_filter]
  refine ⟨?_,decide_eq_true fresh⟩
  obtain ⟨entry,member,decoded⟩ := (job_in_iff (step.book book)).mp step.has
  unfold jobsIn
  rw [List.mem_filterMap]
  refine ⟨entry,member,?_⟩
  rw [show decode_job entry.2 = .ok job from decoded]
  rfl

end

/-! ## What has ended -/

/-- A job that is not active is written only if it is dead and tried again. -/
theorem JobStep.ended {s t : State} {fact : JobFact} {job : DurableJob} (step : JobStep s fact t) (has : JobIn s job)
    (fresh : ∀ id, fact.made = some id → s[job_key id]? = none) (done : job.state.active = false) :
    fact.job.id ≠ job.id ∨ job.state = .Dead ∧ ∃ new entry, fact = .Turned job new entry := by
  by_cases same : fact.job.id = job.id
  · have stored := has.stored
    have known : ∀ id, fact.made = some id → id ≠ job.id := by
      rintro id made rfl
      rw [fresh _ made] at stored
      cases stored
    cases step.allowed with
    | submitted => exact absurd same (known _ rfl)
    | scheduled => exact absurd same (known _ rfl)
    | halved => exact absurd same (known _ rfl)
    | @turned old new entry before becomes next =>
      have is : old = job := before.unique has (becomes.id.symm.trans same)
      subst is
      refine .inr ⟨?_,new,entry,rfl⟩
      generalize entry.kind = kind at becomes
      cases becomes with
      | revived dead now_ms => exact dead
      | completed held =>
        rw [held_active held] at done
        cases done
      | rescheduled held available_at_ms =>
        rw [held_active held] at done
        cases done
      | claimed lease_until_ms active tries =>
        rw [active] at done
        cases done
      | exhausted active spent room =>
        rw [active] at done
        cases done
      | buried active =>
        rw [active] at done
        cases done
      | cancelled active =>
        rw [active] at done
        cases done
    | @prolonged old before held lease_until_ms =>
      have is : old = job := before.unique has same
      subst is
      rw [held_active held] at done
      cases done
  · exact .inl same

/-- What has ended stays as it is along a chain of writes, unless it is tried again. -/
theorem JobPath.ended {s t : State} {facts : List JobFact} {job : DurableJob} (path : JobPath s facts t) (has : JobIn s job)
    (distinct : (facts.filterMap JobFact.made).Nodup) (fresh : ∀ id ∈ facts.filterMap JobFact.made, s[job_key id]? = none)
    (done : job.state.active = false) (buried : job.state = .Dead → ∀ new entry, .Turned job new entry ∉ facts) : JobIn t job := by
  have carried := @JobPath.carries s t facts [] (fun _ s => JobIn s job) (fun fact => job.state = .Dead → ∀ new entry, fact ≠ .Turned job new entry)
    (fun _ s t same has => same.job_in.mp has) ?_ path distinct fresh ?_ has
  · exact carried
  · intro _ s fact t step fresh spared has
    rcases step.ended has fresh done with other | ⟨dead,new,entry,is⟩
    · exact (step.others other).mpr has
    · exact absurd is (spared dead new entry)
  · rintro fact member dead new entry rfl
    exact buried dead new entry member

/-! ## Runs -/

/-- The dead jobs that were tried again, and the numbers of the entries that tell. -/
def againIn (log : List JobEvent) : List (JobId × UInt64) :=
  log.flatMap (fun event => match event with | .Returned _ told => JobTold.again told | _ => [])

/-- The open transaction has left no record without a history. -/
def NoneOrphaned (log : List JobEvent) : Prop :=
  ∀ call spoiled, .Staged call (.ok (.Staged true)) spoiled ∉ (account log).pending

/-- The ids are new, and no transaction is committed that left a record without a history. -/
def historyTerms : Terms JobUseError JobUse JobTxUse JobTold where
  mine := jobSpace
  call state call := call.io.Durable ∧ FreshDraws state call.draws
  callTx view call := call.io.Durable ∧ ∀ id, call.draws = some id → view[job_key id]? = none
  commit log := NoneOrphaned log

/-- What is known of the histories. -/
structure HistoriesKept (state : State) (view : Option State) (log : List JobEvent) : Prop where
  histories : Histories (againIn log) state
  beyond : ∀ seen, view = some seen → ∀ job, JobIn state job → JobIn seen job
  seen : ∀ seen, view = some seen → NoneOrphaned log → Histories (againIn log) seen

theorem again_in_snoc (log : List JobEvent) (event : JobEvent) : againIn (log ++ [event]) = againIn log ++ againIn [event] := by
  unfold againIn
  rw [List.flatMap_append]

theorem again_in_silent {log : List JobEvent} {event : JobEvent} (silent : againIn [event] = []) : againIn (log ++ [event]) = againIn log := by
  rw [again_in_snoc,silent,List.append_nil]

theorem none_orphaned_snoc {log : List JobEvent} {call : JobTxUse} {left spoiled : Bool}
    (whole : NoneOrphaned (log ++ [Happened.Staged call (.ok (.Staged left)) spoiled])) : NoneOrphaned log ∧ left = false := by
  unfold NoneOrphaned at whole ⊢
  rw [account_snoc] at whole
  refine ⟨fun other halfway member => whole other halfway (List.mem_append_left _ member),?_⟩
  rw [Bool.eq_false_iff]
  rintro rfl
  exact whole call spoiled (List.mem_append_right _ (by simp))

/-- A job that is made in a transaction leaves the others as they are. -/
theorem DoesTx.others {call : JobTxUse} {facts : List JobFact} {s t : State} (does : DoesTx call facts) (path : JobPath s facts t)
    (fresh : ∀ id, call.draws = some id → s[job_key id]? = none) {job : DurableJob} (has : JobIn s job) : JobIn t job := by
  refine (path.others (fun fact member same => ?_)).mpr has
  have stored := has.stored
  cases does with
  | nothing => cases member
  | made entry drawn =>
    cases List.mem_singleton.mp member
    rw [← same] at stored
    exact Option.some_ne_none _ (stored.symm.trans (fresh _ drawn))
  | halved drawn =>
    cases List.mem_singleton.mp member
    rw [← same] at stored
    exact Option.some_ne_none _ (stored.symm.trans (fresh _ drawn))

section
variable [Hashes]

theorem histories_preserved : Preserved jobLife historyTerms (fun state view log =>
    (JobBook state ∧ ∀ seen, view = some seen → JobBook seen) ∧ HistoriesKept state view log) := by
  refine job_life_preserved (fun key own => own) (fun state call ok => ok.1) (fun view call ok => ok.1) ?_ ?_ ?_ ?_ ?_ ?_
  · rintro call store log facts ⟨-,fresh⟩ book path does ⟨histories,-,-⟩
    obtain ⟨distinct,unknown⟩ := fresh.path does.drawn
    have again : againIn [.Returned call (returned (jobLife.on_store call) store)] = facts.filterMap JobFact.again := by
      rw [does.again]
      exact List.append_nil _
    refine ⟨?_,by simp,by simp⟩
    rw [again_in_snoc,again]
    refine histories.path path distinct unknown (fun fact member job halved => ?_)
    subst halved
    exact does.whole job member
  · rintro state log ⟨histories,-,-⟩
    refine ⟨by rw [again_in_silent rfl]; exact histories,?_,?_⟩
    · rintro _ ⟨⟩ job has
      exact has
    · rintro _ ⟨⟩ -
      rw [again_in_silent rfl]
      exact histories
  · rintro call state view next log facts ⟨-,fresh⟩ book path does ⟨histories,beyond,seen⟩
    refine ⟨by rw [again_in_silent rfl]; exact histories,?_,?_⟩
    · rintro _ ⟨⟩ job has
      exact does.others path fresh (beyond view rfl job has)
    · rintro _ ⟨⟩ whole
      obtain ⟨before,kept⟩ := none_orphaned_snoc whole
      have now := seen view rfl before
      rw [again_in_silent rfl]
      have grows : facts.filterMap JobFact.again = [] → (facts.filterMap JobFact.made).Nodup →
          (∀ id ∈ facts.filterMap JobFact.made, view[job_key id]? = none) → (∀ fact ∈ facts, ∀ job, fact ≠ .Halved job) →
          Histories (againIn log) next := by
        intro silent distinct unknown whole
        have longer := now.path path distinct unknown whole
        rwa [silent,List.append_nil] at longer
      cases does with
      | nothing => exact grows rfl .nil (by simp) (by simp)
      | @made job entry drawn =>
        refine grows rfl (by simp [JobFact.made]) (fun id member => ?_) (by simp)
        have same : id = job.id := by simpa [JobFact.made] using member
        rw [same]
        exact fresh _ drawn
      | @halved job drawn =>
        cases path with
        | go first rest =>
          cases rest with
          | stay same =>
            rw [now.orphan (first.behind same) (fresh _ drawn) book] at kept
            cases kept
  · rintro state view next log same ⟨histories,beyond,seen⟩
    refine ⟨histories,?_,?_⟩
    · rintro _ ⟨⟩ job has
      exact same.job_in.mp (beyond view rfl job has)
    · rintro _ ⟨⟩ whole
      exact (seen view rfl whole).same same
  · rintro state view next log whole same ⟨-,-,seen⟩
    refine ⟨?_,by simp,by simp⟩
    rw [again_in_silent rfl]
    exact (seen view rfl whole).same same
  · rintro state view log ⟨histories,-,-⟩
    exact ⟨by rw [again_in_silent rfl]; exact histories,by simp,by simp⟩

/-- The ids are new, and this job is not tried again. -/
def settledTerms (job : DurableJob) : Terms JobUseError JobUse JobTxUse JobTold where
  mine := jobSpace
  call state call := call.io.Durable ∧ FreshDraws state call.draws ∧
    (job.state = .Dead → ∀ io now_ms, call ≠ .Job (.RetryJob io job.id now_ms))
  callTx view call := call.io.Durable ∧ ∀ id, call.draws = some id → view[job_key id]? = none
  commit _ := True

theorem settled_preserved {job : DurableJob} (ended : job.state.active = false) : Preserved jobLife (settledTerms job) (fun state view _ =>
    (JobBook state ∧ ∀ seen, view = some seen → JobBook seen) ∧ JobIn state job ∧ ∀ seen, view = some seen → JobIn seen job) := by
  refine job_life_preserved (fun key own => own) (fun state call ok => ok.1) (fun view call ok => ok.1) ?_ ?_ ?_ ?_ ?_ ?_
  · rintro call store log facts ⟨-,fresh,other⟩ book path does ⟨has,-⟩
    obtain ⟨distinct,unknown⟩ := fresh.path does.drawn
    refine ⟨path.ended has distinct unknown ended (fun dead new entry member => ?_),by simp⟩
    obtain ⟨-,io,now_ms,is,-⟩ := does.revives job new entry member dead
    exact other dead io now_ms is
  · rintro state log ⟨has,-⟩
    refine ⟨has,?_⟩
    rintro _ ⟨⟩
    exact has
  · rintro call state view next log facts ⟨-,fresh⟩ book path does ⟨has,seen⟩
    refine ⟨has,?_⟩
    rintro _ ⟨⟩
    exact does.others path fresh (seen view rfl)
  · rintro state view next log same ⟨has,seen⟩
    refine ⟨has,?_⟩
    rintro _ ⟨⟩
    exact same.job_in.mp (seen view rfl)
  · rintro state view next log - same ⟨-,seen⟩
    exact ⟨same.job_in.mp (seen view rfl),by simp⟩
  · rintro state view log ⟨has,-⟩
    exact ⟨has,by simp⟩

theorem settled_along {job : DurableJob} {play : Play JobUseError JobUse JobTxUse JobTold} {moves : List (Move JobUse JobTxUse)}
    (along : play.Along jobLife historyTerms moves)
    (spared : job.state = .Dead → ∀ io now_ms, .Call (.Job (.RetryJob io job.id now_ms)) ∉ moves) :
    play.Along jobLife (settledTerms job) moves := by
  induction moves generalizing play with
  | nil => exact trivial
  | cons move moves ih =>
    refine ⟨?_,ih along.2 (fun dead io now_ms member => spared dead io now_ms (by simp [member]))⟩
    have here := along.1
    obtain ⟨session,log⟩ := play
    cases session with
    | Idle store =>
      cases move with
      | Call call =>
        refine ⟨here.1,here.2,?_⟩
        rintro dead io now_ms rfl
        exact spared dead io now_ms (by simp)
      | _ => exact trivial
    | Busy tx =>
      cases move with
      | Commit io => exact ⟨here.1,trivial⟩
      | CallTx call => exact here
      | Write io operation => exact here
      | _ => exact trivial

/-- What a reader finds of a job: a history that is numbered from 0, starts with its
    submission and ends with what the job is doing, and as many claims in it, since the
    job was last submitted or revived, as it counts attempts. -/
def Documented (again : List (JobId × UInt64)) (store : Store) (job : DurableJob) : Prop :=
  ∃ history, store.job_history job.id = .ok history ∧ history.map (fun entry => entry.sequence.toNat) = List.range history.length ∧
    history.head?.map JobHistoryEntry.kind = some .Submitted ∧ history.getLast?.map (fun entry => entry.kind.leaves) = some job.state ∧
    (job.state ≠ .Dead → job.attempts.toNat = claimsSince again job.id history ∧ job.attempts ≤ job.max_attempts)

omit [Hashes] in
theorem Storied.documented {again : List (JobId × UInt64)} {store : Store} {job : DurableJob} {history : List JobHistoryEntry}
    (storied : Storied again store.state job history) : Documented again store job := by
  refine ⟨history,?_,storied.numbered,storied.begins,storied.ends,storied.tries⟩
  have read := @mapM_entries _ _ decode_history (fun entry => (VoodooStore.history_prefix job.id ++ entry.sequence.to_be_bytes,entry.spelling)) history
    (fun entry member => decode_history_spelling (storied.fits entry member))
  have sorted : history.Pairwise (fun a b => decide (a.sequence ≤ b.sequence) = true) :=
    storied.lined.rises.imp (fun less => decide_eq_true (UInt64.le_of_lt less))
  unfold Store.job_history
  rw [scan_prefix_eq,storied.lined.scan,read,ok_bind,List.mergeSort_of_pairwise sorted]
  rfl

omit [Hashes] in
theorem histories_start : (JobBook ∅ ∧ ∀ seen, (none : Option State) = some seen → JobBook seen) ∧ HistoriesKept ∅ none [] := by
  refine ⟨⟨holding_empty _ _ _,by simp⟩,⟨fun job has => ?_,fun id _ => ⟨lined_empty,by simp [againIn]⟩⟩,by simp,by simp⟩
  have stored := has.stored
  simp at stored

/-- As long as the ids are new and no transaction is committed that left a record without a
    history, every job is documented; what is completed or cancelled stays so, and what is
    dead does unless it is tried again. -/
theorem histories_agree {io : Io} {path : Path} {options : StoreOptions} {store : Store} {left : Bytes}
    (opened : open_with_options io path options [] = .ok store left) {first second : List (Move JobUse JobTxUse)}
    (along : (Play.mk (.Idle store) []).Along jobLife historyTerms (first ++ second)) :
    let before := (Play.steps jobLife ⟨.Idle store,[]⟩ first).session.store
    let later := (Play.steps jobLife ⟨.Idle store,[]⟩ (first ++ second)).session.store
    (∀ job, later.HasJob job → Documented (againIn (Play.steps jobLife ⟨.Idle store,[]⟩ (first ++ second)).log) later job) ∧
      (∀ job, before.HasJob job → job.state = .Completed ∨ job.state = .Cancelled → later.HasJob job) ∧
      ∀ job, before.HasJob job → job.state = .Dead →
        later.HasJob job ∨ ∃ io now_ms, .Call (.Job (.RetryJob io job.id now_ms)) ∈ second := by
  obtain ⟨⟨book,-⟩,whole⟩ := (play_invariant histories_preserved histories_start opened along).holds
  obtain ⟨early,late⟩ := Play.along_append.mp along
  have middle := play_invariant histories_preserved histories_start opened early
  obtain ⟨books,kept⟩ := middle.holds
  have stays : ∀ job, (Play.steps jobLife ⟨.Idle store,[]⟩ first).session.store.HasJob job → job.state.active = false →
      (job.state = .Dead → ∀ io now_ms, .Call (.Job (.RetryJob io job.id now_ms)) ∉ second) →
      (Play.steps jobLife ⟨.Idle store,[]⟩ (first ++ second)).session.store.HasJob job := by
    intro job has ended spared
    have there := books.1.has_iff.mp has
    have starts : (Play.steps jobLife ⟨.Idle store,[]⟩ first).Kept (fun state view _ =>
        (JobBook state ∧ ∀ seen, view = some seen → JobBook seen) ∧ JobIn state job ∧ ∀ seen, view = some seen → JobIn seen job) :=
      ⟨middle.session,middle.whole,books,there,fun seen is => kept.beyond seen is job there⟩
    have ends := (starts.steps (settled_preserved ended) (settled_along late spared)).holds
    rw [Play.steps,List.foldl_append]
    exact ends.1.1.has_iff.mpr ends.2.1
  refine ⟨fun job has => ?_,fun job has closed => ?_,fun job has dead => ?_⟩
  · obtain ⟨history,storied⟩ := whole.histories.known job (book.has_iff.mp has)
    exact storied.documented
  · refine stays job has ?_ (fun dead => ?_)
    · rcases closed with state | state <;> rw [state] <;> rfl
    · rw [dead] at closed
      exact absurd closed (by decide)
  · by_cases revived : ∃ io now_ms, Move.Call (.Job (.RetryJob io job.id now_ms)) ∈ second
    · exact .inr revived
    · refine .inl (stays job has (by rw [dead]; rfl) (fun _ io now_ms member => revived ⟨io,now_ms,member⟩))

end

/-- The run of a job that dies and is revived, up to where it is completed, and what is tried with it then. -/
def completedLate : List (Move JobUse JobTxUse) :=
  [.Call (.Job (.CancelJob calm (.filled 1) 20)),.Begin,.Rollback,.Call (.Job (.RetryJob calm (.filled 1) 21)),
    .Reopen calm ["a.vstore"] .default]

/-- Calls that make no job are on these terms everywhere. -/
theorem silent_call {state : State} {call : JobUse} (durable : call.io.Durable) (silent : ∀ n, call.draws n = none) :
    historyTerms.call state call := by
  refine ⟨durable,fun n id drawn => ?_,fun m n id drawn => ?_⟩
  · rw [silent] at drawn
    cases drawn
  · rw [silent] at drawn
    cases drawn

theorem completed_late_along [Hashes] {store : Store} (empty : store.state = ∅) :
    (Play.mk (.Idle store) []).Along jobLife historyTerms (triedAgain ++ completedLate) := by
  refine ⟨⟨calm_durable,fun n id _ => ?_,fun m n id first second => ?_⟩,?_⟩
  · rw [empty]
    simp
  · simp only [JobUse.draws] at first second
    split at first
    · split at second
      · omega
      · cases second
    · cases first
  · have later : ∀ move ∈ (triedAgain ++ completedLate).tail, move.Fine jobSpace
        (fun call => call.io.Durable ∧ ∀ n, call.draws n = none) (fun _ => False) := by
      intro move member
      simp only [triedAgain,completedLate,List.cons_append,List.nil_append,List.tail_cons,List.mem_cons,List.not_mem_nil,or_false] at member
      rcases member with rfl | rfl | rfl | rfl | rfl | rfl | rfl | rfl | rfl | rfl
      all_goals first | exact ⟨calm_durable,fun _ => rfl⟩ | exact calm_durable | exact trivial
    refine @along_of_fine _ _ _ _ _ _ _ _ _ _ (fun _ _ fine => silent_call fine.1 fine.2) (fun _ _ none => none.elim) ?_ later _
    intro io log member
    simp [triedAgain,completedLate] at member

/-- The job that a store has under this id, if it is completed and counts one attempt. -/
def completedOnce (store : Store) (id : JobId) : Bool :=
  match store.get_job id with
  | .ok (some job) => decide (job.id = id) && decide (job.state = .Completed) && decide (job.attempts = 1)
  | _ => false

theorem completed_once {store : Store} {id : JobId} (completed : completedOnce store id = true) :
    ∃ job, store.HasJob job ∧ job.state = .Completed ∧ job.attempts = 1 := by
  unfold completedOnce at completed
  split at completed
  · rename_i job got
    obtain ⟨⟨rfl,state⟩,once⟩ := by simpa using completed
    exact ⟨job,got,state,once⟩
  · cases completed

set_option maxRecDepth 20000 in
/-- The job that was revived is completed after one more attempt, and stays so. -/
theorem completed_job_stays : ∃ store left job, @open_with_options crates calm ["a.vstore"] .default [] = .ok store left ∧
    let play := @Play.steps crates _ _ _ _ (@jobLife crates) ⟨.Idle store,[]⟩ (triedAgain ++ completedLate)
    job.state = .Completed ∧ job.attempts = 1 ∧ play.session.store.HasJob job ∧ Documented (againIn play.log) play.session.store job := by
  obtain ⟨store,left,opened⟩ := @sound_opens crates calm [] ["a.vstore"] .default calm_faultless (.inl rfl)
  obtain ⟨-,-,-,empty,-,-⟩ := @new_store crates _ _ _ _ _ opened
  have evaluated : passes (@open_with_options crates calm ["a.vstore"] .default []) (fun store _ =>
      completedOnce (@Play.steps crates _ _ _ _ (@jobLife crates) ⟨.Idle store,[]⟩ triedAgain).session.store
        ⟨List.replicate 16 1,rfl⟩) = true := by
    rw [crates_eq_quick]
    decide +kernel
  rw [opened,passes_ok] at evaluated
  obtain ⟨documented,closed,-⟩ := @histories_agree crates _ _ _ _ _ opened triedAgain completedLate (@completed_late_along crates store empty)
  obtain ⟨job,got,completed,once⟩ := completed_once evaluated
  have still := closed job got (.inl completed)
  exact ⟨store,left,job,opened,completed,once,still,documented job still⟩

/-- The file cannot be reached for the second record. -/
def lostSeek : Io := { calm with fails := fun call => if call = .append_seek 2 then some ⟨.Other,"seek"⟩ else none }

/-- A job is made in a transaction, its history cannot be written, and the transaction is committed all the same. -/
def halfEnqueued : List (Move JobUse JobTxUse) :=
  [.Begin,.CallTx (.EnqueueJob lostSeek (some (.filled 1)) (.new [104] [1]) 0),.Commit calm]

set_option maxRecDepth 20000 in
/-- The job has no history. -/
theorem half_enqueued_is_undocumented : lostSeek.Durable ∧
    ∃ store left job, @open_with_options crates calm ["a.vstore"] .default [] = .ok store left ∧
      let play := @Play.steps crates _ _ _ _ (@jobLife crates) ⟨.Idle store,[]⟩ halfEnqueued
      play.session.store.HasJob job ∧ play.session.store.job_history job.id = .ok [] ∧ ∀ again, ¬ Documented again play.session.store job := by
  refine ⟨⟨fun sequence => by simp [lostSeek],fun tx_id => by simp [lostSeek]⟩,?_⟩
  obtain ⟨store,left,opened⟩ := @sound_opens crates calm [] ["a.vstore"] .default calm_faultless (.inl rfl)
  have evaluated : passes (@open_with_options crates calm ["a.vstore"] .default []) (fun store _ =>
        let later := (@Play.steps crates _ _ _ _ (@jobLife crates) ⟨.Idle store,[]⟩ halfEnqueued).session.store
        (later.get_job ⟨List.replicate 16 1,rfl⟩).toOption.any (fun found => found.any (fun job => decide (job.id = ⟨List.replicate 16 1,rfl⟩))) &&
          decide (later.job_history ⟨List.replicate 16 1,rfl⟩ = .ok [])) = true := by
    rw [crates_eq_quick]
    decide +kernel
  rw [opened,passes_ok] at evaluated
  obtain ⟨found,silent⟩ := Bool.and_eq_true_iff.mp evaluated
  have none_told := of_decide_eq_true silent
  obtain ⟨_,got,there⟩ := any_ok_iff.mp found
  obtain ⟨job,rfl,same⟩ := (Option.any_eq_true _ _).mp there
  have own := of_decide_eq_true same
  rw [← own] at got none_told
  refine ⟨store,left,job,opened,got,none_told,?_⟩
  rintro again ⟨history,read,-,begins,-⟩
  rw [none_told] at read
  cases read
  cases begins

end VoodooStore
