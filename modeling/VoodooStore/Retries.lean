import VoodooStore.JobRuns

/-!
# Retries

A job that failed waits for its backoff times its attempts, and for a part more
or less that its id decides. The delay is a product that is divided by a
hundred: it may be too large before the division, and the division drops what
it leaves over (`retry_within_jitter_iff`).
-/
namespace VoodooStore
open Effects
set_option linter.unusedSimpArgs false

/-- The delay before the jitter. -/
def DurableJob.base (job : DurableJob) : Nat := job.retry_backoff_ms.toNat * job.attempts.toNat

/-- The part of it, in hundredths, that the job waits. -/
def DurableJob.percent (job : DurableJob) : Nat := 91 + ((job.id.val.foldl (· + ·) 0 + job.attempts.toUInt8) % 20).toNat

def DurableJob.jittered (job : DurableJob) : Nat := job.base * job.percent / 100

theorem percent_bounds (job : DurableJob) : 91 ≤ job.percent ∧ job.percent ≤ 110 := by
  unfold DurableJob.percent
  have small : ((job.id.val.foldl (· + ·) 0 + job.attempts.toUInt8) % 20).toNat < 20 := by
    rw [UInt8.toNat_mod]
    exact Nat.mod_lt _ (by decide)
  omega

theorem u64_checked_mul_eq {a b c : UInt64} : a.checked_mul b = some c ↔ c.toNat = a.toNat * b.toNat := by
  unfold UInt64.checked_mul
  have bound := c.toNat_lt
  by_cases fits : a.toNat * b.toNat < 2 ^ 64
  · rw [if_pos fits,Option.some.injEq,← UInt64.toNat_inj,UInt64.toNat_mul,Nat.mod_eq_of_lt fits,eq_comm]
  · rw [if_neg fits]
    constructor
    · intro impossible
      cases impossible
    · intro same
      omega

theorem u64_checked_mul_none {a b : UInt64} : a.checked_mul b = none ↔ 2 ^ 64 ≤ a.toNat * b.toNat := by
  unfold UInt64.checked_mul
  by_cases fits : a.toNat * b.toNat < 2 ^ 64
  · rw [if_pos fits]
    constructor
    · intro impossible
      cases impossible
    · intro
      omega
  · rw [if_neg fits]
    constructor
    · intro
      omega
    · intro
      rfl

theorem percent_value (job : DurableJob) :
    (91 + ((job.id.val.foldl (· + ·) 0 + job.attempts.toUInt8) % 20).toUInt64).toNat = job.percent := by
  have bounds := percent_bounds job
  unfold DurableJob.percent at bounds ⊢
  rw [UInt64.toNat_add,UInt8.toNat_toUInt64]
  show (91 + _) % 2 ^ 64 = _
  exact Nat.mod_eq_of_lt (by omega)

theorem multiplier_value {job : DurableJob} (tried : 1 ≤ job.attempts.toNat) : (max job.attempts 1).toUInt64.toNat = job.attempts.toNat := by
  rw [UInt32.toNat_toUInt64]
  have order : (1 : UInt32) ≤ job.attempts := UInt32.le_iff_toNat_le.mpr tried
  show (if job.attempts ≤ 1 then 1 else job.attempts : UInt32).toNat = _
  by_cases one : job.attempts ≤ 1
  · rw [if_pos one,UInt32.le_antisymm one order]
  · rw [if_neg one]

/-- The delay is the part of the base, unless the product is too large. -/
theorem retry_delay_eq {job : DurableJob} (tried : 1 ≤ job.attempts.toNat) :
    (job.base * job.percent < 2 ^ 64 ∧ ∃ delay, retry_delay_ms job = .ok delay ∧ delay.toInt = job.jittered) ∨
      2 ^ 64 ≤ job.base * job.percent ∧ retry_delay_ms job = .error .TimeOverflow := by
  have bounds := percent_bounds job
  unfold retry_delay_ms
  dsimp only
  cases product : job.retry_backoff_ms.checked_mul (max job.attempts 1).toUInt64 with
  | none =>
    rw [u64_checked_mul_none,multiplier_value tried] at product
    refine .inr ⟨?_,rfl⟩
    calc 2 ^ 64 ≤ job.base := product
      _ = job.base * 1 := (Nat.mul_one _).symm
      _ ≤ job.base * job.percent := Nat.mul_le_mul_left _ (by omega)
  | some base =>
    rw [u64_checked_mul_eq,multiplier_value tried] at product
    have is : base.toNat = job.base := product
    rw [show ok_or JobError.TimeOverflow (some base) = .ok base from rfl,ok_bind]
    cases scaled : base.checked_mul (91 + ((job.id.val.foldl (· + ·) 0 + job.attempts.toUInt8) % 20).toUInt64) with
    | none =>
      rw [u64_checked_mul_none,percent_value,is] at scaled
      exact .inr ⟨scaled,rfl⟩
    | some product =>
      rw [u64_checked_mul_eq,percent_value,is] at scaled
      have bound := product.toNat_lt
      rw [show ok_or JobError.TimeOverflow (some product) = .ok product from rfl,ok_bind]
      have part : (product / 100).toNat = job.jittered := by
        rw [UInt64.toNat_div,scaled]
        rfl
      have small : job.jittered < 2 ^ 63 := by
        rw [← part,UInt64.toNat_div]
        show product.toNat / 100 < _
        omega
      refine .inl ⟨by omega,.ofNat (product / 100).toNat,?_,?_⟩
      · rw [Int64.try_from,if_pos (by rw [part]; exact small)]
        rfl
      · rw [part,Int64.toInt_ofNat_of_lt small]

/-- The jitter keeps the delay above nine tenths exactly if the division drops less than what is above them. -/
theorem above_nine_tenths {base percent : Nat} (low : 91 ≤ percent) :
    90 * base < 100 * (base * percent / 100) ↔ base * percent % 100 < base * (percent - 90) := by
  have split := Nat.div_add_mod (base * percent) 100
  have parts : base * percent = base * 90 + base * (percent - 90) := by
    rw [← Nat.mul_add]
    congr 1
    omega
  omega

section
variable [Hashes]

/-- The job is tried again after nine to eleven tenths of its delay; and if that is too late to be told, nothing changes. -/
def RetriesWithin (io : Io) (store : Store) (job : DurableJob) (now_ms : Int64) (detail : Bytes) : Prop :=
  match fail_job io job.id job.lease_generation now_ms detail store with
  | .ok state t => state = .Ready ∧ ∃ available_at_ms, t.HasJob { job with state := .Ready, available_at_ms, lease_until_ms := 0 } ∧
      100 * now_ms.toInt + 90 * job.base < 100 * available_at_ms.toInt ∧ 100 * available_at_ms.toInt ≤ 100 * now_ms.toInt + 110 * job.base
  | .error .TimeOverflow t => 2 ^ 63 ≤ now_ms.toInt + job.jittered ∧ t = store
  | .error _ _ => False

/-- After any use of jobs on a new store: a job that holds a lease and may be tried again is retried within its jitter exactly if the
    product before the division fits and the division drops less than what is above nine tenths, or if the time is
    too late for an `i64` anyway. -/
theorem retry_within_jitter_iff {io : Io} {path : Path} {options : StoreOptions} {store : Store} {left : Bytes}
    (opened : open_with_options io path options [] = .ok store left) {moves : List (Move JobCall JobTxCall)}
    (along : (Play.mk (.Idle store) []).Along jobs jobTerms moves) {reached : Store}
    (idle : (Play.steps jobs ⟨.Idle store,[]⟩ moves).session = .Idle reached) {job : DurableJob} (has : reached.HasJob job)
    (leased : job.state = .Leased) (tries : job.attempts < job.max_attempts) (waits : 1 ≤ job.base) {fail_io : Io} {now_ms : Int64}
    {detail : Bytes} (short : detail.length + 100 < 2 ^ 32) (faultless : fail_io.Faultless) (continues : Continues reached)
    (roomy : Roomy reached 1 5) :
    RetriesWithin fail_io reached job now_ms detail ↔
      2 ^ 63 ≤ now_ms.toInt + job.jittered ∨ job.base * job.percent < 2 ^ 64 ∧ job.base * job.percent % 100 < job.base * (job.percent - 90) := by
  have book := (play_invariant jobs_preserved ⟨holding_empty _ _ _,by simp⟩ opened along).holds.1
  rw [idle] at book
  have recorded := (book.has.mp has).1
  have tried : 1 ≤ job.attempts.toNat := by
    by_contra never
    have none : job.attempts.toNat = 0 := by omega
    rw [DurableJob.base,none,Nat.mul_zero] at waits
    omega
  have may : ¬ job.attempts ≥ job.max_attempts := by
    rw [ge_iff_le,UInt32.not_le]
    exact tries
  have bounds := percent_bounds job
  have least := now_ms.le_toInt
  have started : fail_job fail_io job.id job.lease_generation now_ms detail reached = (do
      let delay ← lift (retry_delay_ms job)
      let available_at_ms ← lift (ok_or .TimeOverflow (now_ms.checked_add delay))
      persist_job_with_history fail_io { job with state := .Ready, available_at_ms, lease_until_ms := 0 } now_ms .RetryScheduled detail
      return .Ready : EStateM JobError Store DurableJobState) reached := by
    have checked : validate_job_lease job job.lease_generation = .ok () := by simp [validate_job_lease,leased]
    have looked : leased_job job.id job.lease_generation reached = .ok job reached := by
      unfold leased_job
      rw [get_bind,show reached.get_job job.id = .ok (some job) from has,lift_ok_bind]
      show (lift (ok_or JobError.NotFound (some job)) >>= _) reached = _
      rw [show ok_or JobError.NotFound (some job) = .ok job from rfl,lift_ok_bind,checked,lift_ok_bind]
      rfl
    unfold fail_job
    rw [bind_of_ok looked,if_neg may]
  unfold RetriesWithin
  rw [started]
  rcases retry_delay_eq tried with ⟨small,delay,delayed,value⟩ | ⟨large,delayed⟩
  · rw [delayed,lift_ok_bind]
    cases added : now_ms.checked_add delay with
    | none =>
      have far := i64_checked_add_none.mp added
      rw [value] at far
      have late : 2 ^ 63 ≤ now_ms.toInt + job.jittered := by omega
      exact ⟨fun _ => .inl late,fun _ => ⟨late,rfl⟩⟩
    | some available_at_ms =>
      have sum := i64_checked_add_eq.mp added
      have most := available_at_ms.toInt_lt
      rw [value] at sum
      obtain ⟨t,done,-⟩ := @persist_job_succeeds _ fail_io { job with state := .Ready, available_at_ms, lease_until_ms := 0 } now_ms
        .RetryScheduled detail reached 0 0 faultless (recorded.moved .Ready available_at_ms job.attempts 0 job.lease_generation) short
        (continues job.id) roomy
      have stored := (recorded.moved .Ready available_at_ms job.attempts 0 job.lease_generation).stored
      have finds : t.HasJob { job with state := .Ready, available_at_ms, lease_until_ms := 0 } := by
        refine has_job_of_spelled stored ?_
        show t.state[job_key job.id]? = _
        rw [(persist_job_ok done).1,if_pos rfl]
      rw [show ok_or JobError.TimeOverflow (some available_at_ms) = .ok available_at_ms from rfl,lift_ok_bind,bind_of_ok done]
      show (DurableJobState.Ready = .Ready ∧ _) ↔ _
      have upper : 100 * job.jittered ≤ 110 * job.base := by
        have down := Nat.mul_div_le (job.base * job.percent) 100
        have scaled := Nat.mul_le_mul_left job.base bounds.2
        unfold DurableJob.jittered
        omega
      have lower : 90 * job.base < 100 * job.jittered ↔ job.base * job.percent % 100 < job.base * (job.percent - 90) :=
        above_nine_tenths bounds.1
      constructor
      · rintro ⟨-,other,found,above,-⟩
        have same : other = available_at_ms := by
          unfold Store.HasJob at found finds
          dsimp only at found finds
          rw [finds] at found
          have equal := Option.some.inj (Except.ok.inj found)
          exact (congrArg DurableJob.available_at_ms equal).symm
        subst same
        refine .inr ⟨small,lower.mp ?_⟩
        omega
      · rintro (late | ⟨-,above⟩)
        · omega
        · have kept := lower.mpr above
          refine ⟨rfl,available_at_ms,finds,?_,?_⟩ <;> omega
  · rw [delayed]
    show (2 ^ 63 ≤ now_ms.toInt + job.jittered ∧ reached = reached) ↔ _
    constructor
    · rintro ⟨late,-⟩
      exact .inl late
    · rintro (late | ⟨small,-⟩)
      · exact ⟨late,rfl⟩
      · omega

end

/-- A job with this backoff that is claimed. -/
def claimedOnce (retry_backoff_ms : UInt64) : List (Move JobCall JobTxCall) :=
  [.Call (.SubmitJob calm (some (.filled 0)) { JobSpec.new [104] [1] with retry_backoff_ms } 0),
    .Call (.ClaimJobForHandlers calm 0 10 [])]

theorem claimed_once_along [Hashes] (retry_backoff_ms : UInt64) (store : Store) :
    (Play.mk (.Idle store) []).Along jobs jobTerms (claimedOnce retry_backoff_ms) := by
  refine @along_of_fine _ _ _ _ _ _ _ (fun call => call.io.Durable) (fun call => call.io.Durable) _ (fun _ _ durable => durable)
    (fun _ _ durable => durable) ?_ ?_ _
  · intro io log member
    simp [claimedOnce] at member
  · intro move member
    simp only [claimedOnce,List.mem_cons,List.not_mem_nil,or_false] at member
    rcases member with rfl | rfl
    · exact calm_durable
    · exact calm_durable

set_option maxRecDepth 20000 in
/-- A second is long enough. -/
theorem second_within_jitter : ∃ store left reached job, @open_with_options crates calm ["a.vstore"] .default [] = .ok store left ∧
    (@Play.steps crates _ _ _ _ (@jobs crates) ⟨.Idle store,[]⟩ (claimedOnce 1000)).session = .Idle reached ∧ reached.HasJob job ∧
    job.state = .Leased ∧ job.base = 1000 ∧ @RetriesWithin crates calm reached job 5 [] := by
  obtain ⟨store,left,opened⟩ := @sound_opens crates calm [] ["a.vstore"] .default calm_faultless (.inl rfl)
  have evaluated : passes (@open_with_options crates calm ["a.vstore"] .default []) (fun store _ =>
        let reached := (@Play.steps crates _ _ _ _ (@jobs crates) ⟨.Idle store,[]⟩ (claimedOnce 1000)).session.store
        (Store.scan_prefix reached HISTORY_PREFIX).all (fun entry => decide (entry.1.length = HISTORY_PREFIX.length + 24 ∧
          Endian.ofBe (entry.1.drop (HISTORY_PREFIX.length + 16)) + 1 < 2 ^ 64)) &&
          (reached.get_job ⟨List.replicate 16 0,rfl⟩).toOption.any (fun found => found.any (fun job =>
            decide (job.id = ⟨List.replicate 16 0,rfl⟩ ∧ job.state = .Leased ∧ job.attempts < job.max_attempts ∧
              job.base = 1000 ∧ job.percent = 92))) &&
          decide (reached.options.max_bytes = none ∧ reached.options.namespace_max_bytes = none ∧ reached.next_tx_id.toNat + 1 < 2 ^ 64 ∧
            reached.next_sequence.toNat + 5 < 2 ^ 64)) = true := by
    decide +kernel
  rw [opened,passes_ok] at evaluated
  simp only [Bool.and_eq_true,decide_eq_true_eq,List.all_eq_true] at evaluated
  obtain ⟨⟨keys,known⟩,no_bytes,no_namespaces,tx_ids,sequences⟩ := evaluated
  obtain ⟨reached,idle⟩ : ∃ reached, (@Play.steps crates _ _ _ _ (@jobs crates) ⟨.Idle store,[]⟩ (claimedOnce 1000)).session = .Idle reached :=
    ⟨_,rfl⟩
  have here : (@Play.steps crates _ _ _ _ (@jobs crates) ⟨.Idle store,[]⟩ (claimedOnce 1000)).session.store = reached :=
    congrArg Session.store idle
  rw [here] at keys known no_bytes no_namespaces tx_ids sequences
  obtain ⟨_,got,found⟩ := any_ok_iff.mp known
  obtain ⟨job,rfl,facts⟩ := (Option.any_eq_true _ _).mp found
  rw [decide_eq_true_eq] at facts
  obtain ⟨mine,leased,tries,base,percent⟩ := facts
  have has : reached.HasJob job := by
    unfold Store.HasJob
    rw [mine]
    exact got
  refine ⟨store,left,reached,job,opened,idle,has,leased,base,?_⟩
  refine (@retry_within_jitter_iff crates _ _ _ _ _ opened _ (@claimed_once_along crates 1000 store) _ idle _ has leased tries
    (by rw [base]; decide) calm 5 [] (by decide) calm_faultless (continues_of_keys keys)
    ⟨⟨no_bytes,no_namespaces⟩,tx_ids,sequences⟩).mpr (.inr ?_)
  rw [base,percent]
  decide

set_option maxRecDepth 20000 in
/-- Of a millisecond nothing is left: the job can be claimed at once. -/
theorem millisecond_is_dropped : ∃ store left reached job, @open_with_options crates calm ["a.vstore"] .default [] = .ok store left ∧
    @Play.Along crates _ _ _ _ (@jobs crates) jobTerms ⟨.Idle store,[]⟩ (claimedOnce 1) ∧
    (@Play.steps crates _ _ _ _ (@jobs crates) ⟨.Idle store,[]⟩ (claimedOnce 1)).session = .Idle reached ∧ reached.HasJob job ∧
    job.state = .Leased ∧ job.attempts < job.max_attempts ∧ job.base = 1 ∧ ¬ @RetriesWithin crates calm reached job 5 [] := by
  obtain ⟨store,left,opened⟩ := @sound_opens crates calm [] ["a.vstore"] .default calm_faultless (.inl rfl)
  have evaluated : passes (@open_with_options crates calm ["a.vstore"] .default []) (fun store _ =>
        let reached := (@Play.steps crates _ _ _ _ (@jobs crates) ⟨.Idle store,[]⟩ (claimedOnce 1)).session.store
        (reached.get_job ⟨List.replicate 16 0,rfl⟩).toOption.any (fun found => found.any (fun job =>
          decide (job.id = ⟨List.replicate 16 0,rfl⟩ ∧ job.state = .Leased ∧ job.attempts < job.max_attempts ∧ job.base = 1) &&
            passes (@fail_job crates calm job.id job.lease_generation 5 [] reached) (fun _ t =>
              (t.get_job job.id).toOption.any (fun found => found.any (fun after => decide (after.available_at_ms = 5))))))) = true := by
    decide +kernel
  rw [opened,passes_ok] at evaluated
  obtain ⟨reached,idle⟩ : ∃ reached, (@Play.steps crates _ _ _ _ (@jobs crates) ⟨.Idle store,[]⟩ (claimedOnce 1)).session = .Idle reached :=
    ⟨_,rfl⟩
  have here : (@Play.steps crates _ _ _ _ (@jobs crates) ⟨.Idle store,[]⟩ (claimedOnce 1)).session.store = reached :=
    congrArg Session.store idle
  dsimp only at evaluated
  rw [here] at evaluated
  obtain ⟨_,got,found⟩ := any_ok_iff.mp evaluated
  obtain ⟨job,rfl,facts⟩ := (Option.any_eq_true _ _).mp found
  obtain ⟨known,failed⟩ := Bool.and_eq_true_iff.mp facts
  rw [decide_eq_true_eq] at known
  obtain ⟨mine,leased,tries,base⟩ := known
  have has : reached.HasJob job := by
    unfold Store.HasJob
    rw [mine]
    exact got
  refine ⟨store,left,reached,job,opened,@claimed_once_along crates 1 store,idle,has,leased,tries,base,?_⟩
  intro within
  unfold RetriesWithin at within
  obtain ⟨state,t,done,failed⟩ := passes_iff.mp failed
  rw [done] at within
  obtain ⟨-,available_at_ms,found,above,-⟩ := within
  unfold Store.HasJob at found
  dsimp only at found
  rw [found] at failed
  have five : available_at_ms = 5 := of_decide_eq_true failed
  rw [base,five] at above
  exact absurd above (by decide)

end VoodooStore
