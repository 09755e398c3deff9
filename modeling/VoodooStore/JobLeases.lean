import VoodooStore.JobLife
import VoodooStore.Lib.Leases

/-!
# The leases of jobs

A claim hands out a job with the number of the attempt. As long as no job that was
tried is revived, these numbers rise over its whole life, so that a worker with an
earlier one is refused (`stale_workers_refused`).
-/
namespace VoodooStore
open Effects
open Leases (Phase Item Ledger claims)
set_option linter.unusedSimpArgs false

/-! ## The ledger of a map -/

def DurableJobState.phase : DurableJobState → Phase
  | .Ready => .Waiting
  | .Leased => .Held
  | .Dead => .Retired
  | .Completed => .Gone
  | .Cancelled => .Gone

/-- The generation of a job is the number of its last attempt; a dead one may count one more. -/
structure ItemOf (job : DurableJob) (item : Item) : Prop where
  phase : item.phase = job.state.phase
  low : item.generation ≤ job.attempts.toNat
  exact : job.state ≠ .Dead → item.generation = job.attempts.toNat
  held : job.state = .Leased → job.lease_generation = job.attempts

/-- The ledger tells what the map holds. -/
structure Tracks (ledger : Ledger JobId) (s : State) : Prop where
  unknown : ∀ id, s[job_key id]? = none → ledger id = none
  known : ∀ job, JobIn s job → ∃ item, ledger job.id = some item ∧ ItemOf job item

/-- What a write means for the leases. -/
def JobFact.events : JobFact → List (Leases.Event JobId)
  | .Submitted job _ => [.Added job.id]
  | .Scheduled job _ => [.Added job.id]
  | .Halved job => [.Added job.id]
  | .Turned old new entry =>
    if entry.kind = .Claimed then [.Claimed new.id new.lease_generation.toNat]
    else if old.state = .Dead then [.Revived old.id] else [.Withdrawn old.id new.state.phase]
  | .Prolonged _ _ => []

theorem turned_events (old new : DurableJob) (entry : JobHistoryEntry) : JobFact.events (.Turned old new entry) =
    if entry.kind = .Claimed then [.Claimed new.id new.lease_generation.toNat]
    else if old.state = .Dead then [.Revived old.id] else [.Withdrawn old.id new.state.phase] := rfl

/-- No dead job is revived that was tried before. -/
def JobFact.Untried (fact : JobFact) : Prop := ∀ old new entry, fact = .Turned old new entry → old.state = .Dead → old.attempts = 0

theorem open_phase {state : DurableJobState} (active : state.active = true) : state.phase.Open := by
  cases state with
  | Ready => exact .inl rfl
  | Leased => exact .inr rfl
  | _ => cases active

section
variable {s t : State} {fact : JobFact} {ledger : Ledger JobId} {events : List (Leases.Event JobId)}

theorem Tracks.same (tracks : Tracks ledger s) (same : SameJobs s t) : Tracks ledger t :=
  ⟨fun id none => tracks.unknown id (by rw [← same _ (job_key_space id)]; exact none),fun job has => tracks.known job (same.job_in.mpr has)⟩

/-- A write of a job changes its item alone. -/
theorem Tracks.write (tracks : Tracks ledger s) (step : JobStep s fact t) {item : Item} (tracked : ItemOf fact.job item) :
    Tracks (Function.update ledger fact.job.id (some item)) t := by
  constructor
  · intro id none
    have here := step.record id
    by_cases same : fact.job.id = id
    · rw [if_pos same,none] at here
      cases here
    · rw [if_neg same,none] at here
      rw [Function.update_of_ne (Ne.symm same)]
      exact tracks.unknown id here.symm
  · intro job has
    rcases step.known has with rfl | ⟨other,before⟩
    · exact ⟨item,Function.update_self _ _ _,tracked⟩
    · obtain ⟨old,found,is⟩ := tracks.known job before
      exact ⟨old,by rw [Function.update_of_ne (Ne.symm other)]; exact found,is⟩

theorem item_of_newborn {job : DurableJob} (new : job.Newborn) : ItemOf job ⟨.Waiting,0⟩ := by
  refine ⟨by rw [new.state]; rfl,Nat.zero_le _,fun _ => by rw [new.attempts]; rfl,?_⟩
  intro held
  rw [new.state] at held
  cases held

theorem Tracks.added (tracks : Tracks ledger s) (run : Leases.Run events ledger) (step : JobStep s fact t) (new : fact.job.Newborn)
    (fresh : s[job_key fact.job.id]? = none) : ∃ later, Leases.Run (events ++ [.Added fact.job.id]) later ∧ Tracks later t :=
  ⟨_,run.next (.added (tracks.unknown _ fresh)),tracks.write step (item_of_newborn new)⟩

/-- Every write is a step of the ledger. -/
theorem Tracks.step (tracks : Tracks ledger s) (run : Leases.Run events ledger) (step : JobStep s fact t)
    (fresh : ∀ id, fact.made = some id → s[job_key id]? = none) (untried : fact.Untried) :
    ∃ later, Leases.Run (events ++ fact.events) later ∧ Tracks later t := by
  cases step.allowed with
  | submitted new first free => exact tracks.added run step new (fresh _ rfl)
  | scheduled new first => exact tracks.added run step new (fresh _ rfl)
  | halved new free => exact tracks.added run step new (fresh _ rfl)
  | @turned old new entry has becomes next =>
    obtain ⟨⟨phase,generation⟩,found,is⟩ := tracks.known old has
    have same : phase = old.state.phase := is.phase
    subst same
    rw [turned_events]
    generalize kind : entry.kind = told at becomes
    have withdrawn : ∀ {next : DurableJob}, old.Becomes told next → old.state.active = true → told ≠ .Claimed → next.state.phase ≠ .Held →
        JobStep s (.Turned old next entry) t → ItemOf next ⟨next.state.phase,generation⟩ →
        ∃ later, Leases.Run (events ++ [.Withdrawn old.id next.state.phase]) later ∧ Tracks later t := by
      intro next becomes active other unheld step tracked
      refine ⟨_,run.next (.withdrawn found (open_phase active) next.state.phase unheld),?_⟩
      have written := tracks.write step tracked
      rwa [show (JobFact.Turned old next entry).job.id = old.id from becomes.id] at written
    cases becomes with
    | claimed lease_until_ms active tries =>
      rw [if_pos rfl]
      have exact := is.exact (active_not_dead active)
      have room : old.attempts.toNat + 1 < 2 ^ 32 := by
        rw [UInt32.lt_iff_toNat_lt] at tries
        have := old.max_attempts.toNat_lt
        omega
      have raised : (old.attempts + 1).toNat = generation + 1 := by
        rw [UInt32.toNat_add,UInt32.toNat_one,Nat.mod_eq_of_lt room,← exact]
      have leased : ItemOf (old.leased lease_until_ms) ⟨.Held,generation + 1⟩ :=
        ⟨rfl,Nat.le_of_eq raised.symm,fun _ => raised.symm,fun _ => rfl⟩
      refine ⟨_,run.next ?_,tracks.write step leased⟩
      show Leases.Step ledger (.Claimed old.id (old.attempts + 1).toNat) _
      rw [raised]
      exact .claimed found (open_phase active)
    | exhausted active spent room =>
      rw [if_neg (by decide),if_neg (active_not_dead active)]
      refine withdrawn (.exhausted active spent room) active (by decide) (by rintro ⟨⟩) step ⟨rfl,?_,fun alive => absurd rfl alive,by rintro ⟨⟩⟩
      have low : generation ≤ old.attempts.toNat := is.low
      show generation ≤ (old.attempts + 1).toNat
      rw [UInt32.toNat_add,UInt32.toNat_one,Nat.mod_eq_of_lt room]
      omega
    | buried active =>
      rw [if_neg (by decide),if_neg (active_not_dead active)]
      exact withdrawn (.buried active) active (by decide) (by rintro ⟨⟩) step ⟨rfl,is.low,fun alive => absurd rfl alive,by rintro ⟨⟩⟩
    | completed held =>
      rw [if_neg (by decide),if_neg (active_not_dead (held_active held))]
      refine withdrawn (.completed held) (held_active held) (by decide) (by rintro ⟨⟩) step ⟨rfl,is.low,fun _ => ?_,by rintro ⟨⟩⟩
      exact is.exact (active_not_dead (held_active held))
    | rescheduled held available_at_ms =>
      rw [if_neg (by decide),if_neg (active_not_dead (held_active held))]
      refine withdrawn (.rescheduled held available_at_ms) (held_active held) (by decide) (by rintro ⟨⟩) step ⟨rfl,is.low,fun _ => ?_,by rintro ⟨⟩⟩
      exact is.exact (active_not_dead (held_active held))
    | revived dead now_ms =>
      rw [if_neg (by decide),if_pos dead]
      have first : generation = 0 := by
        have low : generation ≤ old.attempts.toNat := is.low
        rw [untried old _ entry rfl dead] at low
        exact Nat.le_zero.mp low
      subst first
      have retired : ledger old.id = some ⟨.Retired,0⟩ := by rw [found,dead]; rfl
      have waits : ItemOf (old.revived now_ms) ⟨.Waiting,0⟩ := ⟨rfl,Nat.zero_le _,fun _ => rfl,by rintro ⟨⟩⟩
      exact ⟨_,run.next (.revived retired),tracks.write step waits⟩
    | cancelled active =>
      rw [if_neg (by decide),if_neg (active_not_dead active)]
      refine withdrawn (.cancelled active) active (by decide) (by rintro ⟨⟩) step ⟨rfl,is.low,fun _ => ?_,by rintro ⟨⟩⟩
      exact is.exact (active_not_dead active)
  | @prolonged old has held lease_until_ms =>
    obtain ⟨item,found,is⟩ := tracks.known old has
    refine ⟨ledger,by rw [show JobFact.events (.Prolonged old lease_until_ms) = [] from rfl,List.append_nil]; exact run,?_⟩
    have written := @Tracks.write s t (.Prolonged old lease_until_ms) ledger tracks step item ⟨is.phase,is.low,is.exact,is.held⟩
    rwa [show (JobFact.Prolonged old lease_until_ms).job.id = old.id from rfl,← found,Function.update_eq_self] at written

end

/-! ## Runs -/

/-- The leases that were handed out, in their order. -/
def handedOut (log : List JobEvent) : List (JobId × UInt32) :=
  log.flatMap (fun event => match event with | .Returned _ told => JobTold.handed told | _ => [])

/-- The last lease of this job that was handed out. -/
def LatestLease (leases : List (JobId × UInt32)) (id : JobId) (lease_generation : UInt32) : Prop :=
  ∃ before after, leases = before ++ (id,lease_generation) :: after ∧ ∀ lease ∈ after, lease.1 ≠ id

/-- Whoever was accepted had the latest lease of the job. -/
def StaleRefused (log : List JobEvent) : Prop :=
  ∀ before call id lease_generation after, log = before ++ .Returned (.Job call) (.ok (.Acted true)) :: after →
    call.presents = some (id,lease_generation) → LatestLease (handedOut before) id lease_generation

/-- The lease as the ledger counts it. -/
def counted_lease (lease : JobId × UInt32) : JobId × Nat := (lease.1,lease.2.toNat)

/-- The history of the ledger has these claims, and nobody settles anything in it. -/
structure ClaimsTold (events : List (Leases.Event JobId)) (leases : List (JobId × UInt32)) : Prop where
  claimed : claims events = leases.map counted_lease
  unsettled : ∀ id generation phase, .Settled id generation phase ∉ events

/-- What is known of the leases. -/
structure LeasesKept (state : State) (view : Option State) (log : List JobEvent) : Prop where
  refused : StaleRefused log
  ledger : ∃ events ledger, Leases.Run events ledger ∧ ClaimsTold events (handedOut log) ∧ Tracks ledger state ∧
    ∀ seen, view = some seen → ∃ more later, Leases.Run (events ++ more) later ∧ ClaimsTold more [] ∧ Tracks later seen

/-- The ids that are drawn are new, and no two of them are the same. -/
structure FreshDraws (s : State) (draws : Nat → Option JobId) : Prop where
  fresh : ∀ n id, draws n = some id → s[job_key id]? = none
  distinct : ∀ m n id, draws m = some id → draws n = some id → m = n

/-- No job is revived that was tried before, and the ids are new. -/
def leaseTerms : Terms JobUseError JobUse JobTxUse JobTold where
  mine := jobSpace
  call state call := call.io.Durable ∧ FreshDraws state call.draws ∧ ∀ io id now_ms, call = .Job (.RetryJob io id now_ms) →
    ∀ job, JobIn state job → job.id = id → job.state = .Dead → job.attempts = 0
  callTx view call := call.io.Durable ∧ ∀ id, call.draws = some id → view[job_key id]? = none
  commit _ := True

theorem FreshDraws.path {s : State} {draws : Nat → Option JobId} {start : Nat} {ids : List JobId} (fresh : FreshDraws s draws)
    (drawn : Drawn draws start ids) : ids.Nodup ∧ ∀ id ∈ ids, s[job_key id]? = none := by
  obtain ⟨ns,rises,-,same⟩ := drawn
  have each : ∀ id ∈ ids, ∃ n ∈ ns, draws n = some id := by
    intro id member
    have inside : some id ∈ ns.map draws := by
      rw [← same]
      exact List.mem_map_of_mem member
    exact List.mem_map.mp inside
  refine ⟨?_,?_⟩
  · have distinct : (ids.map some).Nodup := by
      rw [same]
      refine List.Nodup.map_on ?_ (rises.imp (fun less => Nat.ne_of_lt less))
      intro m first n second equal
      have known : draws m ∈ ids.map some := by
        rw [same]
        exact List.mem_map_of_mem first
      obtain ⟨id,-,is⟩ := List.mem_map.mp known
      exact fresh.distinct m n id is.symm (by rw [← equal]; exact is.symm)
    exact (List.nodup_map_iff (Option.some_injective _)).mp distinct
  · intro id member
    obtain ⟨n,-,is⟩ := each id member
    exact fresh.fresh n id is

theorem handed_out_snoc (log : List JobEvent) (event : JobEvent) : handedOut (log ++ [event]) = handedOut log ++ handedOut [event] := by
  unfold handedOut
  rw [List.flatMap_append]

theorem StaleRefused.snoc {log : List JobEvent} {event : JobEvent} (refused : StaleRefused log)
    (last : ∀ call id lease_generation, event = .Returned (.Job call) (.ok (.Acted true)) → call.presents = some (id,lease_generation) →
      LatestLease (handedOut log) id lease_generation) : StaleRefused (log ++ [event]) := by
  intro before call id lease_generation after split presents
  rcases List.eq_nil_or_concat after with rfl | ⟨rest,other,rfl⟩
  · obtain ⟨rfl,is⟩ := List.append_inj' split rfl
    cases is
    exact last call id lease_generation rfl presents
  · rw [List.concat_eq_append,← List.cons_append,← List.append_assoc] at split
    exact refused before call id lease_generation rest (List.append_inj' split rfl).1 presents

theorem claims_append (first second : List (Leases.Event JobId)) : claims (first ++ second) = claims first ++ claims second :=
  List.filterMap_append

theorem ClaimsTold.append {first second : List (Leases.Event JobId)} {a b : List (JobId × UInt32)} (one : ClaimsTold first a)
    (two : ClaimsTold second b) : ClaimsTold (first ++ second) (a ++ b) := by
  refine ⟨by rw [claims_append,one.claimed,two.claimed,List.map_append],?_⟩
  intro id generation phase member
  rcases List.mem_append.mp member with early | late
  · exact one.unsettled id generation phase early
  · exact two.unsettled id generation phase late

/-- An event that hands out nothing. -/
theorem ClaimsTold.silent {events : List (Leases.Event JobId)} {log : List JobEvent} {event : JobEvent}
    (told : ClaimsTold events (handedOut log)) (silent : handedOut [event] = []) : ClaimsTold events (handedOut (log ++ [event])) := by
  rw [handed_out_snoc,silent,List.append_nil]
  exact told

theorem claims_told (facts : List JobFact) : ClaimsTold (facts.flatMap JobFact.events) (facts.filterMap JobFact.handed) := by
  induction facts with
  | nil => exact ⟨rfl,by simp⟩
  | cons fact facts ih =>
    have one : ClaimsTold fact.events fact.handed.toList := by
      cases fact with
      | Turned old new entry =>
        rw [turned_events]
        unfold JobFact.handed
        dsimp only
        split
        · exact ⟨rfl,by simp⟩
        · split
          · exact ⟨rfl,by simp⟩
          · exact ⟨rfl,by simp⟩
      | Prolonged old lease_until_ms => exact ⟨rfl,by simp [JobFact.events]⟩
      | _ => exact ⟨rfl,by simp [JobFact.events]⟩
    have whole := one.append ih
    rw [List.flatMap_cons]
    cases handed : fact.handed with
    | none =>
      rw [handed] at whole
      rw [List.filterMap_cons_none handed]
      exact whole
    | some lease =>
      rw [handed] at whole
      rw [List.filterMap_cons_some handed]
      exact whole

/-- A path of writes is a history of the ledger. -/
theorem Tracks.path {s t : State} {facts : List JobFact} {ledger : Ledger JobId} {events : List (Leases.Event JobId)}
    (tracks : Tracks ledger s) (run : Leases.Run events ledger) (path : JobPath s facts t) (distinct : (facts.filterMap JobFact.made).Nodup)
    (fresh : ∀ id ∈ facts.filterMap JobFact.made, s[job_key id]? = none) (untried : ∀ fact ∈ facts, fact.Untried) :
    ∃ later, Leases.Run (events ++ facts.flatMap JobFact.events) later ∧ Tracks later t := by
  have carried := @JobPath.carries s t facts []
    (fun done s => ∃ later, Leases.Run (events ++ done.flatMap JobFact.events) later ∧ Tracks later s) JobFact.Untried ?_ ?_ path distinct
    fresh untried ⟨ledger,by simpa using run,tracks⟩
  · exact carried
  · rintro done s t same ⟨later,runs,tracks⟩
    exact ⟨later,runs,tracks.same same⟩
  · rintro done s fact t step fresh untried ⟨later,runs,tracks⟩
    obtain ⟨next,run,follows⟩ := tracks.step runs step fresh untried
    refine ⟨next,?_,follows⟩
    rw [List.flatMap_append,← List.append_assoc]
    simpa using run

/-- The latest claim in the history is the lease that was handed out last. -/
theorem latest_lease {events : List (Leases.Event JobId)} {leases : List (JobId × UInt32)} {id : JobId} {lease_generation : UInt32}
    (told : ClaimsTold events leases) (latest : Leases.Latest events id (.Claimed id lease_generation.toNat)) :
    LatestLease leases id lease_generation := by
  obtain ⟨before,after,rfl,quiet⟩ := latest
  have split := told.claimed
  rw [claims_append] at split
  obtain ⟨first,second,rfl,-,is⟩ := List.map_eq_append_iff.mp split.symm
  obtain ⟨⟨other,generation⟩,rest,rfl,here,behind⟩ := List.map_eq_cons_iff.mp is
  obtain ⟨rfl,same⟩ := Prod.mk.inj here
  have generations := UInt32.toNat_inj.mp same
  subst generations
  refine ⟨first,rest,rfl,?_⟩
  intro lease member same
  have claimed : counted_lease lease ∈ rest.map counted_lease := List.mem_map_of_mem member
  rw [behind,counted_lease] at claimed
  have inside := Leases.mem_claims.mp claimed
  exact quiet _ inside (by rw [← same]; rfl)

section
variable [Hashes]

theorem leases_preserved : Preserved jobLife leaseTerms (fun state view log =>
    (JobBook state ∧ ∀ seen, view = some seen → JobBook seen) ∧ LeasesKept state view log) := by
  refine job_life_preserved (fun key own => own) (fun state call ok => ok.1) (fun view call ok => ok.1) ?_ ?_ ?_ ?_ ?_ ?_
  · rintro call store log facts ⟨-,fresh,tried⟩ book path does ⟨refused,events,ledger,run,told,tracks,-⟩
    obtain ⟨distinct,unknown⟩ := fresh.path does.drawn
    have untried : ∀ fact ∈ facts, fact.Untried := by
      rintro fact member old new entry rfl dead
      obtain ⟨-,io,now_ms,is,has⟩ := does.revives old new entry member dead
      exact tried io old.id now_ms is old has rfl dead
    obtain ⟨later,runs,follows⟩ := tracks.path run path distinct unknown untried
    have handed : handedOut [.Returned call (returned (jobLife.on_store call) store)] = facts.filterMap JobFact.handed := by
      rw [does.handed]
      exact List.append_nil _
    refine ⟨?_,events ++ facts.flatMap JobFact.events,later,runs,?_,follows,by simp⟩
    · refine refused.snoc (fun job_call id lease_generation is presents => ?_)
      obtain ⟨rfl,accepted⟩ := Happened.Returned.inj is
      obtain ⟨job,has,own,held,generation⟩ := does.accepted job_call id lease_generation rfl presents accepted
      obtain ⟨⟨phase,count⟩,found,item⟩ := tracks.known job has
      have holding : ledger id = some ⟨.Held,lease_generation.toNat⟩ := by
        rw [← own,found]
        have is_held : phase = .Held := item.phase.trans (by rw [held]; rfl)
        have counts : count = job.attempts.toNat := item.exact (by rw [held]; decide)
        rw [is_held,counts,← item.held held,generation]
      exact latest_lease told (run.holder holding (fun j h => told.unsettled j h .Held))
    · rw [handed_out_snoc,handed]
      exact told.append (claims_told facts)
  · rintro state log ⟨refused,events,ledger,run,told,tracks,-⟩
    refine ⟨refused.snoc (by rintro _ _ _ ⟨⟩),events,ledger,run,told.silent rfl,tracks,?_⟩
    rintro _ ⟨⟩
    exact ⟨[],ledger,by rw [List.append_nil]; exact run,⟨rfl,by simp⟩,tracks⟩
  · rintro call state view next log facts ⟨-,fresh⟩ book path does ⟨refused,events,ledger,run,told,tracks,seen⟩
    obtain ⟨more,later,runs,quiet,follows⟩ := seen view rfl
    have kept : ∃ further last, Leases.Run (events ++ further) last ∧ ClaimsTold further [] ∧ Tracks last next := by
      have extends_by : ∀ ids, facts.filterMap JobFact.made = ids → facts.filterMap JobFact.handed = [] → ids.Nodup →
          (∀ id ∈ ids, view[job_key id]? = none) → (∀ fact ∈ facts, fact.Untried) →
          ∃ further last, Leases.Run (events ++ further) last ∧ ClaimsTold further [] ∧ Tracks last next := by
        rintro _ rfl silent distinct unknown untried
        obtain ⟨last,whole,ends⟩ := follows.path runs path distinct unknown untried
        rw [List.append_assoc] at whole
        have claimed := claims_told facts
        rw [silent] at claimed
        exact ⟨_,last,whole,quiet.append claimed,ends⟩
      cases does with
      | nothing => exact extends_by [] rfl rfl .nil (by simp) (by simp)
      | @made job entry drawn =>
        refine extends_by [job.id] rfl rfl (by simp) ?_ ?_
        · intro id member
          rw [List.mem_singleton.mp member]
          exact fresh _ drawn
        · rintro fact member old new entry rfl
          cases List.mem_singleton.mp member
      | @halved job drawn =>
        refine extends_by [job.id] rfl rfl (by simp) ?_ ?_
        · intro id member
          rw [List.mem_singleton.mp member]
          exact fresh _ drawn
        · rintro fact member old new entry rfl
          cases List.mem_singleton.mp member
    refine ⟨refused.snoc (by rintro _ _ _ ⟨⟩),events,ledger,run,told.silent rfl,tracks,?_⟩
    rintro _ ⟨⟩
    exact kept
  · rintro state view next log same ⟨refused,events,ledger,run,told,tracks,seen⟩
    obtain ⟨more,later,runs,quiet,follows⟩ := seen view rfl
    refine ⟨refused,events,ledger,run,told,tracks,?_⟩
    rintro _ ⟨⟩
    exact ⟨more,later,runs,quiet,follows.same same⟩
  · rintro state view next log - same ⟨refused,events,ledger,run,told,tracks,seen⟩
    obtain ⟨more,later,runs,quiet,follows⟩ := seen view rfl
    refine ⟨refused.snoc (by rintro _ _ _ ⟨⟩),events ++ more,later,runs,?_,follows.same same,by simp⟩
    rw [handed_out_snoc]
    exact told.append quiet
  · rintro state view log ⟨refused,events,ledger,run,told,tracks,-⟩
    exact ⟨refused.snoc (by rintro _ _ _ ⟨⟩),events,ledger,run,told.silent rfl,tracks,by simp⟩

omit [Hashes] in
theorem leases_start : (JobBook ∅ ∧ ∀ seen, (none : Option State) = some seen → JobBook seen) ∧ LeasesKept ∅ none [] := by
  refine ⟨⟨holding_empty _ _ _,by simp⟩,?_,[],fun _ => none,.start,⟨rfl,by simp⟩,⟨fun id _ => rfl,?_⟩,by simp⟩
  · intro before call id lease_generation after split
    simp at split
  · intro job has
    have stored := has.stored
    simp at stored

/-- As long as no job that was tried before is revived, no lease of a job is handed out
    twice, the generations of a job rise, and whoever is accepted has the latest one. -/
theorem stale_workers_refused {io : Io} {path : Path} {options : StoreOptions} {store : Store} {left : Bytes}
    (opened : open_with_options io path options [] = .ok store left) {moves : List (Move JobUse JobTxUse)}
    (along : (Play.mk (.Idle store) []).Along jobLife leaseTerms moves) {log : List JobEvent}
    (seen : (Play.steps jobLife ⟨.Idle store,[]⟩ moves).log = log) :
    (handedOut log).Nodup ∧ (handedOut log).Pairwise (fun a b => a.1 = b.1 → a.2 < b.2) ∧ StaleRefused log := by
  obtain ⟨-,refused,events,ledger,run,told,-⟩ := (play_invariant leases_preserved leases_start opened along).holds
  rw [seen] at refused told
  have rises := run.claims_rise
  rw [told.claimed,List.pairwise_map] at rises
  have ordered : (handedOut log).Pairwise (fun a b => a.1 = b.1 → a.2 < b.2) := by
    refine rises.imp ?_
    intro a b less same
    exact UInt32.lt_iff_toNat_lt.mpr (less same)
  refine ⟨?_,ordered,refused⟩
  refine ordered.imp ?_
  rintro a b less rfl
  exact absurd (less rfl) (UInt32.lt_irrefl _)

end

/-- A job is tried, fails and is tried again, while the first worker comes back. -/
def triedTwice : List (Move JobUse JobTxUse) :=
  [.Call (.Job (.SubmitJob calm (some (.filled 1)) (.new [104] [1]) 0)),
    .Call (.Job (.ClaimJobForHandlers calm 0 10 [])),
    .Call (.Job (.FailJob calm (.filled 1) 1 1 [])),
    .Call (.Job (.ClaimJobForHandlers calm 5000 10 [])),
    .Call (.Job (.CompleteJob calm (.filled 1) 1 5001)),
    .Call (.Job (.CompleteJob calm (.filled 1) 2 5002))]

/-- Calls that make no job and revive none. -/
theorem quiet_call {state : State} {call : JobUse} (durable : call.io.Durable) (silent : ∀ n, call.draws n = none)
    (other : ∀ io id now_ms, call ≠ .Job (.RetryJob io id now_ms)) : leaseTerms.call state call := by
  refine ⟨durable,⟨?_,?_⟩,fun io id now_ms is => absurd is (other io id now_ms)⟩
  · intro n id drawn
    rw [silent] at drawn
    cases drawn
  · intro m n id drawn
    rw [silent] at drawn
    cases drawn

theorem tried_twice_along [Hashes] {store : Store} (empty : store.state = ∅) :
    (Play.mk (.Idle store) []).Along jobLife leaseTerms triedTwice := by
  refine ⟨⟨calm_durable,⟨?_,?_⟩,by rintro io id now_ms ⟨⟩⟩,?_⟩
  · intro n id _
    rw [empty]
    simp
  · intro m n id first second
    simp only [JobUse.draws] at first second
    split at first
    · split at second
      · omega
      · cases second
    · cases first
  · refine @along_of_fine _ _ _ _ _ _ _ (fun call => call.io.Durable ∧ (∀ n, call.draws n = none) ∧
      ∀ io id now_ms, call ≠ .Job (.RetryJob io id now_ms)) (fun _ => False) _ (fun _ _ fine => quiet_call fine.1 fine.2.1 fine.2.2)
      (fun _ _ none => none.elim) (fun _ _ _ => trivial) ?_ _
    intro move member
    simp only [List.mem_cons,List.not_mem_nil,or_false] at member
    rcases member with rfl | rfl | rfl | rfl | rfl
    all_goals exact ⟨calm_durable,fun _ => rfl,by rintro io id now_ms ⟨⟩⟩

set_option maxRecDepth 20000 in
/-- The first worker comes back too late, and the second one completes the job. -/
theorem second_try_completes : ∃ store left, @open_with_options crates calm ["a.vstore"] .default [] = .ok store left ∧
    let log := (@Play.steps crates _ _ _ _ (@jobLife crates) ⟨.Idle store,[]⟩ triedTwice).log
    handedOut log = [(⟨List.replicate 16 1,rfl⟩,1),(⟨List.replicate 16 1,rfl⟩,2)] ∧ (handedOut log).Nodup ∧ StaleRefused log := by
  obtain ⟨store,left,opened⟩ := @sound_opens crates calm [] ["a.vstore"] .default calm_faultless (.inl rfl)
  obtain ⟨-,-,-,empty,-,-⟩ := @new_store crates _ _ _ _ _ opened
  obtain ⟨distinct,-,refused⟩ := @stale_workers_refused crates _ _ _ _ _ opened _ (@tried_twice_along crates store empty) _ rfl
  have evaluated : passes (@open_with_options crates calm ["a.vstore"] .default []) (fun store _ =>
      decide (handedOut (@Play.steps crates _ _ _ _ (@jobLife crates) ⟨.Idle store,[]⟩ triedTwice).log =
        [(⟨List.replicate 16 1,rfl⟩,1),(⟨List.replicate 16 1,rfl⟩,2)])) = true := by
    rw [crates_eq_quick]
    decide +kernel
  rw [opened,passes_ok] at evaluated
  exact ⟨store,left,opened,of_decide_eq_true evaluated,distinct,refused⟩

/-- A job that may be tried once dies and is revived, while the first worker comes back. -/
def triedAgain : List (Move JobUse JobTxUse) :=
  [.Call (.Job (.SubmitJob calm (some (.filled 1)) { JobSpec.new [104] [1] with max_attempts := 1 } 0)),
    .Call (.Job (.ClaimJobForHandlers calm 0 10 [])),
    .Call (.Job (.ReleaseExpiredJobs calm 10)),
    .Call (.Job (.RetryJob calm (.filled 1) 11)),
    .Call (.Job (.ClaimJobForHandlers calm 12 10 [])),
    .Call (.Job (.CompleteJob calm (.filled 1) 1 13))]

/-- The calls whose lease was accepted, with what had been handed out by then. -/
def acceptedLeases (log : List JobEvent) : List (JobId × UInt32) :=
  log.filterMap (fun event => match event with | .Returned (.Job call) (.ok (.Acted true)) => call.presents | _ => none)

set_option maxRecDepth 20000 in
/-- The lease that was handed out first is handed out again, so that the first worker completes the job of the second one. -/
theorem revived_lease_repeats : ∃ store left, @open_with_options crates calm ["a.vstore"] .default [] = .ok store left ∧
    let log := (@Play.steps crates _ _ _ _ (@jobLife crates) ⟨.Idle store,[]⟩ triedAgain).log
    handedOut log = [(⟨List.replicate 16 1,rfl⟩,1),(⟨List.replicate 16 1,rfl⟩,1)] ∧
      acceptedLeases log = [(⟨List.replicate 16 1,rfl⟩,1)] ∧ ¬ (handedOut log).Nodup := by
  obtain ⟨store,left,opened⟩ := @sound_opens crates calm [] ["a.vstore"] .default calm_faultless (.inl rfl)
  have evaluated : passes (@open_with_options crates calm ["a.vstore"] .default []) (fun store _ =>
        let log := (@Play.steps crates _ _ _ _ (@jobLife crates) ⟨.Idle store,[]⟩ triedAgain).log
        decide (handedOut log = [(⟨List.replicate 16 1,rfl⟩,1),(⟨List.replicate 16 1,rfl⟩,1)]) &&
          decide (acceptedLeases log = [(⟨List.replicate 16 1,rfl⟩,1)])) = true := by
    rw [crates_eq_quick]
    decide +kernel
  rw [opened,passes_ok] at evaluated
  obtain ⟨handed,accepted⟩ := Bool.and_eq_true_iff.mp evaluated
  refine ⟨store,left,opened,of_decide_eq_true handed,of_decide_eq_true accepted,?_⟩
  rw [of_decide_eq_true handed]
  decide

end VoodooStore
