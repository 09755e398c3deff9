import VoodooStore.CronTimes
import VoodooStore.Interruption
import VoodooStore.JobCalls

/-!
# Ticks of interval schedules

A tick goes through the schedules in the order of their keys. For each one that
is due it writes, in one transaction, a job and the schedule with its cursor
behind the time of the tick. What a tick has done when it ends, fails or is
interrupted by a crash is a chain of such firings (`Firings`).
-/
namespace VoodooStore
open Effects
set_option linter.unusedSimpArgs false

/-! ## The next run -/

theorem i64_try_from_eq {x : UInt64} {y : Int64} (tried : Int64.try_from x = some y) : y.toInt = x.toNat := by
  unfold Int64.try_from at tried
  split at tried
  · rename_i fits
    cases tried
    exact Int64.toInt_ofNat_of_lt fits
  · cases tried

/-- The loop ends at the first run of the grid behind the time, unless that cannot be counted. -/
theorem first_run_ends {now_ms every : Int64} (positive : 0 < every.toInt) (fuel : Nat) (next : Int64) (some_fuel : 1 ≤ fuel)
    (enough : min (now_ms.toInt + 2) (2 ^ 63) ≤ fuel + next.toInt) :
    ∃ k : Nat, now_ms.toInt < next.toInt + k * every.toInt ∧ (∀ j : Nat, j < k → next.toInt + j * every.toInt ≤ now_ms.toInt) ∧
      ((∃ t : Int64, t.toInt = next.toInt + k * every.toInt ∧ first_run_after now_ms every fuel next = some (.ok t)) ∨
        2 ^ 63 ≤ next.toInt + k * every.toInt ∧ first_run_after now_ms every fuel next = some (.error .TimeOverflow)) := by
  induction fuel generalizing next with
  | zero => omega
  | succ fuel ih =>
    rw [first_run_after]
    by_cases due : next ≤ now_ms
    · have due_int : next.toInt ≤ now_ms.toInt := Int64.le_iff_toInt_le.mp due
      rw [if_pos due]
      cases added : next.checked_add every with
      | none =>
        have over_end := i64_checked_add_none.mp added
        have least := next.le_toInt
        have most := now_ms.toInt_lt
        refine ⟨1,by omega,?_,.inr ⟨by omega,rfl⟩⟩
        intro j small
        have zero : j = 0 := by omega
        subst zero
        simpa using due_int
      | some later =>
        have sum := i64_checked_add_eq.mp added
        have most := later.toInt_lt
        obtain ⟨k,behind,before,ends⟩ := ih later (by omega) (by push_cast at enough; omega)
        refine ⟨k + 1,?_,?_,?_⟩
        · push_cast
          linarith
        · intro j small
          cases j with
          | zero => simpa using due_int
          | succ j =>
            have := before j (by omega)
            push_cast
            linarith
        · rcases ends with ⟨t,value,found⟩ | ⟨far,failed⟩
          · refine .inl ⟨t,?_,found⟩
            push_cast
            linarith
          · refine .inr ⟨?_,failed⟩
            push_cast
            linarith
    · have late : now_ms.toInt < next.toInt := by
        rw [Int64.le_iff_toInt_le] at due
        omega
      rw [if_neg due]
      exact ⟨0,by simpa using late,by omega,.inl ⟨next,by simp,rfl⟩⟩

/-- The first point behind the time of the grid that begins at `start` with the distance `every`. -/
def FirstBehind (start every time first : Int) : Prop :=
  ∃ k : Nat, first = start + k * every ∧ time < first ∧ ∀ j : Nat, time < start + j * every → k ≤ j

/-- What the schedule is after a run: it is switched off, or its cursor is behind the time. -/
theorem advanced_ok {schedule next : DurableSchedule} {now_ms : Int64} (positive : schedule.mode ≠ .Interval 0)
    (done : schedule.advanced now_ms = .ok next) :
    (schedule.mode = .Once ∧ next = { schedule with enabled := false }) ∨
      ∃ every_ms, schedule.mode = .Interval every_ms ∧ next = { schedule with next_run_ms := next.next_run_ms } ∧
        FirstBehind schedule.next_run_ms.toInt every_ms.toNat now_ms.toInt next.next_run_ms.toInt := by
  unfold DurableSchedule.advanced at done
  cases mode : schedule.mode with
  | Once =>
    rw [mode] at done
    cases done
    exact .inl ⟨rfl,rfl⟩
  | Interval every_ms =>
    rw [mode] at done
    obtain ⟨every,tried,done⟩ := bind_ok_iff.mp done
    obtain ⟨first,ran,done⟩ := bind_ok_iff.mp done
    cases done
    have value := i64_try_from_eq (ok_or_ok.mp tried)
    have nonzero : every_ms.toNat ≠ 0 := by
      intro zero
      rw [UInt64.toNat_inj.mp (zero.trans rfl : every_ms.toNat = (0 : UInt64).toNat)] at mode
      exact positive mode
    have least := schedule.next_run_ms.le_toInt
    obtain ⟨k,behind,before,ends⟩ := @first_run_ends now_ms every (by omega) USIZE schedule.next_run_ms (by decide)
      (by rw [USIZE]; omega)
    rcases ends with ⟨t,found,ok⟩ | ⟨-,failed⟩
    · rw [ok] at ran
      cases ran
      rw [value] at behind found
      refine .inr ⟨every_ms,rfl,rfl,k,found,?_,?_⟩
      · show now_ms.toInt < first.toInt
        rw [found]
        exact behind
      · intro j later
        by_contra less
        have := before j (by omega)
        rw [value] at this
        omega
    · rw [failed] at ran
      cases ran

theorem advanced_stored {schedule next : DurableSchedule} {now_ms : Int64} (stored : schedule.Stored)
    (done : schedule.advanced now_ms = .ok next) : next.Stored ∧ next.id = schedule.id ∧ next.mode = schedule.mode := by
  rcases advanced_ok stored.mode done with ⟨-,rfl⟩ | ⟨every_ms,-,same,-⟩
  · exact ⟨⟨stored.job,stored.short,stored.mode⟩,rfl,rfl⟩
  · rw [same]
    exact ⟨⟨stored.job,stored.short,stored.mode⟩,rfl,rfl⟩

/-! ## Keys and records -/

theorem schedule_key_own (id : ScheduleId) : starts_with (schedule_key id) SCHEDULE_PREFIX = true :=
  (starts_with_iff _ _).mpr (List.prefix_append _ _)

theorem schedule_key_injective {a b : ScheduleId} (same : schedule_key a = schedule_key b) : a = b :=
  Subtype.ext (List.append_cancel_left same)

theorem schedule_outside_feed {key : Bytes} (own : starts_with key SCHEDULE_PREFIX = true) : starts_with key CDC_PREFIX = false :=
  domain_key_outside ⟨SCHEDULE_PREFIX,by decide,(starts_with_iff _ _).mp own⟩

theorem schedule_not_job {key : Bytes} (own : starts_with key SCHEDULE_PREFIX = true) : ¬ jobSpace key := by
  rw [starts_with_iff] at own
  rintro (job | history)
  · exact prefixes_apart (by decide) own job
  · exact prefixes_apart (by decide) own history

/-- The entry of a schedule in the map. -/
def scheduleEntry (schedule : DurableSchedule) : Bytes × Bytes := (schedule_key schedule.id,schedule.spelling)

/-- The records of schedules are at the keys of their ids. -/
abbrev ScheduleBook : State → Prop := Holding SCHEDULE_PREFIX scheduleEntry DurableSchedule.Stored

theorem ScheduleBook.found {state : State} (book : ScheduleBook state) {id : ScheduleId} {value : Bytes}
    (found : state[schedule_key id]? = some value) :
    ∃ schedule : DurableSchedule, schedule.Stored ∧ schedule.id = id ∧ value = schedule.spelling := by
  obtain ⟨schedule,stored,same⟩ := book _ _ (schedule_key_own id) found
  obtain ⟨key,spelled⟩ := Prod.mk.inj same
  exact ⟨schedule,stored,schedule_key_injective key,spelled.symm⟩

/-- The schedules that a scan finds have ids of their own, and are in the map. -/
theorem ScheduleBook.listed {state : State} (book : ScheduleBook state) : ∃ schedules : List DurableSchedule,
    scan state SCHEDULE_PREFIX = schedules.map scheduleEntry ∧ (schedules.map DurableSchedule.id).Nodup ∧
      (∀ schedule ∈ schedules, schedule.Stored ∧ state[schedule_key schedule.id]? = some schedule.spelling) ∧
      ∀ schedule : DurableSchedule, schedule.Stored → state[schedule_key schedule.id]? = some schedule.spelling → schedule ∈ schedules := by
  obtain ⟨schedules,listed,stored⟩ := book.scan
  refine ⟨schedules,listed,?_,?_,?_⟩
  · have distinct := scan_keys_nodup state SCHEDULE_PREFIX
    rw [listed,List.map_map] at distinct
    rw [show Prod.fst ∘ scheduleEntry = schedule_key ∘ DurableSchedule.id from rfl,← List.map_map] at distinct
    exact distinct.of_map
  · intro schedule member
    have inside : scheduleEntry schedule ∈ scan state SCHEDULE_PREFIX := by
      rw [listed]
      exact List.mem_map_of_mem member
    exact ⟨stored schedule member,(mem_scan.mp inside).2⟩
  · intro schedule fits found
    have inside : scheduleEntry schedule ∈ scan state SCHEDULE_PREFIX := mem_scan.mpr ⟨schedule_key_own _,found⟩
    rw [listed] at inside
    obtain ⟨other,member,same⟩ := List.mem_map.mp inside
    have read := decode_schedule_spelling (stored other member)
    rw [(Prod.mk.inj same).2,decode_schedule_spelling fits] at read
    cases read
    exact member

/-- What it takes to be accepted: a valid job, and a record that can hold the schedule. -/
structure DurableSchedule.Accepted (schedule : DurableSchedule) : Prop where
  job : validate_job_spec schedule.job = .ok ()
  short : 4 + ((schedule_key schedule.id).length + schedule.spelling.length) < 2 ^ 32

/-- Neither the cursor nor the flag matters. -/
theorem DurableSchedule.Accepted.moved {schedule : DurableSchedule} (accepted : schedule.Accepted) (next_run_ms : Int64) (enabled : Bool) :
    DurableSchedule.Accepted { schedule with next_run_ms, enabled } := by
  refine ⟨accepted.job,?_⟩
  have short := accepted.short
  simp only [DurableSchedule.spelling,List.length_append,i64_to_le_length,List.length_singleton] at short ⊢
  exact short

theorem advanced_accepted {schedule next : DurableSchedule} {now_ms : Int64} (stored : schedule.Stored) (accepted : schedule.Accepted)
    (done : schedule.advanced now_ms = .ok next) : next.Accepted := by
  rcases advanced_ok stored.mode done with ⟨-,rfl⟩ | ⟨every_ms,-,same,-⟩
  · exact accepted.moved schedule.next_run_ms false
  · rw [same]
    exact accepted.moved next.next_run_ms schedule.enabled

/-! ## What a tick does -/

/-- The job of a run: for which schedule and which time, and when. -/
structure Firing where
  schedule : ScheduleId
  at_ms : Int64
  job : JobId
  now_ms : Int64
  deriving DecidableEq

/-- What happens to schedules in one transaction. -/
inductive ScheduleFact
  | Created (id : ScheduleId) (mode : ScheduleMode) (first_run_ms : Int64)
  | Switched (id : ScheduleId) (enabled : Bool)
  | Fired (firing : Firing)
  deriving DecidableEq

/-- The record of this schedule is written, and no other one. -/
def Rewrites (schedule : DurableSchedule) (s t : State) : Prop :=
  ∀ key, starts_with key SCHEDULE_PREFIX = true → t[key]? = if schedule_key schedule.id = key then some schedule.spelling else s[key]?

/-- One transaction: what it finds, and what it writes of schedules and jobs. -/
inductive Happens : ScheduleFact → State → State → Prop
  | created {s t : State} {schedule : DurableSchedule} (stored : schedule.Stored) (accepted : schedule.Accepted) (fresh : s[schedule_key schedule.id]? = none)
      (enabled : schedule.enabled = true) (written : Rewrites schedule s t) (jobs : ∀ id, t[job_key id]? = s[job_key id]?) :
      Happens (.Created schedule.id schedule.mode schedule.next_run_ms) s t
  | switched {s t : State} {schedule : DurableSchedule} {enabled : Bool} (stored : schedule.Stored)
      (found : s[schedule_key schedule.id]? = some schedule.spelling) (written : Rewrites { schedule with enabled } s t)
      (jobs : ∀ id, t[job_key id]? = s[job_key id]?) : Happens (.Switched schedule.id enabled) s t
  | fired {s t : State} {schedule next : DurableSchedule} {now_ms : Int64} {job : DurableJob} (stored : schedule.Stored)
      (found : s[schedule_key schedule.id]? = some schedule.spelling) (enabled : schedule.enabled = true)
      (due : schedule.next_run_ms ≤ now_ms) (advanced : schedule.advanced now_ms = .ok next) (written : Rewrites next s t)
      (fits : job.Fits) (available : job.available_at_ms = schedule.next_run_ms)
      (jobs : ∀ id, t[job_key id]? = if job.id = id then some job.spelling else s[job_key id]?) :
      Happens (.Fired ⟨schedule.id,schedule.next_run_ms,job.id,now_ms⟩) s t

/-- One transaction after another. -/
inductive Leads : State → List ScheduleFact → State → Prop
  | nil {s : State} : Leads s [] s
  | cons {s u t : State} {fact : ScheduleFact} {facts : List ScheduleFact} (first : Happens fact s u) (rest : Leads u facts t) :
      Leads s (fact :: facts) t

/-- Other records are as before. -/
theorem Happens.elsewhere {fact : Firing} {s t : State} (happens : Happens (.Fired fact) s t) {id : ScheduleId}
    (other : fact.schedule ≠ id) : t[schedule_key id]? = s[schedule_key id]? := by
  cases happens with
  | fired stored found enabled due advanced written fits available jobs =>
    rw [written _ (schedule_key_own id),if_neg]
    intro same
    have key := schedule_key_injective same
    rw [(advanced_stored stored advanced).2.1] at key
    exact other key

section
variable [Hashes]

/-- A round of the loop that fires. -/
def fire_schedule (io : Io) (entropy : Option (ByteArr 16)) (now_ms : Int64) (schedule : DurableSchedule) :
    EStateM JobError Store JobId := do
  let job ← lift (build_job schedule.occurrence entropy)
  let next ← lift (schedule.advanced now_ms)
  within .Store io (fire_schedule_tx io job now_ms next)
  return job.id

theorem tick_each_due {io : Io} {entropy : Nat → Option (ByteArr 16)} {now_ms : Int64} {limit fired : Nat} {schedule : DurableSchedule}
    {entry : Bytes × Bytes} {entries : List (Bytes × Bytes)} (decoded : decode_schedule entry.2 = .ok schedule) (more : fired ≠ limit)
    (due : ¬ (!schedule.enabled ∨ schedule.next_run_ms > now_ms)) :
    tick_each io entropy now_ms limit fired (entry :: entries) = (do
      let _ ← fire_schedule io (entropy fired) now_ms schedule
      tick_each io entropy now_ms limit (fired + 1) entries) := by
  rw [tick_each,if_neg more,decoded]
  unfold fire_schedule
  simp only [bind_assoc,pure_bind]
  show (if !schedule.enabled ∨ schedule.next_run_ms > now_ms then _ else _) = _
  rw [if_neg due]

theorem tick_each_passes {io : Io} {entropy : Nat → Option (ByteArr 16)} {now_ms : Int64} {limit fired : Nat} {schedule : DurableSchedule}
    {entry : Bytes × Bytes} {entries : List (Bytes × Bytes)} (decoded : decode_schedule entry.2 = .ok schedule) (more : fired ≠ limit)
    (passed : !schedule.enabled ∨ schedule.next_run_ms > now_ms) :
    tick_each io entropy now_ms limit fired (entry :: entries) = tick_each io entropy now_ms limit fired entries := by
  rw [tick_each,if_neg more,decoded]
  show (if !schedule.enabled ∨ schedule.next_run_ms > now_ms then _ else _) = _
  rw [if_pos passed]

/-- What the loop fires, in its order. -/
def firings (io : Io) (entropy : Nat → Option (ByteArr 16)) (now_ms : Int64) (limit : Nat) :
    Nat → List (Bytes × Bytes) → Store → List Firing
  | _, [], _ => []
  | fired, (_,encoded) :: entries, store =>
    if fired = limit then [] else
    match decode_schedule encoded with
    | .error _ => []
    | .ok schedule =>
      if !schedule.enabled ∨ schedule.next_run_ms > now_ms then firings io entropy now_ms limit fired entries store
      else match fire_schedule io (entropy fired) now_ms schedule store with
        | .error _ _ => []
        | .ok job t => ⟨schedule.id,schedule.next_run_ms,job,now_ms⟩ :: firings io entropy now_ms limit (fired + 1) entries t

theorem firings_cons {io : Io} {entropy : Nat → Option (ByteArr 16)} {now_ms : Int64} {limit fired : Nat} {schedule : DurableSchedule}
    {entry : Bytes × Bytes} {entries : List (Bytes × Bytes)} {store : Store} (decoded : decode_schedule entry.2 = .ok schedule) :
    firings io entropy now_ms limit fired (entry :: entries) store =
      if fired = limit then [] else
      if !schedule.enabled ∨ schedule.next_run_ms > now_ms then firings io entropy now_ms limit fired entries store
      else match fire_schedule io (entropy fired) now_ms schedule store with
        | .error _ _ => []
        | .ok job t => ⟨schedule.id,schedule.next_run_ms,job,now_ms⟩ :: firings io entropy now_ms limit (fired + 1) entries t := by
  obtain ⟨key,encoded⟩ := entry
  rw [firings,show decode_schedule encoded = .ok schedule from decoded]

theorem fire_schedule_stages {io : Io} (writes : io.WritesWhole) (job : DurableJob) (now_ms : Int64) (schedule : DurableSchedule) :
    Stages (fire_schedule_tx io job now_ms schedule) :=
  (write_job_stages writes _ _).bind (fun _ => (stages_of_reads (reads_lift _)).bind (fun _ => (put_stages writes _ _).rethrow))

theorem fire_schedule_once {io : Io} (durable : io.Durable) (entropy : Option (ByteArr 16)) (now_ms : Int64) (schedule : DurableSchedule) :
    AllOrNothing (fire_schedule io entropy now_ms schedule) := by
  refine .checked (reads_lift _) (fun job => .checked (reads_lift _) (fun next => ?_))
  exact (within_all_or_nothing durable (fire_schedule_stages durable.1 _ _ _)).returning (fun _ => job.id)

theorem fire_schedule_tx_ok {io : Io} {job : DurableJob} {now_ms : Int64} {schedule : DurableSchedule} {tx u : Transaction} {x : Unit}
    (stored : schedule.Stored) (done : fire_schedule_tx io job now_ms schedule tx = .ok x u) : job.Fits ∧
      u.view = ((tx.view.insert (job_key job.id) job.spelling).insert (history_key job.id 0)
        (JobHistoryEntry.mk 0 now_ms .Submitted (ascii "scheduled")).spelling).insert (schedule_key schedule.id) schedule.spelling := by
  obtain ⟨_,middle,wrote,done⟩ := bind_ok.mp done
  obtain ⟨encoded,made,done⟩ := lift_bind_ok.mp done
  rw [encode_stored_schedule stored] at made
  cases made
  obtain ⟨fits,-,view⟩ := write_job_ok wrote
  exact ⟨fits,by rw [(put_internal_ok (rethrow_ok.mp done)).1,view]⟩

/-- What is fired happens in one transaction. -/
theorem fire_schedule_ok {io : Io} {entropy : Option (ByteArr 16)} {now_ms : Int64} {schedule : DurableSchedule} {store t : Store}
    {job : JobId} (stored : schedule.Stored) (found : store.state[schedule_key schedule.id]? = some schedule.spelling)
    (due : ¬ (!schedule.enabled ∨ schedule.next_run_ms > now_ms)) (done : fire_schedule io entropy now_ms schedule store = .ok job t) :
    Happens (.Fired ⟨schedule.id,schedule.next_run_ms,job,now_ms⟩) store.state t.state := by
  obtain ⟨built,made,done⟩ := lift_bind_ok.mp done
  obtain ⟨next,advanced,done⟩ := lift_bind_ok.mp done
  obtain ⟨_,middle,wrote,done⟩ := bind_ok.mp done
  cases done
  obtain ⟨tx,u,begun,staged,same⟩ := within_ok wrote
  obtain ⟨next_stored,own,-⟩ := advanced_stored stored advanced
  obtain ⟨fits,view⟩ := fire_schedule_tx_ok next_stored staged
  rw [(begin_view begun).1] at view
  obtain ⟨_,_,made⟩ := bind_ok_iff.mp made
  obtain ⟨drawn,_,made⟩ := bind_ok_iff.mp made
  cases made
  have enabled : schedule.enabled = true := by
    by_contra off
    exact due (.inl (by simpa using off))
  have in_time : schedule.next_run_ms ≤ now_ms := by
    by_contra late
    exact due (.inr (Int64.not_le.mp late))
  refine .fired stored found enabled in_time advanced ?_ fits rfl ?_
  · intro key own_key
    have apart := schedule_not_job own_key
    rw [same key (schedule_outside_feed own_key),view,get_insert]
    split
    · rfl
    · rw [get_insert,if_neg (by rintro rfl; exact apart (history_key_space _ _)),get_insert,
        if_neg (by rintro rfl; exact apart (job_key_space _))]
  · intro id
    have own_key := job_key_own id
    rw [same _ (job_outside_feed own_key),view,get_insert,
      if_neg (fun here => schedule_not_job (schedule_key_own next.id) (by rw [here]; exact job_key_space id)),get_insert,
      if_neg (history_not_job own_key _ _),get_insert]
    by_cases here : drawn = id
    · subst here
      rw [if_pos rfl,if_pos rfl]
    · rw [if_neg (fun keys => here (job_key_injective keys)),if_neg here]

theorem tick_each_appending {io : Io} (durable : io.Durable) (entropy : Nat → Option (ByteArr 16)) (now_ms : Int64) (limit fired : Nat)
    (entries : List (Bytes × Bytes)) : Appending (tick_each io entropy now_ms limit fired entries) := by
  induction entries generalizing fired with
  | nil => exact appending_of_reads (reads_pure _)
  | cons entry entries ih =>
    by_cases full : fired = limit
    · rw [tick_each,if_pos full]
      exact appending_of_reads (reads_pure _)
    · cases decoded : decode_schedule entry.2 with
      | error e =>
        rw [tick_each,if_neg full,decoded]
        exact appending_of_reads (reads_throw e)
      | ok schedule =>
        by_cases passed : !schedule.enabled ∨ schedule.next_run_ms > now_ms
        · rw [tick_each_passes decoded full passed]
          exact ih fired
        · rw [tick_each_due decoded full passed]
          exact (fire_schedule_once durable _ _ _).appending.bind (fun _ => ih _)

theorem reads_lead {α : Type} {x : EStateM JobError Store α} (reads : Effects.Reads x) {store : Store} (sound : store.Sound) :
    Leads store.state [] (after x store).state ∧
      ∀ state, Interrupted x store state → ∃ j, Leads store.state ((([] : List Firing).take j).map .Fired) state := by
  refine ⟨by rw [reads store]; exact .nil,?_⟩
  intro state interrupted
  rw [interrupted_reads reads sound interrupted]
  exact ⟨0,.nil⟩

/-- Whether the loop of a tick ends, fails or is interrupted: what it has fired is a
    first part of the list, each in a transaction of its own. -/
theorem tick_each_leads {io : Io} (durable : io.Durable) {entropy : Nat → Option (ByteArr 16)} {now_ms : Int64} {limit fired : Nat}
    {schedules : List DurableSchedule} {store : Store} (sound : store.Sound) (whole : fragment store.file = [])
    (distinct : (schedules.map DurableSchedule.id).Nodup)
    (listed : ∀ schedule ∈ schedules, schedule.Stored ∧ store.state[schedule_key schedule.id]? = some schedule.spelling) :
    Leads store.state ((firings io entropy now_ms limit fired (schedules.map scheduleEntry) store).map .Fired)
        (after (tick_each io entropy now_ms limit fired (schedules.map scheduleEntry)) store).state ∧
      ∀ state, Interrupted (tick_each io entropy now_ms limit fired (schedules.map scheduleEntry)) store state →
        ∃ j, Leads store.state (((firings io entropy now_ms limit fired (schedules.map scheduleEntry) store).take j).map .Fired) state := by
  induction schedules generalizing fired store with
  | nil => exact reads_lead (reads_pure _) sound
  | cons schedule schedules ih =>
    rw [List.map_cons,List.nodup_cons] at distinct
    obtain ⟨stored,found⟩ := listed schedule (by simp)
    have decoded : decode_schedule (scheduleEntry schedule).2 = .ok schedule := decode_schedule_spelling stored
    rw [List.map_cons,firings_cons decoded]
    by_cases full : fired = limit
    · rw [if_pos full,tick_each,if_pos full]
      exact reads_lead (reads_pure _) sound
    · rw [if_neg full]
      by_cases passed : !schedule.enabled ∨ schedule.next_run_ms > now_ms
      · rw [tick_each_passes decoded full passed,if_pos passed]
        exact ih sound whole distinct.2 (fun other member => listed other (by simp [member]))
      · rw [tick_each_due decoded full passed,if_neg passed]
        have once := fire_schedule_once durable (entropy fired) now_ms schedule
        have rest := fun _ : JobId => tick_each_appending durable entropy now_ms limit (fired + 1) (schedules.map scheduleEntry)
        cases result : fire_schedule io (entropy fired) now_ms schedule store with
        | error e t =>
          refine ⟨?_,?_⟩
          · rw [after,bind_of_error result,once.keeps _ _ _ result]
            exact .nil
          · intro state interrupted
            rcases interrupted_bind rest once.appending sound whole interrupted with early | ⟨job,u,done,-⟩
            · rcases once.interrupted _ _ sound whole early with rfl | ⟨job,u,done,-⟩
              · exact ⟨0,.nil⟩
              · rw [result] at done
                cases done
            · rw [result] at done
              cases done
        | ok job t =>
          have happens := fire_schedule_ok stored found passed result
          have reached := once.appending.steady store sound whole
          rw [after,result] at reached
          -- The later schedules are not touched by this round.
          have later : ∀ other ∈ schedules, other.Stored ∧ t.state[schedule_key other.id]? = some other.spelling := by
            intro other member
            obtain ⟨fits,there⟩ := listed other (by simp [member])
            refine ⟨fits,?_⟩
            rw [happens.elsewhere ?_]
            · exact there
            · intro same
              exact distinct.1 (List.mem_map.mpr ⟨other,member,same.symm⟩)
          obtain ⟨leads,cut_short⟩ := @ih (fired + 1) t reached.1 reached.2 distinct.2 later
          refine ⟨?_,?_⟩
          · rw [after,bind_of_ok result]
            exact .cons happens leads
          · intro state interrupted
            rcases interrupted_bind rest once.appending sound whole interrupted with early | ⟨same_job,u,done,second⟩
            · rcases once.interrupted _ _ sound whole early with rfl | ⟨same_job,u,done,rfl⟩
              · exact ⟨0,.nil⟩
              · rw [result] at done
                cases done
                exact ⟨1,.cons happens .nil⟩
            · rw [result] at done
              cases done
              obtain ⟨j,led⟩ := cut_short state second
              exact ⟨j + 1,.cons happens led⟩

theorem fire_schedule_draws {io : Io} {entropy : Option (ByteArr 16)} {now_ms : Int64} {schedule : DurableSchedule} {store t : Store}
    {job : JobId} (done : fire_schedule io entropy now_ms schedule store = .ok job t) : entropy = some job := by
  obtain ⟨built,made,done⟩ := lift_bind_ok.mp done
  obtain ⟨next,advanced,done⟩ := lift_bind_ok.mp done
  obtain ⟨_,middle,wrote,done⟩ := bind_ok.mp done
  cases done
  obtain ⟨_,_,made⟩ := bind_ok_iff.mp made
  obtain ⟨drawn,draws,made⟩ := bind_ok_iff.mp made
  cases made
  exact ok_or_ok.mp draws

/-- What is fired has the ids that are drawn, in their order. -/
theorem firings_jobs (io : Io) (entropy : Nat → Option (ByteArr 16)) (now_ms : Int64) (limit fired : Nat)
    (entries : List (Bytes × Bytes)) (store : Store) :
    (firings io entropy now_ms limit fired entries store).map (fun f => some f.job) =
      (List.range' fired (firings io entropy now_ms limit fired entries store).length).map entropy := by
  induction entries generalizing fired store with
  | nil => rfl
  | cons entry entries ih =>
    obtain ⟨key,encoded⟩ := entry
    rw [firings]
    split
    · rfl
    · split
      · rfl
      · split
        · exact ih fired store
        · split
          · rfl
          · rename_i job t fires
            rw [List.map_cons,ih,List.length_cons,List.range'_succ,List.map_cons,fire_schedule_draws fires]

/-- What is fired was enabled and due, and no schedule is fired twice. -/
theorem firings_from {io : Io} {entropy : Nat → Option (ByteArr 16)} {now_ms : Int64} {limit fired : Nat}
    {schedules : List DurableSchedule} {store : Store} (stored : ∀ schedule ∈ schedules, schedule.Stored) :
    ((firings io entropy now_ms limit fired (schedules.map scheduleEntry) store).map Firing.schedule).Sublist
        (schedules.map DurableSchedule.id) ∧
      ∀ f ∈ firings io entropy now_ms limit fired (schedules.map scheduleEntry) store, ∃ schedule ∈ schedules,
        schedule.id = f.schedule ∧ schedule.next_run_ms = f.at_ms ∧ schedule.enabled = true ∧ schedule.next_run_ms ≤ now_ms := by
  induction schedules generalizing fired store with
  | nil => exact ⟨List.Sublist.slnil,by simp [firings]⟩
  | cons schedule schedules ih =>
    have fits := fun other member => stored other (List.mem_cons_of_mem schedule member)
    have decoded : decode_schedule (scheduleEntry schedule).2 = .ok schedule := decode_schedule_spelling (stored schedule (by simp))
    rw [List.map_cons,List.map_cons,firings_cons decoded]
    split
    · exact ⟨List.nil_sublist _,by simp⟩
    · split
      · obtain ⟨inside,sources⟩ := @ih fired store fits
        refine ⟨inside.cons _,?_⟩
        intro f member
        obtain ⟨source,listed,same⟩ := sources f member
        exact ⟨source,List.mem_cons_of_mem _ listed,same⟩
      · rename_i due
        split
        · exact ⟨List.nil_sublist _,by simp⟩
        · rename_i job t fires
          obtain ⟨inside,sources⟩ := @ih (fired + 1) t fits
          refine ⟨inside.cons_cons _,?_⟩
          intro f member
          rcases List.mem_cons.mp member with rfl | later
          · refine ⟨schedule,by simp,rfl,rfl,?_,?_⟩
            · by_contra off
              exact due (.inl (by simpa using off))
            · by_contra late
              exact due (.inr (Int64.not_le.mp late))
          · obtain ⟨source,listed,same⟩ := sources f later
            exact ⟨source,List.mem_cons_of_mem _ listed,same⟩

/-- A tick that succeeds has counted what it fired, and unless it was full it has fired all that is due.
    It is not full before its end if its limit allows for all schedules. -/
theorem tick_each_complete {io : Io} {entropy : Nat → Option (ByteArr 16)} {now_ms : Int64} {limit fired n : Nat}
    {schedules : List DurableSchedule} {store t : Store} (stored : ∀ schedule ∈ schedules, schedule.Stored)
    (done : tick_each io entropy now_ms limit fired (schedules.map scheduleEntry) store = .ok n t) :
    n = fired + (firings io entropy now_ms limit fired (schedules.map scheduleEntry) store).length ∧
      (n ≠ limit ∨ fired + schedules.length ≤ limit → ∀ schedule ∈ schedules, schedule.enabled = true → schedule.next_run_ms ≤ now_ms →
        ∃ job, ⟨schedule.id,schedule.next_run_ms,job,now_ms⟩ ∈ firings io entropy now_ms limit fired (schedules.map scheduleEntry) store) := by
  induction schedules generalizing fired store with
  | nil =>
    cases done
    exact ⟨rfl,by simp⟩
  | cons schedule schedules ih =>
    have fits := fun other member => stored other (List.mem_cons_of_mem schedule member)
    have decoded : decode_schedule (scheduleEntry schedule).2 = .ok schedule := decode_schedule_spelling (stored schedule (by simp))
    rw [List.map_cons] at done ⊢
    rw [firings_cons decoded]
    by_cases full : fired = limit
    · rw [tick_each,if_pos full] at done
      cases done
      rw [if_pos full]
      refine ⟨rfl,?_⟩
      rintro (more | more)
      · exact absurd full more
      · rw [List.length_cons] at more
        omega
    · rw [if_neg full]
      by_cases passed : !schedule.enabled ∨ schedule.next_run_ms > now_ms
      · rw [tick_each_passes decoded full passed] at done
        rw [if_pos passed]
        obtain ⟨counted,all⟩ := ih fits done
        refine ⟨counted,?_⟩
        intro more other member enabled due
        rw [List.length_cons] at more
        replace more : n ≠ limit ∨ fired + schedules.length ≤ limit := more.imp_right (by omega)
        rcases List.mem_cons.mp member with rfl | later
        · rcases passed with off | late
          · simp [enabled] at off
          · exact absurd due (Int64.not_le.mpr late)
        · exact all more other later enabled due
      · rw [tick_each_due decoded full passed] at done
        obtain ⟨job,u,fires,done⟩ := bind_ok.mp done
        rw [if_neg passed,fires]
        obtain ⟨counted,all⟩ := ih fits done
        refine ⟨by rw [counted,List.length_cons]; omega,?_⟩
        intro more other member enabled due
        rw [List.length_cons] at more
        replace more : n ≠ limit ∨ fired + 1 + schedules.length ≤ limit := more.imp_right (by omega)
        rcases List.mem_cons.mp member with rfl | later
        · exact ⟨job,by simp⟩
        · obtain ⟨later_job,inside⟩ := all more other later enabled due
          exact ⟨later_job,List.mem_cons_of_mem _ inside⟩

end

end VoodooStore
