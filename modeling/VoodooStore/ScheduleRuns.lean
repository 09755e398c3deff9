import VoodooStore.Room
import VoodooStore.ScheduleTicks

/-!
# Schedules in runs with crashes

Ticks, switches, crashes and reopenings follow each other in any order. The jobs
of an interval schedule are for points of its grid, each later than the one
before, and its cursor is at the first point behind the tick that fired last
(`OnGrid`). The job of a point is there exactly if the cursor is past it. The crashes
lose nothing that was confirmed; a tick that was not comes back beside the next one
(`unconfirmed_tick_makes_second_job`).
-/
namespace VoodooStore
open Effects
set_option linter.unusedSimpArgs false

/-! ## What is told of a schedule -/

def ScheduleFact.schedule : ScheduleFact → ScheduleId
  | .Created id _ _ => id
  | .Switched id _ => id
  | .Fired firing => firing.schedule

def ScheduleFact.firing? : ScheduleFact → Option Firing
  | .Fired firing => some firing
  | _ => none

/-- The map shows that the transaction was done. -/
def ScheduleFact.shows (state : State) : ScheduleFact → Bool
  | .Created id _ _ => state[schedule_key id]?.isSome
  | .Switched id enabled => state[schedule_key id]?.any (fun value => match decode_schedule value with
    | .ok schedule => schedule.enabled = enabled
    | .error _ => false)
  | .Fired firing => state[job_key firing.job]?.isSome

/-- The runs of an interval schedule, and its cursor. -/
structure OnGrid (first every : Int) (firings : List Firing) (next : Int) : Prop where
  grid : ∃ (ks : List Nat) (n : Nat), (ks ++ [n]).Pairwise (· < ·) ∧
    firings.map (fun f => f.at_ms.toInt) = ks.map (fun k : Nat => first + k * every) ∧ next = first + n * every
  due : ∀ f ∈ firings, f.at_ms ≤ f.now_ms
  cursor : match firings.getLast? with
    | none => next = first
    | some f => FirstBehind first every f.now_ms.toInt next

theorem on_grid_created (first every : Int) : OnGrid first every [] first :=
  ⟨⟨[],0,by simp,rfl,by simp⟩,by simp,rfl⟩

/-- A point behind the time of the grid from the cursor on is one of the grid from its start. -/
theorem FirstBehind.from_start {first every time next : Int} {n : Nat} (positive : 0 < every) (due : first + n * every ≤ time)
    (behind : FirstBehind (first + n * every) every time next) :
    FirstBehind first every time next ∧ ∃ m : Nat, n < m ∧ next = first + m * every := by
  obtain ⟨k,rfl,later,least⟩ := behind
  have moved : 0 < k := by
    rcases Nat.eq_zero_or_pos k with rfl | some
    · push_cast at later
      omega
    · exact some
  have total : first + n * every + k * every = first + (n + k : Nat) * every := by
    push_cast
    ring
  refine ⟨⟨n + k,total,later,?_⟩,n + k,by omega,total⟩
  intro j beyond
  -- The point is behind the cursor, since that one was due.
  have behind_cursor : n < j := by
    by_contra before
    have : (j : Int) * every ≤ n * every := by
      apply mul_le_mul_of_nonneg_right _ (by omega)
      omega
    omega
  have steps := least (j - n) (by
    rw [Nat.cast_sub (by omega),sub_mul]
    linarith)
  omega

theorem OnGrid.fire {first every : Int} {firings : List Firing} {f : Firing} {next : Int} (positive : 0 < every)
    (grid : OnGrid first every firings f.at_ms.toInt) (due : f.at_ms ≤ f.now_ms)
    (behind : FirstBehind f.at_ms.toInt every f.now_ms.toInt next) : OnGrid first every (firings ++ [f]) next := by
  obtain ⟨ks,n,rises,points,at_cursor⟩ := grid.grid
  rw [at_cursor] at behind
  obtain ⟨cursor,m,further,place⟩ := behind.from_start positive (by rw [← at_cursor]; exact Int64.le_iff_toInt_le.mp due)
  refine ⟨⟨ks ++ [n],m,?_,?_,place⟩,?_,?_⟩
  · rw [List.pairwise_append]
    refine ⟨rises,by simp,?_⟩
    intro k member last is
    rw [List.mem_singleton.mp is]
    rcases List.mem_append.mp member with before | same
    · exact ((List.pairwise_append.mp rises).2.2 k before n (by simp)).trans further
    · rw [List.mem_singleton.mp same]
      exact further
  · rw [List.map_append,points,List.map_append,List.map_singleton,List.map_singleton,at_cursor]
  · intro other member
    rcases List.mem_append.mp member with before | same
    · exact grid.due other before
    · rw [List.mem_singleton.mp same]
      exact due
  · rw [List.getLast?_append]
    exact cursor

/-- The cursor is past every point that was fired. -/
theorem OnGrid.past {first every : Int} {firings : List Firing} {next : Int} (positive : 0 < every) (grid : OnGrid first every firings next)
    {f : Firing} (member : f ∈ firings) : f.at_ms.toInt < next := by
  obtain ⟨ks,n,rises,points,place⟩ := grid.grid
  have inside : f.at_ms.toInt ∈ ks.map (fun k : Nat => first + k * every) := by
    rw [← points]
    exact List.mem_map_of_mem member
  obtain ⟨k,before,value⟩ := List.mem_map.mp inside
  have less : k < n := (List.pairwise_append.mp rises).2.2 k before n (by simp)
  rw [← value,place]
  have : (k : Int) * every < n * every := by
    apply mul_lt_mul_of_pos_right _ positive
    omega
  omega

/-- No schedule is switched on again after it has fired. -/
def NotRearmed (facts : List ScheduleFact) : Prop :=
  facts.Pairwise (fun a b => a.firing?.isSome → ∀ id, b ≠ .Switched id true)

/-- The runs of a schedule that runs once. -/
structure OnlyOnce (first : Int64) (facts : List ScheduleFact) (schedule : DurableSchedule) : Prop where
  next : schedule.next_run_ms = first
  due : ∀ f ∈ facts.filterMap ScheduleFact.firing?, f.at_ms = first ∧ first ≤ f.now_ms
  once : NotRearmed facts → (facts.filterMap ScheduleFact.firing?).length ≤ 1 ∧
    (facts.filterMap ScheduleFact.firing? ≠ [] → schedule.enabled = false)

theorem only_once_created {schedule : DurableSchedule} : OnlyOnce schedule.next_run_ms [] schedule :=
  ⟨rfl,by simp,by simp⟩

theorem OnlyOnce.switch {first : Int64} {facts : List ScheduleFact} {schedule : DurableSchedule} (once : OnlyOnce first facts schedule)
    (id : ScheduleId) (enabled : Bool) : OnlyOnce first (facts ++ [.Switched id enabled]) { schedule with enabled } := by
  have silent : (facts ++ [ScheduleFact.Switched id enabled]).filterMap ScheduleFact.firing? = facts.filterMap ScheduleFact.firing? := by
    simp [ScheduleFact.firing?]
  refine ⟨once.next,by rw [silent]; exact once.due,?_⟩
  intro not_rearmed
  rw [silent]
  obtain ⟨before,-,apart⟩ := List.pairwise_append.mp not_rearmed
  obtain ⟨few,off⟩ := once.once before
  refine ⟨few,?_⟩
  intro fired
  obtain ⟨f,member⟩ := List.exists_mem_of_ne_nil _ fired
  obtain ⟨fact,inside,shown⟩ := List.mem_filterMap.mp member
  have switched_off := apart fact inside (.Switched id enabled) (by simp) (by rw [shown]; rfl) id
  cases enabled with
  | false => rfl
  | true => exact absurd rfl switched_off

theorem OnlyOnce.fire {f : Firing} {facts : List ScheduleFact} {schedule : DurableSchedule} (once : OnlyOnce f.at_ms facts schedule)
    (enabled : schedule.enabled = true) (due : f.at_ms ≤ f.now_ms) :
    OnlyOnce f.at_ms (facts ++ [.Fired f]) { schedule with enabled := false } := by
  have more : (facts ++ [ScheduleFact.Fired f]).filterMap ScheduleFact.firing? = facts.filterMap ScheduleFact.firing? ++ [f] := by
    simp [ScheduleFact.firing?]
  refine ⟨once.next,?_,?_⟩
  · rw [more]
    intro other member
    rcases List.mem_append.mp member with before | same
    · exact once.due other before
    · rw [List.mem_singleton.mp same]
      exact ⟨rfl,due⟩
  · intro not_rearmed
    refine ⟨?_,fun _ => rfl⟩
    obtain ⟨-,off⟩ := once.once (List.pairwise_append.mp not_rearmed).1
    have first : facts.filterMap ScheduleFact.firing? = [] := by
      by_contra fired
      rw [enabled] at off
      cases off fired
    rw [more,first]
    exact Nat.le_refl 1

/-- What the record of a schedule says about its runs since it was created. -/
def Follow (mode : ScheduleMode) (first_run_ms : Int64) (facts : List ScheduleFact) (schedule : DurableSchedule) : Prop :=
  match mode with
  | .Once => OnlyOnce first_run_ms facts schedule
  | .Interval every_ms => OnGrid first_run_ms.toInt every_ms.toNat (facts.filterMap ScheduleFact.firing?) schedule.next_run_ms.toInt

/-- A schedule that was created has its record, which follows what is told of it. -/
inductive ScheduleTold (id : ScheduleId) (facts : List ScheduleFact) (state : State) : Prop
  | absent (missing : state[schedule_key id]? = none) (silent : facts.filter (·.schedule = id) = [])
  | present {schedule : DurableSchedule} {first_run_ms : Int64} {later : List ScheduleFact}
      (told : facts.filter (·.schedule = id) = .Created id schedule.mode first_run_ms :: later) (stored : schedule.Stored)
      (own : schedule.id = id) (found : state[schedule_key id]? = some schedule.spelling)
      (once : ∀ mode time, ScheduleFact.Created id mode time ∉ later) (follow : Follow schedule.mode first_run_ms later schedule)

theorem ScheduleTold.congr {id : ScheduleId} {facts : List ScheduleFact} {s t : State} (told : ScheduleTold id facts s)
    (same : t[schedule_key id]? = s[schedule_key id]?) : ScheduleTold id facts t := by
  cases told with
  | absent missing silent => exact .absent (same.trans missing) silent
  | present told stored own found once follow => exact .present told stored own (same.trans found) once follow

/-- A fact about another schedule. -/
theorem ScheduleTold.other {id : ScheduleId} {facts : List ScheduleFact} {s t : State} {fact : ScheduleFact} (told : ScheduleTold id facts s)
    (other : fact.schedule ≠ id) (same : t[schedule_key id]? = s[schedule_key id]?) : ScheduleTold id (facts ++ [fact]) t := by
  have silent : (facts ++ [fact]).filter (·.schedule = id) = facts.filter (·.schedule = id) := by simp [other]
  cases told with
  | absent missing quiet => exact .absent (same.trans missing) (silent.trans quiet)
  | present told stored own found once follow => exact .present (silent.trans told) stored own (same.trans found) once follow

/-- A fact about a schedule that has a record. -/
theorem ScheduleTold.next {facts : List ScheduleFact} {s t : State} {fact : ScheduleFact} {schedule next : DurableSchedule}
    (told : ScheduleTold schedule.id facts s) (stored : schedule.Stored) (found : s[schedule_key schedule.id]? = some schedule.spelling)
    (about : fact.schedule = schedule.id) (known_already : ∀ mode time, fact ≠ .Created schedule.id mode time) 
    (next_stored : next.Stored) (own : next.id = schedule.id) (mode : next.mode = schedule.mode)
    (written : t[schedule_key schedule.id]? = some next.spelling)
    (follow : ∀ first_run_ms later, Follow schedule.mode first_run_ms later schedule →
      Follow schedule.mode first_run_ms (later ++ [fact]) next) : ScheduleTold schedule.id (facts ++ [fact]) t := by
  cases told with
  | absent missing silent =>
    rw [missing] at found
    cases found
  | @present known first_run_ms later told known_stored known_own known_found once known_follow =>
    -- There is one record only, and it is read back as it was written.
    rw [found] at known_found
    have same : schedule = known := by
      have read := decode_schedule_spelling stored
      rw [Option.some.inj known_found,decode_schedule_spelling known_stored] at read
      exact (Except.ok.inj read).symm
    subst same
    refine .present ?_ next_stored own written ?_ (by rw [mode]; exact follow _ _ known_follow)
    · rw [List.filter_append,told,mode]
      simp [about]
    · intro mode time member
      rcases List.mem_append.mp member with before | new
      · exact once mode time before
      · exact known_already mode time (List.mem_singleton.mp new).symm

theorem interval_positive {schedule : DurableSchedule} {every_ms : UInt64} (stored : schedule.Stored)
    (mode : schedule.mode = .Interval every_ms) : (0 : Int) < every_ms.toNat := by
  have nonzero : every_ms.toNat ≠ 0 := by
    intro zero
    rw [UInt64.toNat_inj.mp (zero.trans rfl : every_ms.toNat = (0 : UInt64).toNat)] at mode
    exact stored.mode mode
  omega

theorem Follow.fire {schedule next : DurableSchedule} {now_ms : Int64} (job : JobId) (stored : schedule.Stored)
    (enabled : schedule.enabled = true) (due : schedule.next_run_ms ≤ now_ms) (advanced : schedule.advanced now_ms = .ok next)
    {first_run_ms : Int64} {later : List ScheduleFact} (follow : Follow schedule.mode first_run_ms later schedule) :
    Follow schedule.mode first_run_ms (later ++ [.Fired ⟨schedule.id,schedule.next_run_ms,job,now_ms⟩]) next := by
  rcases advanced_ok stored.mode advanced with ⟨mode,rfl⟩ | ⟨every_ms,mode,-,behind⟩
  · have once : OnlyOnce first_run_ms later schedule := by
      rw [mode] at follow
      exact follow
    have at_first := once.next
    subst at_first
    have fired := @OnlyOnce.fire ⟨schedule.id,schedule.next_run_ms,job,now_ms⟩ _ _ once enabled due
    rw [mode] at fired ⊢
    exact fired
  · rw [mode] at follow ⊢
    unfold Follow at follow ⊢
    dsimp only at follow ⊢
    rw [List.filterMap_append]
    exact @OnGrid.fire _ _ _ ⟨schedule.id,schedule.next_run_ms,job,now_ms⟩ _ (interval_positive stored mode) follow due behind

theorem Follow.switch {schedule : DurableSchedule} {enabled : Bool} {first_run_ms : Int64} {later : List ScheduleFact}
    (follow : Follow schedule.mode first_run_ms later schedule) :
    Follow schedule.mode first_run_ms (later ++ [.Switched schedule.id enabled]) { schedule with enabled } := by
  unfold Follow at follow ⊢
  split
  · rename_i mode
    rw [mode] at follow
    exact OnlyOnce.switch follow schedule.id enabled
  · rename_i every_ms mode
    rw [mode] at follow
    rw [List.filterMap_append,show [ScheduleFact.Switched schedule.id enabled].filterMap ScheduleFact.firing? = [] from rfl,List.append_nil]
    exact follow

theorem follow_created (schedule : DurableSchedule) : Follow schedule.mode schedule.next_run_ms [] schedule := by
  unfold Follow
  split
  · exact only_once_created
  · exact on_grid_created _ _

theorem Rewrites.own {schedule : DurableSchedule} {s t : State} (written : Rewrites schedule s t) :
    t[schedule_key schedule.id]? = some schedule.spelling := by
  rw [written _ (schedule_key_own _),if_pos rfl]

theorem Rewrites.other {schedule : DurableSchedule} {s t : State} (written : Rewrites schedule s t) {id : ScheduleId}
    (other : schedule.id ≠ id) : t[schedule_key id]? = s[schedule_key id]? := by
  rw [written _ (schedule_key_own id),if_neg (fun same => other (schedule_key_injective same))]

theorem ScheduleBook.write {s t : State} {schedule : DurableSchedule} (book : ScheduleBook s) (stored : schedule.Stored)
    (written : Rewrites schedule s t) : ScheduleBook t := by
  refine (book.insert stored).congr ?_
  intro key own
  rw [written key own,get_insert]
  rfl

/-- What has happened is shown. -/
theorem Happens.shows {fact : ScheduleFact} {s t : State} (happens : Happens fact s t) : fact.shows t = true := by
  cases happens with
  | created _ _ _ _ written _ =>
    rw [ScheduleFact.shows,written.own]
    rfl
  | @switched _ _ schedule enabled stored _ written _ =>
    have next_stored : DurableSchedule.Stored { schedule with enabled } := ⟨stored.job,stored.short,stored.mode⟩
    rw [ScheduleFact.shows,written.own,Option.any_some,decode_schedule_spelling next_stored]
    exact decide_eq_true rfl
  | fired _ _ _ _ _ _ _ _ jobs =>
    rw [ScheduleFact.shows,jobs,if_pos rfl]
    rfl

theorem Leads.single_shows {fact : ScheduleFact} {s t : State} (leads : Leads s [fact] t) : fact.shows t = true := by
  cases leads with
  | cons first rest =>
    cases rest
    exact first.shows

/-- All schedules of the map were accepted. -/
def AllAccepted (state : State) : Prop := ∀ schedule : DurableSchedule, schedule.Stored →
  state[schedule_key schedule.id]? = some schedule.spelling → schedule.Accepted

theorem AllAccepted.write {s t : State} {schedule : DurableSchedule} (all : AllAccepted s) (stored : schedule.Stored)
    (accepted : schedule.Accepted) (written : Rewrites schedule s t) : AllAccepted t := by
  intro other fits found
  by_cases here : schedule.id = other.id
  · rw [← here,written.own] at found
    have read := decode_schedule_spelling fits
    rw [← Option.some.inj found,decode_schedule_spelling stored] at read
    cases read
    exact accepted
  · rw [written.other here] at found
    exact all other fits found

/-- What holds between the transactions. -/
structure ScheduleKept (facts : List ScheduleFact) (state : State) : Prop where
  book : ScheduleBook state
  told : ∀ id, ScheduleTold id facts state
  jobs : ∀ f, .Fired f ∈ facts → state[job_key f.job]?.isSome
  accepted : AllAccepted state

theorem schedule_kept_empty : ScheduleKept [] ∅ :=
  ⟨holding_empty _ _ _,fun id => .absent (by simp) rfl,by simp,by simp [AllAccepted]⟩

/-- Only the records of schedules matter, and that jobs are not lost. -/
theorem ScheduleKept.congr {facts : List ScheduleFact} {s t : State} (kept : ScheduleKept facts s)
    (same : ∀ key, starts_with key SCHEDULE_PREFIX = true → t[key]? = s[key]?)
    (jobs : ∀ id : JobId, s[job_key id]?.isSome → t[job_key id]?.isSome) : ScheduleKept facts t :=
  ⟨kept.book.congr same,fun id => (kept.told id).congr (same _ (schedule_key_own id)),fun f member => jobs _ (kept.jobs f member),
    fun schedule stored found => kept.accepted schedule stored (by rw [← same _ (schedule_key_own _)]; exact found)⟩

theorem ScheduleKept.happens {facts : List ScheduleFact} {s t : State} {fact : ScheduleFact} (kept : ScheduleKept facts s)
    (happens : Happens fact s t) : ScheduleKept (facts ++ [fact]) t := by
  cases happens with
  | @created _ _ schedule stored accepted fresh enabled written jobs =>
    refine ⟨kept.book.write stored written,?_,?_,kept.accepted.write stored accepted written⟩
    · intro id
      by_cases here : schedule.id = id
      · subst here
        cases kept.told schedule.id with
        | present _ _ _ found _ _ =>
          rw [fresh] at found
          cases found
        | absent _ silent =>
          refine .present ?_ stored rfl written.own (by simp) (follow_created schedule)
          rw [List.filter_append,silent]
          simp [ScheduleFact.schedule]
      · exact (kept.told id).other here (written.other here)
    · intro f member
      rw [jobs]
      exact kept.jobs f (by simpa using member)
  | @switched _ _ schedule enabled stored found written jobs =>
    have next_stored : DurableSchedule.Stored { schedule with enabled } := ⟨stored.job,stored.short,stored.mode⟩
    have accepted := (kept.accepted schedule stored found).moved schedule.next_run_ms enabled
    refine ⟨kept.book.write next_stored written,?_,?_,kept.accepted.write next_stored accepted written⟩
    · intro id
      by_cases here : schedule.id = id
      · subst here
        exact (kept.told schedule.id).next stored found rfl (by simp) next_stored rfl rfl written.own (fun _ _ follow => follow.switch)
      · exact (kept.told id).other here (written.other here)
    · intro f member
      rw [jobs]
      exact kept.jobs f (by simpa using member)
  | @fired _ _ schedule next now_ms job stored found enabled due advanced written fits available jobs =>
    obtain ⟨next_stored,own,mode⟩ := advanced_stored stored advanced
    have accepted := advanced_accepted stored (kept.accepted schedule stored found) advanced
    refine ⟨kept.book.write next_stored written,?_,?_,kept.accepted.write next_stored accepted written⟩
    · intro id
      by_cases here : schedule.id = id
      · subst here
        refine (kept.told schedule.id).next stored found rfl (by simp) next_stored own mode ?_
          (fun _ _ follow => follow.fire _ stored enabled due advanced)
        rw [← own]
        exact written.own
      · exact (kept.told id).other here (written.other (by rw [own]; exact here))
    · intro f member
      rw [jobs]
      split
      · rfl
      · rename_i other
        rcases List.mem_append.mp member with before | same
        · exact kept.jobs f before
        · cases List.mem_singleton.mp same
          exact absurd rfl other

theorem ScheduleKept.leads {facts new : List ScheduleFact} {s t : State} (kept : ScheduleKept facts s) (leads : Leads s new t) :
    ScheduleKept (facts ++ new) t := by
  induction leads generalizing facts with
  | nil =>
    rw [List.append_nil]
    exact kept
  | cons first rest ih =>
    rw [List.append_cons]
    exact ih (kept.happens first)

/-! ## Calls -/

inductive ScheduleCall
  | CreateSchedule (io : Io) (entropy : Option (ByteArr 16)) (job : JobSpec) (mode : ScheduleMode) (first_run_ms : Int64)
  | SetScheduleEnabled (io : Io) (id : ScheduleId) (enabled : Bool)
  | TickSchedules (io : Io) (entropy : Nat → Option (ByteArr 16)) (now_ms : Int64) (limit : Nat)

def ScheduleCall.io : ScheduleCall → Io
  | .CreateSchedule io _ _ _ _ => io
  | .SetScheduleEnabled io _ _ => io
  | .TickSchedules io _ _ _ => io

/-- The ids that are drawn are not in use, and none is drawn twice. -/
structure Fresh (entropy : Nat → Option (ByteArr 16)) (state : State) : Prop where
  unused : ∀ k id, entropy k = some id → state[job_key id]? = none
  distinct : ∀ k l id, entropy k = some id → entropy l = some id → k = l

/-- No write is cut short, every commit is confirmed, and new ids are not in use. -/
def ScheduleCall.Fair (state : State) (call : ScheduleCall) : Prop := call.io.Durable ∧ match call with
  | .CreateSchedule _ entropy _ _ _ => ∀ id, entropy = some id → state[schedule_key id]? = none
  | .SetScheduleEnabled _ _ _ => True
  | .TickSchedules _ entropy _ _ => Fresh entropy state

/-- The jobs that are there after a tick. -/
theorem leads_jobs {fs : List Firing} {s t : State} (leads : Leads s (fs.map .Fired) t) (id : JobId) :
    t[job_key id]?.isSome ↔ s[job_key id]?.isSome ∨ ∃ f ∈ fs, f.job = id := by
  induction fs generalizing s with
  | nil =>
    cases leads
    simp
  | cons f fs ih =>
    cases leads with
    | cons first rest =>
      rw [ih rest]
      cases first with
      | @fired _ _ schedule next now_ms job stored found enabled due advanced written fits available jobs =>
        rw [jobs]
        by_cases here : job.id = id
        · rw [if_pos here]
          simp [here]
        · rw [if_neg here]
          simp [here]

/-- In a list without duplicates, who is known to be in the first part is in the first part. -/
theorem filter_eq_take {α β : Type} {xs : List α} {j : Nat} {f : α → β} (distinct : (xs.map f).Nodup) {shown : α → Bool}
    (known : ∀ x ∈ xs, shown x = true ↔ ∃ y ∈ xs.take j, f y = f x) : xs.filter shown = xs.take j := by
  have split := List.take_append_drop j xs
  rw [← split,List.map_append,List.nodup_append] at distinct
  have first : (xs.take j).filter shown = xs.take j := by
    rw [List.filter_eq_self]
    intro x member
    exact (known x (List.mem_of_mem_take member)).mpr ⟨x,member,rfl⟩
  have second : (xs.drop j).filter shown = [] := by
    rw [List.filter_eq_nil_iff]
    intro x member shows
    obtain ⟨y,inside,same⟩ := (known x (List.mem_of_mem_drop member)).mp shows
    exact distinct.2.2 _ (List.mem_map_of_mem inside) _ (List.mem_map_of_mem member) same
  conv_lhs => rw [← split]
  rw [List.filter_append,first,second,List.append_nil]

theorem leads_other_job {fs : List Firing} {s t : State} (leads : Leads s (fs.map .Fired) t) {id : JobId}
    (unused : id ∉ fs.map Firing.job) : t[job_key id]? = s[job_key id]? := by
  induction fs generalizing s with
  | nil =>
    cases leads
    rfl
  | cons f fs ih =>
    rw [List.map_cons,List.mem_cons,not_or] at unused
    cases leads with
    | cons first rest =>
      rw [ih rest unused.2]
      cases first with
      | fired stored found enabled due advanced written fits available jobs => rw [jobs,if_neg (Ne.symm unused.1)]

/-- The schedule is past the point: its cursor is, or it is switched off. -/
def DurableSchedule.Past (schedule : DurableSchedule) (at_ms : Int64) : Prop :=
  match schedule.mode with
  | .Once => schedule.enabled = false
  | .Interval _ => at_ms < schedule.next_run_ms

theorem advanced_past {schedule next : DurableSchedule} {now_ms : Int64} (stored : schedule.Stored) (due : schedule.next_run_ms ≤ now_ms)
    (advanced : schedule.advanced now_ms = .ok next) : next.Past schedule.next_run_ms := by
  unfold DurableSchedule.Past
  rcases advanced_ok stored.mode advanced with ⟨mode,rfl⟩ | ⟨every_ms,mode,same,_,_,behind,_⟩
  · dsimp only
    rw [mode]
  · have next_mode : next.mode = .Interval every_ms := by rw [same]; exact mode
    rw [next_mode]
    rw [Int64.le_iff_toInt_le] at due
    exact Int64.lt_iff_toInt_lt.mpr (by omega)

theorem leads_elsewhere {fs : List Firing} {s t : State} (leads : Leads s (fs.map .Fired) t) {id : ScheduleId}
    (untouched : id ∉ fs.map Firing.schedule) : t[schedule_key id]? = s[schedule_key id]? := by
  induction fs generalizing s with
  | nil =>
    cases leads
    rfl
  | cons f fs ih =>
    rw [List.map_cons,List.mem_cons,not_or] at untouched
    cases leads with
    | cons first rest => rw [ih rest untouched.2,first.elsewhere (Ne.symm untouched.1)]

/-- What is fired leaves its job, and its schedule past the point. -/
theorem leads_fired {fs : List Firing} {s t : State} (leads : Leads s (fs.map .Fired) t) (schedules : (fs.map Firing.schedule).Nodup)
    (jobs : (fs.map Firing.job).Nodup) {f : Firing} (member : f ∈ fs) :
    (∃ job : DurableJob, job.Fits ∧ job.available_at_ms = f.at_ms ∧ t[job_key f.job]? = some job.spelling) ∧
      ∃ next : DurableSchedule, next.Stored ∧ next.Past f.at_ms ∧ t[schedule_key f.schedule]? = some next.spelling := by
  induction fs generalizing s with
  | nil => cases member
  | cons g fs ih =>
    rw [List.map_cons,List.nodup_cons] at schedules jobs
    cases leads with
    | cons first rest =>
      rcases List.mem_cons.mp member with rfl | later
      · have record := leads_elsewhere rest schedules.1
        cases first with
        | @fired _ _ schedule next now_ms job stored found enabled due advanced written fits available writes =>
          obtain ⟨next_stored,own,-⟩ := advanced_stored stored advanced
          refine ⟨⟨job,fits,available,?_⟩,next,next_stored,advanced_past stored due advanced,?_⟩
          · rw [leads_other_job rest jobs.1,writes,if_pos rfl]
          · rw [record]
            show _[schedule_key schedule.id]? = _
            rw [← own]
            exact written.own
      · exact ih rest schedules.2 jobs.2 later

section
variable [Hashes]

/-- The call; what it returns is not looked at. -/
def ScheduleCall.run : ScheduleCall → EStateM JobError Store Unit
  | .CreateSchedule io entropy job mode first_run_ms => do
    let _ ← create_schedule io entropy job mode first_run_ms
  | .SetScheduleEnabled io id enabled => do
    let _ ← set_schedule_enabled io id enabled
  | .TickSchedules io entropy now_ms limit => do
    let _ ← tick_schedules io entropy now_ms limit

/-- What the call does, one transaction after another. -/
def ScheduleCall.told (store : Store) : ScheduleCall → List ScheduleFact
  | .CreateSchedule io entropy job mode first_run_ms => match create_schedule io entropy job mode first_run_ms store with
    | .ok id _ => [.Created id mode first_run_ms]
    | .error _ _ => []
  | .SetScheduleEnabled io id enabled => match set_schedule_enabled io id enabled store with
    | .ok true _ => [.Switched id enabled]
    | _ => []
  | .TickSchedules io entropy now_ms limit =>
    (firings io entropy now_ms limit 0 (Store.scan_prefix store SCHEDULE_PREFIX) store).map .Fired

theorem create_schedule_once {io : Io} (durable : io.Durable) (entropy : Option (ByteArr 16)) (job : JobSpec) (mode : ScheduleMode)
    (first_run_ms : Int64) : AllOrNothing (create_schedule io entropy job mode first_run_ms) := by
  refine .checked (reads_lift _) (fun _ => ?_)
  split
  · exact all_or_nothing_of_reads (reads_throw _)
  · refine .checked (reads_lift _) (fun id => .checked (reads_lift _) (fun encoded => ?_))
    exact (within_all_or_nothing durable (put_stages durable.1 _ _)).rethrow.returning (fun _ => id)

theorem switch_schedule_once {io : Io} (durable : io.Durable) (id : ScheduleId) (enabled : Bool) :
    AllOrNothing (set_schedule_enabled io id enabled) := by
  refine .checked reads_get (fun store => .checked (reads_lift _) (fun found => ?_))
  cases found with
  | none => exact all_or_nothing_of_reads (reads_pure _)
  | some schedule =>
    refine .checked (reads_lift _) (fun encoded => ?_)
    exact (within_all_or_nothing durable (put_stages durable.1 _ _)).rethrow.returning (fun _ => true)

/-- A record that is written alone. -/
theorem put_schedule_rewrites {io : Io} {schedule : DurableSchedule} {store t : Store} {x : Unit}
    (done : rethrow JobError.Store (put_alone io (schedule_key schedule.id) schedule.spelling) store = .ok x t) :
    Rewrites schedule store.state t.state ∧ ∀ id, t.state[job_key id]? = store.state[job_key id]? := by
  have same := put_alone_ok (rethrow_ok.mp done)
  constructor
  · intro key own
    rw [same key (schedule_outside_feed own),get_insert]
  · intro id
    rw [same _ (job_outside_feed (job_key_own id)),get_insert,if_neg]
    intro here
    exact schedule_not_job (schedule_key_own schedule.id) (by rw [here]; exact job_key_space id)

theorem create_schedule_ok {io : Io} {entropy : Option (ByteArr 16)} {job : JobSpec} {mode : ScheduleMode} {first_run_ms : Int64}
    {store t : Store} {id : ScheduleId} (fresh : ∀ new, entropy = some new → store.state[schedule_key new]? = none)
    (done : create_schedule io entropy job mode first_run_ms store = .ok id t) :
    Happens (.Created id mode first_run_ms) store.state t.state := by
  obtain ⟨⟨⟩,valid,done⟩ := lift_bind_ok.mp done
  split at done
  · cases done
  · rename_i positive
    obtain ⟨new,drawn,done⟩ := lift_bind_ok.mp done
    obtain ⟨encoded,made,done⟩ := lift_bind_ok.mp done
    obtain ⟨_,_,put,done⟩ := bind_ok.mp done
    cases done
    obtain ⟨stored,rfl⟩ := encode_schedule_ok made positive
    obtain ⟨written,jobs⟩ := @put_schedule_rewrites _ io (DurableSchedule.mk id job mode first_run_ms true).kept _ _ _ put
    obtain ⟨_,_,_,staged,_⟩ := within_ok (rethrow_ok.mp put)
    exact .created stored ⟨valid,put_internal_short staged⟩ (fresh id (ok_or_ok.mp drawn)) rfl written jobs

/-- A switch that finds its schedule writes it with the flag. -/
theorem switch_schedule_ok {io : Io} {id : ScheduleId} {enabled found : Bool} {store t : Store} (book : ScheduleBook store.state)
    (done : set_schedule_enabled io id enabled store = .ok found t) :
    (found = false ∧ t = store) ∨ found = true ∧ ∃ schedule : DurableSchedule, schedule.Stored ∧ schedule.id = id ∧
      store.state[schedule_key id]? = some schedule.spelling ∧ Happens (.Switched id enabled) store.state t.state := by
  unfold set_schedule_enabled at done
  rw [get_bind] at done
  obtain ⟨existing,looked,done⟩ := lift_bind_ok.mp done
  unfold Store.get_schedule at looked
  cases there : store.get (schedule_key id) with
  | none =>
    rw [there] at looked
    cases looked
    cases done
    exact .inl ⟨rfl,rfl⟩
  | some value =>
    rw [there] at looked
    obtain ⟨schedule,stored,rfl,rfl⟩ := book.found there
    rw [Option.mapM_some,decode_schedule_spelling stored] at looked
    cases looked
    obtain ⟨encoded,made,done⟩ := lift_bind_ok.mp done
    obtain ⟨_,_,put,done⟩ := bind_ok.mp done
    cases done
    have next_stored : DurableSchedule.Stored { schedule with enabled } := ⟨stored.job,stored.short,stored.mode⟩
    rw [encode_stored_schedule next_stored] at made
    cases made
    obtain ⟨written,jobs⟩ := @put_schedule_rewrites _ io { schedule with enabled } _ _ _ put
    exact .inr ⟨rfl,schedule,stored,rfl,there,.switched stored there written jobs⟩

/-- A call of one transaction. -/
theorem AllOrNothing.leads {α : Type} {x : EStateM JobError Store α} (once : AllOrNothing x) {store : Store} {told : List ScheduleFact}
    (sound : store.Sound) (whole : fragment store.file = []) (ok : ∀ a t, x store = .ok a t → Leads store.state told t.state)
    (failed : ∀ e t, x store = .error e t → told = []) : Leads store.state told (after x store).state ∧
      ∀ state, Interrupted x store state → ∃ j, Leads store.state (told.take j) state := by
  constructor
  · cases result : x store with
    | ok a t =>
      rw [after,result]
      exact ok a t result
    | error e t =>
      rw [after,result,failed e t result]
      show Leads store.state [] t.state
      rw [once.keeps _ _ _ result]
      exact .nil
  · intro state interrupted
    rcases once.interrupted _ _ sound whole interrupted with rfl | ⟨a,t,done,rfl⟩
    · exact ⟨0,.nil⟩
    · refine ⟨told.length,?_⟩
      rw [List.take_length]
      exact ok a t done

theorem ScheduleCall.run_appending {call : ScheduleCall} (durable : call.io.Durable) : Appending call.run := by
  cases call with
  | CreateSchedule io entropy job mode first_run_ms =>
    exact ((create_schedule_once durable entropy job mode first_run_ms).returning (fun _ => ())).appending
  | SetScheduleEnabled io id enabled => exact ((switch_schedule_once durable id enabled).returning (fun _ => ())).appending
  | TickSchedules io entropy now_ms limit =>
    refine Appending.bind ?_ (fun _ => appending_of_reads (reads_pure _))
    refine (appending_of_reads reads_get).bind (fun store => ?_)
    exact (tick_each_appending durable _ _ _ _ _).bind (fun _ => appending_of_reads (reads_pure _))

/-- Around its loop a tick only reads. -/
theorem after_tick_run (io : Io) (entropy : Nat → Option (ByteArr 16)) (now_ms : Int64) (limit : Nat) (store : Store) :
    after (ScheduleCall.run (.TickSchedules io entropy now_ms limit)) store =
      after (tick_each io entropy now_ms limit 0 (scan store.state SCHEDULE_PREFIX)) store := by
  have run_eq : ScheduleCall.run (.TickSchedules io entropy now_ms limit) = (do
      let store ← get
      let _ ← tick_each io entropy now_ms limit 0 (Store.scan_prefix store SCHEDULE_PREFIX)
      return ()) := by
    unfold ScheduleCall.run tick_schedules
    simp only [bind_assoc,pure_bind]
  rw [run_eq,after,get_bind,bind_run,scan_prefix_eq,after]
  cases tick_each io entropy now_ms limit 0 (scan store.state SCHEDULE_PREFIX) store <;> rfl

/-- Whether a call ends, fails or is interrupted: a first part of what it tells has happened. -/
theorem ScheduleCall.leads {call : ScheduleCall} {store : Store} (sound : store.Sound) (whole : fragment store.file = [])
    (book : ScheduleBook store.state) (fair : call.Fair store.state) : Leads store.state (call.told store) (after call.run store).state ∧
      ∀ state, Interrupted call.run store state → ∃ j, Leads store.state ((call.told store).take j) state := by
  obtain ⟨durable,fresh⟩ := fair
  cases call with
  | CreateSchedule io entropy job mode first_run_ms =>
    refine ((@create_schedule_once _ io durable entropy job mode first_run_ms).returning (fun _ => ())).leads sound whole ?_ ?_
    · intro _ t done
      obtain ⟨id,_,created,done⟩ := bind_ok.mp done
      cases done
      rw [told,created]
      exact .cons (create_schedule_ok fresh created) .nil
    · intro e t failed
      rcases bind_error.mp failed with failed | ⟨_,_,_,failed⟩
      · rw [told,failed]
      · cases failed
  | SetScheduleEnabled io id enabled =>
    refine ((@switch_schedule_once _ io durable id enabled).returning (fun _ => ())).leads sound whole ?_ ?_
    · intro _ t done
      obtain ⟨found,_,switched,done⟩ := bind_ok.mp done
      cases done
      rw [told,switched]
      rcases switch_schedule_ok book switched with ⟨rfl,rfl⟩ | ⟨rfl,schedule,stored,own,there,happens⟩
      · exact .nil
      · exact .cons happens .nil
    · intro e t failed
      rcases bind_error.mp failed with failed | ⟨_,_,_,failed⟩
      · rw [told,failed]
      · cases failed
  | TickSchedules io entropy now_ms limit =>
    obtain ⟨schedules,listed,distinct,in_map,-⟩ := book.listed
    obtain ⟨leads,cut_short⟩ := @tick_each_leads _ io durable entropy now_ms limit 0 schedules store sound whole distinct in_map
    rw [← listed] at leads cut_short
    rw [told,scan_prefix_eq]
    constructor
    · rw [after_tick_run]
      exact leads
    · rintro state ⟨cut,synced,found⟩
      rw [after_tick_run] at found
      obtain ⟨j,led⟩ := cut_short state ⟨cut,synced,found⟩
      rw [List.map_take] at led
      exact ⟨j,led⟩

theorem firings_nodup {io : Io} {entropy : Nat → Option (ByteArr 16)} {now_ms : Int64} {limit : Nat} {entries : List (Bytes × Bytes)}
    {store : Store} {state : State} (fresh : Fresh entropy state) :
    ((firings io entropy now_ms limit 0 entries store).map Firing.job).Nodup ∧
      ∀ f ∈ firings io entropy now_ms limit 0 entries store, state[job_key f.job]? = none := by
  have drawn := firings_jobs io entropy now_ms limit 0 entries store
  have from_entropy : ∀ f ∈ firings io entropy now_ms limit 0 entries store, ∃ k, entropy k = some f.job := by
    intro f member
    have inside : some f.job ∈ (firings io entropy now_ms limit 0 entries store).map (fun f => some f.job) := List.mem_map_of_mem member
    rw [drawn] at inside
    obtain ⟨k,_,is⟩ := List.mem_map.mp inside
    exact ⟨k,is⟩
  constructor
  · have nodup : ((firings io entropy now_ms limit 0 entries store).map (fun f => some f.job)).Nodup := by
      rw [drawn,List.nodup_map_iff_inj_on List.nodup_range']
      intro k in_range l _ same
      have inside : entropy k ∈ (firings io entropy now_ms limit 0 entries store).map (fun f => some f.job) := by
        rw [drawn]
        exact List.mem_map_of_mem in_range
      obtain ⟨f,_,is⟩ := List.mem_map.mp inside
      exact fresh.distinct k l f.job is.symm (same.symm.trans is.symm)
    rw [show (fun f : Firing => some f.job) = some ∘ Firing.job from rfl,← List.map_map] at nodup
    exact nodup.of_map
  · intro f member
    obtain ⟨k,is⟩ := from_entropy f member
    exact fresh.unused k f.job is

/-- What the map shows after a crash is what has happened. -/
theorem ScheduleCall.shown {call : ScheduleCall} {store : Store} {state : State} {j : Nat} (book : ScheduleBook store.state)
    (fair : call.Fair store.state) (leads : Leads store.state ((call.told store).take j) state) :
    Leads store.state ((call.told store).filter (·.shows state)) state := by
  obtain ⟨durable,fresh⟩ := fair
  cases call with
  | CreateSchedule io entropy job mode first_run_ms =>
    rw [told] at leads ⊢
    cases result : create_schedule io entropy job mode first_run_ms store with
    | error e t =>
      rw [result,List.take_nil] at leads
      exact leads
    | ok id t =>
      rw [result] at leads
      cases j with
      | zero =>
        cases leads
        have created := create_schedule_ok fresh result
        have missing : store.state[schedule_key id]? = none := by
          cases created with
          | created _ _ fresh _ _ _ => exact fresh
        have hidden : (ScheduleFact.Created id mode first_run_ms).shows store.state = false := by
          rw [ScheduleFact.shows,missing]
          rfl
        rw [List.filter_cons_of_neg (by simp [hidden])]
        exact .nil
      | succ j =>
        rw [List.take_succ_cons,List.take_nil] at leads
        rw [List.filter_cons_of_pos leads.single_shows]
        exact leads
  | SetScheduleEnabled io id enabled =>
    rw [told] at leads ⊢
    cases result : set_schedule_enabled io id enabled store with
    | error e t =>
      rw [result,List.take_nil] at leads
      exact leads
    | ok found t =>
      rw [result] at leads
      rcases switch_schedule_ok book result with ⟨rfl,rfl⟩ | ⟨rfl,schedule,stored,rfl,there,happens⟩
      · rw [List.take_nil] at leads
        exact leads
      · cases j with
        | zero =>
          cases leads
          by_cases same : schedule.enabled = enabled
          · have kept : Rewrites { schedule with enabled } store.state store.state := by
              intro key own
              subst same
              split
              · rename_i here
                rw [← here]
                exact there
              · rfl
            have again : Happens (.Switched schedule.id enabled) store.state store.state := .switched stored there kept (fun _ => rfl)
            have shows : (ScheduleFact.Switched schedule.id enabled).shows store.state = true := by
              simp [ScheduleFact.shows,there,decode_schedule_spelling stored,same]
            rw [List.filter_cons_of_pos shows]
            exact .cons again .nil
          · have hidden : (ScheduleFact.Switched schedule.id enabled).shows store.state = false := by
              simp [ScheduleFact.shows,there,decode_schedule_spelling stored,same]
            rw [List.filter_cons_of_neg (by simp [hidden])]
            exact .nil
        | succ j =>
          rw [List.take_succ_cons,List.take_nil] at leads
          rw [List.filter_cons_of_pos leads.single_shows]
          exact leads
  | TickSchedules io entropy now_ms limit =>
    rw [told] at leads ⊢
    obtain ⟨distinct,unused⟩ := @firings_nodup _ io entropy now_ms limit (Store.scan_prefix store SCHEDULE_PREFIX) store _ fresh
    rw [← List.map_take] at leads
    rw [List.filter_map,filter_eq_take distinct]
    · exact leads
    · intro f member
      show state[job_key f.job]?.isSome = true ↔ _
      rw [leads_jobs leads,unused f member]
      simp

end

/-! ## Runs -/

/-- A call, or one that a crash interrupts: a first part of the file is left, which is then opened again. -/
inductive ScheduleMove
  | Run (call : ScheduleCall)
  | Crash (call : ScheduleCall) (cut : Nat) (io : Io) (path : Path) (options : StoreOptions)

abbrev ScheduleLog := List (Happened Empty ScheduleMove (Io × Operation) (List ScheduleFact))

/-- What has happened to schedules. -/
def scheduleFacts (log : ScheduleLog) : List ScheduleFact := log.flatMap fun
  | .Returned _ (.ok told) => told
  | _ => []

theorem schedule_facts_returned (log : ScheduleLog) (move : ScheduleMove) (told : List ScheduleFact) :
    scheduleFacts (log ++ [Happened.Returned move (.ok told)]) = scheduleFacts log ++ told := by
  simp [scheduleFacts]

/-- Stores are opened as `Store::open` does, with torn tails cut off. What others stage
    leaves schedules alone and deletes no job. -/
def scheduleTerms : Terms Empty ScheduleMove (Io × Operation) (List ScheduleFact) where
  mine key := starts_with key SCHEDULE_PREFIX = true ∨ starts_with key JOB_PREFIX = true
  call state
    | .Run call => call.Fair state
    | .Crash call _ _ _ options => call.Fair state ∧ options.repair_torn_tail = true
  callTx _ other := other.1.Durable ∧ starts_with other.2.key SCHEDULE_PREFIX = false ∧
    ∀ key, other.2 = .Delete key → starts_with key JOB_PREFIX = false
  commit _ := True

/-- What others see and write: the schedules as they are, and no job less. -/
structure Spares (state view : State) : Prop where
  schedules : ∀ key, starts_with key SCHEDULE_PREFIX = true → view[key]? = state[key]?
  jobs : ∀ id : JobId, state[job_key id]?.isSome → view[job_key id]?.isSome

theorem spares_refl (state : State) : Spares state state := ⟨fun _ _ => rfl,fun _ there => there⟩

theorem get_job_spelled {store : Store} {id : JobId} {job : DurableJob} (fits : job.Fits)
    (found : store.state[job_key id]? = some job.spelling) : store.get_job id = .ok (some job.kept) := by
  unfold Store.get_job
  rw [show store.get (job_key id) = some job.spelling from found,Option.mapM_some,decode_job_spelling fits]
  rfl

theorem get_schedule_spelled {store : Store} {id : ScheduleId} {schedule : DurableSchedule} (stored : schedule.Stored)
    (found : store.state[schedule_key id]? = some schedule.spelling) : store.get_schedule id = .ok (some schedule) := by
  unfold Store.get_schedule
  rw [show store.get (schedule_key id) = some schedule.spelling from found,Option.mapM_some,decode_schedule_spelling stored]
  rfl

/-- A schedule that is found is in the map. -/
theorem ScheduleBook.get {store : Store} (book : ScheduleBook store.state) {id : ScheduleId} {schedule : DurableSchedule}
    (got : store.get_schedule id = .ok (some schedule)) :
    schedule.Stored ∧ schedule.id = id ∧ store.state[schedule_key id]? = some schedule.spelling := by
  unfold Store.get_schedule at got
  cases there : store.get (schedule_key id) with
  | none =>
    rw [there] at got
    cases got
  | some value =>
    rw [there] at got
    obtain ⟨known,stored,own,rfl⟩ := book.found there
    rw [Option.mapM_some,decode_schedule_spelling stored] at got
    cases got
    exact ⟨stored,own,there⟩

section
variable [Hashes]

/-- A crash after which the store cannot be opened, or one that would lose a commit, is no move. -/
def schedules : Domain Empty ScheduleMove (Io × Operation) (List ScheduleFact) where
  on_store
    | .Run call => fun store => .ok (call.told store) (after call.run store)
    | .Crash call cut io path options => fun store =>
      if Synced store.file cut then
        match open_with_options io path options ((after call.run store).file.take cut) with
        | .ok t _ => .ok ((call.told store).filter (·.shows t.state)) t
        | .error _ _ => .ok [] store
      else .ok [] store
  on_tx other := fun tx => .ok [] (after (other.2.write other.1) tx)

/-- What a move leaves of a store: it is opened again, it is as before, or the call is done. -/
theorem schedule_move_leaves {move : ScheduleMove} {state : State} {store : Store} (sound : store.Sound) (whole : fragment store.file = [])
    (ok : scheduleTerms.call state move) : ∃ told t, schedules.on_store move store = .ok told t ∧ t.Sound ∧ fragment t.file = [] ∧
      (ScheduleBook store.state → state = store.state → Leads store.state told t.state) := by
  cases move with
  | Run call =>
    obtain ⟨stored,left⟩ := (ScheduleCall.run_appending ok.1).steady store sound whole
    refine ⟨_,_,rfl,stored,left,?_⟩
    rintro book rfl
    exact (ScheduleCall.leads sound whole book ok).1
  | Crash call cut io path options =>
    obtain ⟨fair,repairs⟩ := ok
    show ∃ told t, (if Synced store.file cut then _ else _) = _ ∧ _
    split
    · rename_i synced
      cases opened : open_with_options io path options ((after call.run store).file.take cut) with
      | error e left => exact ⟨_,_,rfl,sound,whole,fun _ _ => .nil⟩
      | ok t left =>
        obtain ⟨stored,tail,interrupted⟩ := crash_reopens (ScheduleCall.run_appending fair.1) sound whole synced repairs opened
        refine ⟨_,_,rfl,stored,tail,?_⟩
        rintro book rfl
        obtain ⟨j,leads⟩ := (ScheduleCall.leads sound whole book fair).2 _ interrupted
        exact ScheduleCall.shown book fair leads
    · exact ⟨_,_,rfl,sound,whole,fun _ _ => .nil⟩

theorem schedules_tame : Tame schedules scheduleTerms := by
  constructor
  · intro move state ok store sound whole
    obtain ⟨told,t,done,stored,left,-⟩ := schedule_move_leaves sound whole ok
    rw [after,done]
    exact ⟨stored,left⟩
  · intro other view ok tx
    exact write_stages ok.1.1 other.2 tx

theorem Spares.write {state : State} {tx : Transaction} {io : Io} {operation : Operation} (spares : Spares state tx.view)
    (apart : starts_with operation.key SCHEDULE_PREFIX = false)
    (kept : ∀ key, operation = .Delete key → starts_with key JOB_PREFIX = false) :
    Spares state (after (operation.write io) tx).view := by
  constructor
  · intro key own
    rw [write_elsewhere ?_]
    · exact spares.schedules key own
    · rintro rfl
      rw [apart] at own
      cases own
  · intro id there
    have before := spares.jobs id there
    by_cases here : operation.key = job_key id
    · cases operation with
      | Delete key =>
        have outside := kept key rfl
        rw [show key = job_key id from here,job_key_own] at outside
        cases outside
      | Put key value =>
        unfold after
        cases result : (Operation.Put key value).write io tx with
        | ok x u =>
          rw [(put_internal_ok result).1,get_insert,if_pos (show key = job_key id from here)]
          rfl
        | error e u =>
          rw [(stage_refused_view result).1]
          exact before
    · rw [write_elsewhere here]
      exact before

/-- The store is sound, and what is told of schedules is what the map says. -/
structure SchedulePlay (play : Play Empty ScheduleMove (Io × Operation) (List ScheduleFact)) : Prop where
  held : play.Held
  kept : ScheduleKept (scheduleFacts play.log) play.session.store.state
  view : ∀ seen, play.session.view = some seen → Spares play.session.store.state seen

theorem schedule_play_moved {play : Play Empty ScheduleMove (Io × Operation) (List ScheduleFact)} {move : Move ScheduleMove (Io × Operation)}
    (kept : SchedulePlay play) (ok : play.Allows scheduleTerms move) : SchedulePlay (play.step schedules move) := by
  obtain ⟨held,moved⟩ := Play.Held.moved schedules_tame kept.held ok
  obtain ⟨-,now,view⟩ := kept
  suffices holds : ScheduleKept (scheduleFacts (play.step schedules move).log) (play.step schedules move).session.store.state ∧
      ∀ seen, (play.step schedules move).session.view = some seen → Spares (play.step schedules move).session.store.state seen from
    ⟨held,holds.1,holds.2⟩
  clear held
  -- What is noted of others is no fact about schedules.
  have silent : ∀ (log : ScheduleLog) (event : Happened Empty ScheduleMove (Io × Operation) (List ScheduleFact)),
      (∀ call told, event ≠ .Returned call (.ok told)) → scheduleFacts (log ++ [event]) = scheduleFacts log := by
    intro log event other
    unfold scheduleFacts
    rw [List.flatMap_append]
    cases event with
    | Returned call result =>
      cases result with
      | ok told => exact absurd rfl (other call told)
      | error e => simp
    | _ => simp
  generalize play.step schedules move = next at moved ⊢
  cases moved with
  | stays _ => exact ⟨now,view⟩
  | @calls store log call sound whole ok =>
    obtain ⟨told,t,done,_,_,leads⟩ := schedule_move_leaves sound whole ok
    refine ⟨?_,by simp [Session.view]⟩
    show ScheduleKept (scheduleFacts (log ++ [Happened.Returned call (returned (schedules.on_store call) store)]))
      (after (schedules.on_store call) store).state
    rw [after,returned,done,schedule_facts_returned]
    exact now.leads (leads now.book rfl)
  | @begins store log tx sound begun =>
    obtain ⟨seen,state,-,-⟩ := begin_view begun
    refine ⟨?_,?_⟩
    · rw [silent _ _ (by simp)]
      show ScheduleKept (scheduleFacts log) tx.store.state
      rw [state]
      exact now
    · rintro _ ⟨⟩
      show Spares tx.store.state tx.view
      rw [seen,state]
      exact spares_refl _
  | @reopens store t log io path options state read =>
    refine ⟨?_,by simp [Session.view]⟩
    show ScheduleKept (scheduleFacts log) t.state
    rw [state]
    exact now
  | @callsTx tx log other sound whole ok =>
    have same := ((write_stages ok.1.1 other.2).carries tx).state
    refine ⟨?_,?_⟩
    · rw [silent _ _ (by simp)]
      show ScheduleKept (scheduleFacts log) (after (other.2.write other.1) tx).store.state
      rw [same]
      exact now
    · rintro _ ⟨⟩
      show Spares (after (other.2.write other.1) tx).store.state (after (other.2.write other.1) tx).view
      rw [same]
      exact (view _ rfl).write ok.2.1 ok.2.2
  | @writes tx log io operation sound whole durable elsewhere =>
    have same := ((write_stages durable.1 operation).carries tx).state
    obtain ⟨not_schedule,not_job⟩ := not_or.mp elsewhere
    refine ⟨?_,?_⟩
    · show ScheduleKept (scheduleFacts log) (after (operation.write io) tx).store.state
      rw [same]
      exact now
    · rintro _ ⟨⟩
      show Spares (after (operation.write io) tx).store.state (after (operation.write io) tx).view
      rw [same]
      refine (view _ rfl).write (Bool.eq_false_iff.mpr not_schedule) ?_
      rintro key rfl
      exact Bool.eq_false_iff.mpr not_job
  | @commits tx u log io x sound whole agreed committed =>
    have same := commit_view committed
    have spares := view _ rfl
    refine ⟨?_,by simp [Session.view]⟩
    rw [silent _ _ (by simp)]
    refine now.congr ?_ ?_
    · intro key own
      exact (same key (schedule_outside_feed own)).trans (spares.schedules key own)
    · intro id there
      show u.store.state[job_key id]?.isSome
      rw [same _ (job_outside_feed (job_key_own id))]
      exact spares.jobs id there
  | @fails tx u log io e sound whole durable failed =>
    refine ⟨?_,by simp [Session.view]⟩
    rw [silent _ _ (by simp)]
    show ScheduleKept (scheduleFacts log) u.store.state
    rw [commit_keeps failed]
    exact now
  | rolls =>
    refine ⟨?_,by simp [Session.view]⟩
    rw [silent _ _ (by simp)]
    exact now

theorem schedule_play_kept {play : Play Empty ScheduleMove (Io × Operation) (List ScheduleFact)}
    {moves : List (Move ScheduleMove (Io × Operation))} (kept : SchedulePlay play) (along : play.Along schedules scheduleTerms moves) :
    SchedulePlay (play.steps schedules moves) := by
  induction moves generalizing play with
  | nil => exact kept
  | cons move moves ih => exact ih (schedule_play_moved kept along.1) along.2

theorem schedule_play_start {store : Store} (sound : store.Sound) (whole : fragment store.file = []) (empty : store.state = ∅) :
    SchedulePlay ⟨.Idle store,[]⟩ := by
  refine ⟨⟨sound,whole⟩,?_,by simp [Session.view]⟩
  show ScheduleKept [] store.state
  rw [empty]
  exact schedule_kept_empty

/-- What a tick leaves, whether it ends or a crash interrupts it. -/
structure TickLeaves (store : Store) (io : Io) (entropy : Nat → Option (ByteArr 16)) (now_ms : Int64) (limit : Nat)
    (fs : List Firing) : Prop where
  /-- What it fires has its job, which is available from its point on. -/
  jobs : ∀ f ∈ fs, ∃ job, (after (tick_schedules io entropy now_ms limit) store).get_job f.job = .ok (some job) ∧
    job.available_at_ms = f.at_ms
  /-- If it succeeds and is not full, it fires all that is enabled and due. -/
  complete : ∀ report t, tick_schedules io entropy now_ms limit store = .ok report t → report.fired = fs.length ∧
    (report.fired < limit → ∀ id schedule, store.get_schedule id = .ok (some schedule) → schedule.enabled = true →
      schedule.next_run_ms ≤ now_ms → ∃ job, ⟨id,schedule.next_run_ms,job,now_ms⟩ ∈ fs)
  /-- After a crash the job is there exactly if the schedule is past its point. -/
  crash : ∀ cut, Synced store.file cut → ∀ open_io path options t left, options.repair_torn_tail = true →
    open_with_options open_io path options ((after (tick_schedules io entropy now_ms limit) store).file.take cut) = .ok t left →
    ∀ f ∈ fs, (∃ job, t.get_job f.job = .ok (some job) ∧ job.available_at_ms = f.at_ms) ↔
      ∃ schedule, t.get_schedule f.schedule = .ok (some schedule) ∧ schedule.Past f.at_ms

theorem after_tick (io : Io) (entropy : Nat → Option (ByteArr 16)) (now_ms : Int64) (limit : Nat) (store : Store) :
    after (tick_schedules io entropy now_ms limit) store = after (ScheduleCall.run (.TickSchedules io entropy now_ms limit)) store := by
  show _ = after (do let _ ← tick_schedules io entropy now_ms limit) store
  rw [after,after,bind_run]
  cases tick_schedules io entropy now_ms limit store <;> rfl

theorem tick_leaves {store : Store} {io : Io} {entropy : Nat → Option (ByteArr 16)} {now_ms : Int64} {limit : Nat} (sound : store.Sound)
    (whole : fragment store.file = []) (book : ScheduleBook store.state) (durable : io.Durable) (fresh : Fresh entropy store.state) :
    TickLeaves store io entropy now_ms limit (firings io entropy now_ms limit 0 (Store.scan_prefix store SCHEDULE_PREFIX) store) := by
  have fair : (ScheduleCall.TickSchedules io entropy now_ms limit).Fair store.state := ⟨durable,fresh⟩
  obtain ⟨leads,cut_short⟩ := ScheduleCall.leads sound whole book fair
  obtain ⟨jobs,unused⟩ := @firings_nodup _ io entropy now_ms limit (Store.scan_prefix store SCHEDULE_PREFIX) store _ fresh
  obtain ⟨schedules,listed,distinct,in_map,all⟩ := book.listed
  have stored := fun schedule member => (in_map schedule member).1
  obtain ⟨inside,sources⟩ := @firings_from _ io entropy now_ms limit 0 schedules store stored
  rw [← listed,← scan_prefix_eq] at inside sources
  have apart := inside.nodup distinct
  refine ⟨?_,?_,?_⟩
  · intro f member
    obtain ⟨⟨job,fits,available,found⟩,-⟩ := leads_fired leads apart jobs member
    rw [after_tick]
    exact ⟨job.kept,get_job_spelled fits found,available⟩
  · intro report t done
    unfold tick_schedules at done
    rw [get_bind] at done
    obtain ⟨n,u,ticked,done⟩ := bind_ok.mp done
    cases done
    rw [scan_prefix_eq,listed] at ticked ⊢
    obtain ⟨counted,fires⟩ := tick_each_complete stored ticked
    refine ⟨by rw [counted,Nat.zero_add],?_⟩
    intro room id schedule got enabled due
    obtain ⟨fits,rfl,found⟩ := book.get got
    exact fires (.inl (Nat.ne_of_lt room)) schedule (all schedule fits found) enabled due
  · intro cut synced open_io path options t left repairs opened f member
    rw [after_tick] at opened
    obtain ⟨-,-,interrupted⟩ := crash_reopens (@ScheduleCall.run_appending _ (.TickSchedules io entropy now_ms limit) durable) sound whole
      synced repairs opened
    obtain ⟨j,led⟩ := cut_short _ interrupted
    rw [ScheduleCall.told,← List.map_take] at led
    have apart_first := (List.take_sublist j _).map Firing.schedule |>.nodup apart
    have jobs_first := (List.take_sublist j _).map Firing.job |>.nodup jobs
    by_cases done : f ∈ (firings io entropy now_ms limit 0 (Store.scan_prefix store SCHEDULE_PREFIX) store).take j
    · obtain ⟨⟨job,fits,available,found⟩,next,next_stored,past,record⟩ := leads_fired led apart_first jobs_first done
      exact ⟨fun _ => ⟨next,get_schedule_spelled next_stored record,past⟩,fun _ => ⟨job.kept,get_job_spelled fits found,available⟩⟩
    · -- Neither its schedule nor its job has been written.
      have untouched : f.schedule ∉ ((firings io entropy now_ms limit 0 (Store.scan_prefix store SCHEDULE_PREFIX) store).take j).map
          Firing.schedule := by
        intro again
        obtain ⟨g,early,same⟩ := List.mem_map.mp again
        rw [List.inj_on_of_nodup_map apart (List.mem_of_mem_take early) member same] at early
        exact done early
      have missing : f.job ∉ ((firings io entropy now_ms limit 0 (Store.scan_prefix store SCHEDULE_PREFIX) store).take j).map
          Firing.job := by
        intro again
        obtain ⟨g,early,same⟩ := List.mem_map.mp again
        rw [List.inj_on_of_nodup_map jobs (List.mem_of_mem_take early) member same] at early
        exact done early
      have record := leads_elsewhere led untouched
      have no_job := leads_other_job led missing
      rw [unused f member] at no_job
      obtain ⟨schedule,member_schedule,own,point,enabled,-⟩ := sources f member
      obtain ⟨fits,found⟩ := in_map schedule member_schedule
      rw [← own,found] at record
      constructor
      · rintro ⟨job,got,-⟩
        unfold Store.get_job at got
        rw [show t.get (job_key f.job) = none from no_job] at got
        cases got
      · rintro ⟨other,got,past⟩
        rw [← own,get_schedule_spelled fits record] at got
        cases got
        unfold DurableSchedule.Past at past
        split at past
        · rw [enabled] at past
          cases past
        · rw [point] at past
          exact absurd past (Int64.lt_irrefl)

/-- After any run on a new store, with ticks at any times and with any limits, switches,
    crashes and reopenings, no write cut short and every commit confirmed, a schedule has fired on its grid, each job later than the one
    before and not before its time, or once if it runs once and was not switched on again; its
    record is at the first point behind the last tick that fired it, and no job is lost. And
    the next tick fires as a whole or not at all, wherever a crash interrupts it. -/
theorem schedules_fire_on_grid {io : Io} {path : Path} {options : StoreOptions} {store : Store} {left : Bytes}
    (opened : open_with_options io path options [] = .ok store left) {moves : List (Move ScheduleMove (Io × Operation))}
    (along : (Play.mk (.Idle store) []).Along schedules scheduleTerms moves) :
    let play := Play.steps schedules ⟨.Idle store,[]⟩ moves
    (∀ id mode first_run_ms, .Created id mode first_run_ms ∈ scheduleFacts play.log → ∃ schedule later,
      (scheduleFacts play.log).filter (·.schedule = id) = .Created id mode first_run_ms :: later ∧
        play.session.store.get_schedule id = .ok (some schedule) ∧ schedule.mode = mode ∧ Follow mode first_run_ms later schedule) ∧
    (∀ f, .Fired f ∈ scheduleFacts play.log → (play.session.store.get (job_key f.job)).isSome) ∧
    ∀ now, play.session = .Idle now → ∀ tick_io entropy now_ms limit, tick_io.Durable → Fresh entropy now.state →
      TickLeaves now tick_io entropy now_ms limit (firings tick_io entropy now_ms limit 0 (Store.scan_prefix now SCHEDULE_PREFIX) now) := by
  intro play
  obtain ⟨sound,-,whole,empty,-,-⟩ := new_store opened
  obtain ⟨held,kept,-⟩ := schedule_play_kept (schedule_play_start sound whole empty) along
  refine ⟨?_,kept.jobs,?_⟩
  · intro id mode first_run_ms created
    have inside : ScheduleFact.Created id mode first_run_ms ∈ (scheduleFacts play.log).filter (·.schedule = id) :=
      List.mem_filter.mpr ⟨created,by simp [ScheduleFact.schedule]⟩
    cases kept.told id with
    | absent _ silent =>
      rw [silent] at inside
      cases inside
    | @present schedule first later told stored own found once follow =>
      refine ⟨schedule,later,?_⟩
      rw [told] at inside
      rcases List.mem_cons.mp inside with same | again
      · cases same
        exact ⟨told,get_schedule_spelled stored found,rfl,follow⟩
      · exact absurd again (once mode first_run_ms)
  · intro now idle tick_io entropy now_ms limit durable fresh
    have now_sound : play.session.Sound := held.session
    have now_whole := held.whole
    have book := kept.book
    change fragment play.session.store.file = [] at now_whole
    change ScheduleBook play.session.store.state at book
    rw [idle] at now_sound now_whole book
    exact tick_leaves now_sound now_whole book durable fresh

end

def sevenTimes : ByteArr 16 := .filled 7

/-- One id is drawn. -/
def drawsOne (k : Nat) : Option (ByteArr 16) := if k = 0 then some (.filled 1) else none

theorem draws_one_fresh {state : State} (unused : state[job_key ⟨List.replicate 16 1,rfl⟩]? = none) : Fresh drawsOne state := by
  constructor
  · intro k id drawn
    unfold drawsOne at drawn
    split at drawn
    · cases drawn
      exact unused
    · cases drawn
  · intro k l id first second
    unfold drawsOne at first second
    split at first
    · split at second
      · omega
      · cases second
    · cases first

/-- A schedule for every ten milliseconds, a tick that a crash loses, and the same tick again. -/
def crashedAndTicked : List (Move ScheduleMove (Io × Operation)) :=
  [.Call (.Run (.CreateSchedule calm (some sevenTimes) (.new [104] [1]) (.Interval 10) 5)),
    .Call (.Crash (.TickSchedules calm drawsOne 27 8) 500 calm ["a.vstore"] .default),
    .Call (.Run (.TickSchedules calm drawsOne 27 8))]

set_option maxRecDepth 20000 in
theorem crashed_and_ticked_on_grid : ∃ store left, @open_with_options crates calm ["a.vstore"] .default [] = .ok store left ∧
    let play := @Play.steps crates _ _ _ _ (@schedules crates) ⟨.Idle store,[]⟩ crashedAndTicked
    scheduleFacts play.log = [.Created sevenTimes (.Interval 10) 5,.Fired ⟨sevenTimes,5,⟨List.replicate 16 1,rfl⟩,27⟩] ∧
      ∃ schedule, play.session.store.get_schedule sevenTimes = .ok (some schedule) ∧ FirstBehind 5 10 27 schedule.next_run_ms.toInt := by
  obtain ⟨store,left,opened⟩ := @sound_opens crates calm [] ["a.vstore"] .default calm_faultless (.inl rfl)
  obtain ⟨-,-,-,empty,-,-⟩ := @new_store crates _ _ _ _ _ opened
  have evaluated : (match @open_with_options crates calm ["a.vstore"] .default [] with
      | .ok store _ =>
        let play := fun n => @Play.steps crates _ _ _ _ (@schedules crates) ⟨.Idle store,[]⟩ (crashedAndTicked.take n)
        decide ((play 1).session.store.state[job_key ⟨List.replicate 16 1,rfl⟩]? = none) &&
          decide ((play 2).session.store.state[job_key ⟨List.replicate 16 1,rfl⟩]? = none) &&
          decide (scheduleFacts (@Play.steps crates _ _ _ _ (@schedules crates) ⟨.Idle store,[]⟩ crashedAndTicked).log =
            [.Created sevenTimes (.Interval 10) 5,.Fired ⟨sevenTimes,5,⟨List.replicate 16 1,rfl⟩,27⟩])
      | .error _ _ => false) = true := by
    rw [crates_eq_quick]
    decide +kernel
  rw [opened] at evaluated
  simp only [Bool.and_eq_true,decide_eq_true_eq] at evaluated
  obtain ⟨⟨first,second⟩,facts⟩ := evaluated
  have along : @Play.Along crates _ _ _ _ (@schedules crates) scheduleTerms ⟨.Idle store,[]⟩ crashedAndTicked := by
    refine ⟨⟨calm_durable,?_⟩,⟨⟨calm_durable,draws_one_fresh first⟩,rfl⟩,⟨calm_durable,draws_one_fresh second⟩,trivial⟩
    intro id _
    show store.state[_]? = none
    rw [empty]
    simp
  obtain ⟨created,-,-⟩ := @schedules_fire_on_grid crates _ _ _ _ _ opened _ along
  obtain ⟨schedule,later,told,found,-,follow⟩ := created sevenTimes (.Interval 10) 5 (by rw [facts]; simp)
  refine ⟨store,left,opened,facts,schedule,found,?_⟩
  rw [facts] at told
  cases told
  exact follow.cursor

/-- Another id is drawn. -/
def drawsAnother (k : Nat) : Option (ByteArr 16) := if k = 0 then some (.filled 2) else none

/-- A schedule for every ten milliseconds, a tick whose commit is not confirmed, and the same tick again. -/
def tickedTwice : List (Move ScheduleMove (Io × Operation)) :=
  [.Call (.Run (.CreateSchedule calm (some sevenTimes) (.new [104] [1]) (.Interval 10) 5)),
    .Call (.Run (.TickSchedules unsynced drawsOne 27 8)),.Call (.Run (.TickSchedules calm drawsAnother 27 8)),
    .Reopen calm ["a.vstore"] .default]

set_option maxRecDepth 20000 in
/-- One tick has fired the schedule, and after the reopening there are two jobs for one point of its grid. -/
theorem unconfirmed_tick_makes_second_job : ∃ store left, @open_with_options crates calm ["a.vstore"] .default [] = .ok store left ∧
    let play := @Play.steps crates _ _ _ _ (@schedules crates) ⟨.Idle store,[]⟩ tickedTwice
    scheduleFacts play.log = [.Created sevenTimes (.Interval 10) 5,.Fired ⟨sevenTimes,5,.filled 2,27⟩] ∧
      (∃ job, play.session.store.get_job (.filled 1) = .ok (some job) ∧ job.available_at_ms = 5) ∧
      ∃ job, play.session.store.get_job (.filled 2) = .ok (some job) ∧ job.available_at_ms = 5 := by
  have evaluated : passes (@open_with_options crates calm ["a.vstore"] .default []) (fun store _ =>
      let play := @Play.steps crates _ _ _ _ (@schedules crates) ⟨.Idle store,[]⟩ tickedTwice
      decide (scheduleFacts play.log = [.Created sevenTimes (.Interval 10) 5,.Fired ⟨sevenTimes,5,.filled 2,27⟩]) &&
        (play.session.store.get_job (.filled 1)).toOption.any (fun found => found.any (fun job => decide (job.available_at_ms = 5))) &&
        (play.session.store.get_job (.filled 2)).toOption.any (fun found => found.any (fun job => decide (job.available_at_ms = 5)))) =
      true := by
    rw [crates_eq_quick]
    decide +kernel
  obtain ⟨store,left,opened,evaluated⟩ := passes_iff.mp evaluated
  obtain ⟨evaluated,second⟩ := Bool.and_eq_true_iff.mp evaluated
  obtain ⟨told,first⟩ := Bool.and_eq_true_iff.mp evaluated
  obtain ⟨_,found,available⟩ := any_ok_iff.mp first
  obtain ⟨one,rfl,available⟩ := (Option.any_eq_true _ _).mp available
  obtain ⟨_,also,later⟩ := any_ok_iff.mp second
  obtain ⟨other,rfl,later⟩ := (Option.any_eq_true _ _).mp later
  exact ⟨store,left,opened,of_decide_eq_true told,⟨one,found,of_decide_eq_true available⟩,⟨other,also,of_decide_eq_true later⟩⟩

end VoodooStore
