import VoodooStore.WorkflowRecords

/-!
# The life of a workflow

In every run the operations, on a store and in transactions, and the timers that
fire take turns that keep every workflow recorded; and what has ended stays as
it is (`workflow_life_cycle`). A step whose commit is not confirmed comes back
after the end (`unconfirmed_step_behind_end`).
-/
namespace VoodooStore
open Effects Reading Workflow
set_option linter.unusedSimpArgs false

inductive WorkflowStoreCall
  | Operation (call : WorkflowCall)
  | ResumeDueWorkflows (ios : Nat → Io) (now_ms : Int64) (limit : Nat)

def WorkflowStoreCall.Durable : WorkflowStoreCall → Prop
  | .Operation call => call.io.Durable
  | .ResumeDueWorkflows ios _ _ => ∀ round, (ios round).Durable

def WorkflowStoreCall.Fresh (state : State) : WorkflowStoreCall → Prop
  | .Operation call => call.Fresh state
  | .ResumeDueWorkflows _ _ _ => True

abbrev WorkflowFact := Happened WorkflowError WorkflowStoreCall WorkflowCall WorkflowReply

/-- A transaction in which an operation failed halfway is dropped. -/
def workflowTerms : Terms WorkflowError WorkflowStoreCall WorkflowCall WorkflowReply where
  mine := WorkflowKey
  call state call := call.Durable ∧ call.Fresh state
  callTx view call := call.io.Durable ∧ call.Fresh view
  commit log := Unspoiled log

/-- Every workflow is still recorded, and what had ended is as it was. -/
structure Onward (s t : State) : Prop where
  living : Living t
  settled : Settled s t

theorem Onward.refl {s : State} (living : Living s) : Onward s s := ⟨living,.refl s⟩

theorem Onward.same {s t u : State} (onward : Onward s t) (same : SameData t u) : Onward s u :=
  ⟨onward.living.same same,onward.settled.same same⟩

theorem Onward.trans {s t u : State} (first : Onward s t) (second : Onward t u) : Onward s u :=
  ⟨second.living,first.settled.trans second.settled⟩

theorem Living.onward {s : State} {new : WorkflowInstance} {entry : WorkflowHistoryEntry} {encoded : Bytes} (living : Living s)
    (turn : Turn s new entry) (made : encode_instance new = .ok encoded) (short : entry.detail.length < 2 ^ 32) :
    Onward s (turned s new entry encoded) := ⟨living.turn turn made short,turn.settled⟩

theorem instance_of_scan {s : State} (living : Living s) {key encoded : Bytes} (member : (key,encoded) ∈ scan s INSTANCE_PREFIX)
    {self : WorkflowInstance} (decoded : decode_instance encoded = .ok self) :
    key = instance_key self.id ∧ ∃ history, Chronicled s self history := by
  obtain ⟨own,found⟩ := mem_scan.mp member
  obtain ⟨id,rfl⟩ := living.keyed key encoded own found
  have read : (lookupIn s).found id = .ok self := by
    unfold Lookup.found lookupIn
    dsimp only
    rw [found,Option.mapM_some,decoded]
    rfl
  obtain ⟨rfl,recorded⟩ := living.found read
  exact ⟨rfl,recorded⟩

/-- The workflows that are due wait for their timers, each at its own key. -/
theorem due_workflows_ok {now_ms : Int64} {limit : Nat} {start due : List WorkflowInstance} {records : List (Bytes × Bytes)}
    (keyed : ∀ record ∈ records, ∀ self, decode_instance record.2 = .ok self → record.1 = instance_key self.id)
    (found : due_workflows now_ms limit start records = .ok due) :
    ∃ more, due = start ++ more ∧ (more.map (fun self => instance_key self.id)).Sublist (records.map Prod.fst) ∧
      ∀ self ∈ more, self.status = .Waiting ∧ ∃ record ∈ records, decode_instance record.2 = .ok self := by
  induction records generalizing start with
  | nil =>
    cases found
    exact ⟨[],by simp,by simp,by simp⟩
  | cons record records ih =>
    obtain ⟨key,encoded⟩ := record
    have later : ∀ record ∈ records, ∀ self, decode_instance record.2 = .ok self → record.1 = instance_key self.id :=
      fun other member => keyed other (by simp [member])
    have skipped : due_workflows now_ms limit start records = .ok due → ∃ more, due = start ++ more ∧
        (more.map (fun self => instance_key self.id)).Sublist (key :: records.map Prod.fst) ∧
        ∀ self ∈ more, self.status = .Waiting ∧ ∃ record ∈ (key,encoded) :: records, decode_instance record.2 = .ok self := by
      intro rest
      obtain ⟨more,is,part,waits⟩ := ih later rest
      refine ⟨more,is,part.trans (List.sublist_cons_self _ _),?_⟩
      intro self member
      obtain ⟨status,record,inside,decoded⟩ := waits self member
      exact ⟨status,record,by simp [inside],decoded⟩
    unfold due_workflows at found
    split at found
    · cases found
      exact ⟨[],by simp,by simp,by simp⟩
    obtain ⟨self,decoded,found⟩ := bind_ok_iff.mp found
    split at found
    · rename_i status wait
      split at found
      · obtain ⟨more,rfl,part,waits⟩ := ih later found
        have here := keyed (key,encoded) (by simp) self decoded
        refine ⟨self :: more,by simp,?_,?_⟩
        · rw [List.map_cons,List.map_cons,← here]
          exact part.cons_cons _
        · intro other member
          rcases List.mem_cons.mp member with rfl | rest
          · exact ⟨status,(key,encoded),by simp,decoded⟩
          · obtain ⟨waiting,record,inside,read⟩ := waits other rest
            exact ⟨waiting,record,by simp [inside],read⟩
      · exact skipped found
    · exact skipped found

/-- What a reader finds of a workflow: nothing, or an instance whose history is
    numbered from 0, starts with its creation and ends with what it is doing. -/
def LifeCycle (store : Store) (id : WorkflowId) : Prop :=
  (store.get_workflow id = .ok none ∧ store.workflow_history id = .ok []) ∨
  ∃ self history, store.get_workflow id = .ok (some self) ∧ self.id = id ∧ store.workflow_history id = .ok history ∧
    (self.wait ≠ none ↔ self.status = .Waiting) ∧ history.map (fun entry => entry.sequence.toNat) = List.range history.length ∧
    history.head?.map WorkflowHistoryEntry.kind = some .Created ∧ ∃ last, history.getLast? = some last ∧ Follows self last

theorem lined_history {store : Store} {id : WorkflowId} {history : List WorkflowHistoryEntry}
    (lined : Lined (Workflow.history_prefix id) WorkflowHistoryEntry.sequence spelledHistory history store.state)
    (fits : ∀ entry ∈ history, entry.detail.length < 2 ^ 32) : store.workflow_history id = .ok history := by
  have read := @mapM_entries _ _ Workflow.decode_history (fun entry => (Workflow.history_prefix id ++ entry.sequence.to_be_bytes,spelledHistory entry))
    history (fun entry member => decode_spelled_history (fits entry member))
  have sorted : history.Pairwise (fun a b => decide (a.sequence ≤ b.sequence) = true) :=
    lined.rises.imp (fun less => decide_eq_true (UInt64.le_of_lt less))
  unfold Store.workflow_history
  rw [scan_prefix_eq,lined.scan,read,ok_bind,List.mergeSort_of_pairwise sorted]
  rfl

theorem Chronicled.read {store : Store} {self : WorkflowInstance} {history : List WorkflowHistoryEntry}
    (recorded : Chronicled store.state self history) :
    store.get_workflow self.id = .ok (some self) ∧ store.workflow_history self.id = .ok history :=
  ⟨recorded.found,lined_history recorded.lined recorded.fits⟩

theorem Living.cycles {store : Store} (living : Living store.state) (id : WorkflowId) : LifeCycle store id := by
  rcases living.each id with blank | ⟨self,history,rfl,recorded⟩
  · refine .inl ⟨?_,lined_history blank.silent (by simp)⟩
    rw [Store.get_workflow,show store.get (instance_key id) = none from blank.unknown]
    rfl
  · obtain ⟨found,read⟩ := recorded.read
    obtain ⟨last,is,follows⟩ := recorded.ends
    exact .inr ⟨self,history,found,rfl,read,follows.waits,recorded.numbered,recorded.begins,last,is,follows⟩

section
variable [Hashes]

def workflows : Domain WorkflowError WorkflowStoreCall WorkflowCall WorkflowReply where
  on_store
    | .Operation call => call.on_store
    | .ResumeDueWorkflows ios now_ms limit => do return .Resumed (← resume_due_workflows ios now_ms limit)
  on_tx call := call.on_tx

theorem write_workflow_ok {io : Io} {self : WorkflowInstance} {entry : WorkflowHistoryEntry} {tx u : Transaction} {x : Unit}
    (done : write_workflow io self entry tx = .ok x u) :
    ∃ encoded, encode_instance self = .ok encoded ∧ entry.detail.length < 2 ^ 32 ∧ u.view = turned tx.view self entry encoded := by
  obtain ⟨encoded,made,done⟩ := lift_bind_ok.mp done
  obtain ⟨_,middle,first,done⟩ := bind_ok.mp done
  obtain ⟨history,spelled,second⟩ := lift_bind_ok.mp done
  obtain ⟨short,rfl⟩ := workflow_history_encoded spelled
  refine ⟨encoded,made,short,?_⟩
  rw [(put_internal_ok (rethrow_ok.mp second)).1,(put_internal_ok (rethrow_ok.mp first)).1]
  rfl

theorem write_workflow_stages {io : Io} (writes : io.WritesWhole) (self : WorkflowInstance) (entry : WorkflowHistoryEntry) :
    Stages (write_workflow io self entry) := by
  refine (stages_of_reads (reads_lift _)).bind (fun _ => (put_stages writes _ _).rethrow.bind (fun _ => ?_))
  exact (stages_of_reads (reads_lift _)).bind (fun _ => (put_stages writes _ _).rethrow)

theorem plan_stages {io : Io} (writes : io.WritesWhole) (plan : Plan) : Stages (plan.stage io) := by
  unfold Plan.stage
  split
  · exact stages_of_reads (reads_pure _)
  · exact (write_workflow_stages writes _ _).bind (fun _ => stages_of_reads (reads_pure _))

theorem workflow_call_stages {call : WorkflowCall} (durable : call.io.Durable) : Stages call.on_tx := by
  intro tx
  have staged := (stages_of_reads (reads_lift (call.plan tx.lookup))).bind (plan_stages durable.1) tx
  unfold after at staged ⊢
  rw [on_tx_eq call tx]
  exact staged

theorem plan_atomic {io : Io} (durable : io.Durable) (plan : Plan) : Atomic (plan.commit io) := by
  unfold Plan.commit
  split
  · exact atomic_of_reads (reads_pure _)
  · exact (within_atomic durable (write_workflow_stages durable.1 _ _)).returning _

theorem persist_atomic {io : Io} (durable : io.Durable) (self : WorkflowInstance) (at_ms : Int64) (kind : WorkflowHistoryKind)
    (detail : Bytes) : Atomic (Store.persist_instance_with_history io self at_ms kind detail) :=
  .checked reads_get (fun _ => .checked (reads_lift _) (fun _ => within_atomic durable (write_workflow_stages durable.1 _ _)))

/-- What the transaction of an operation sees behind it. -/
theorem staged_onward {call : WorkflowCall} {tx u : Transaction} {reply : WorkflowReply} (living : Living tx.view)
    (fresh : call.Fresh tx.view) (done : call.on_tx tx = .ok reply u) : Onward tx.view u.view := by
  rw [on_tx_eq,tx_lookup_eq] at done
  obtain ⟨plan,planned,done⟩ := lift_bind_ok.mp done
  obtain ⟨answer,writes⟩ := plan
  cases writes with
  | none =>
    cases done
    exact .refl living
  | some written =>
    obtain ⟨_,_,written,done⟩ := bind_ok.mp done
    cases done
    obtain ⟨encoded,made,short,view⟩ := write_workflow_ok written
    rw [view]
    exact living.onward (plan_turns living fresh planned rfl) made short

theorem persisted_onward {io : Io} {new : WorkflowInstance} {entry : WorkflowHistoryEntry} {store t : Store} {x : Unit}
    (living : Living store.state) (turn : Turn store.state new entry)
    (done : within .Store io (write_workflow io new entry) store = .ok x t) : Onward store.state t.state := by
  obtain ⟨tx,u,begun,body,same⟩ := within_ok done
  obtain ⟨encoded,made,short,view⟩ := write_workflow_ok body
  rw [view,(begin_view begun).1] at same
  exact (living.onward turn made short).same same

theorem operation_onward {call : WorkflowCall} (durable : call.io.Durable) {store : Store} (living : Living store.state)
    (fresh : call.Fresh store.state) : Onward store.state (after call.on_store store).state := by
  unfold after
  by_cases absent : call.CancelsAbsent store
  · rw [cancel_absent_answers absent]
    exact .refl living
  rw [on_store_eq absent,store_lookup_eq]
  cases result : (lift (call.plan (lookupIn store.state)) >>= Plan.commit call.io) store with
  | error e t =>
    have atomic := Atomic.checked (reads_lift (call.plan (lookupIn store.state))) (plan_atomic durable)
    show Onward store.state t.state
    rw [atomic.keeps store e t result]
    exact .refl living
  | ok reply t =>
    obtain ⟨plan,planned,done⟩ := lift_bind_ok.mp result
    obtain ⟨answer,writes⟩ := plan
    cases writes with
    | none =>
      cases done
      exact .refl living
    | some written =>
      obtain ⟨_,_,written,done⟩ := bind_ok.mp done
      cases done
      exact persisted_onward living (plan_turns living fresh planned rfl) written

theorem resume_each_onward {ios : Nat → Io} (durable : ∀ round, (ios round).Durable) {now_ms : Int64} {round : Nat}
    {due : List WorkflowInstance} {store : Store} (living : Living store.state) (distinct : (due.map (fun self => instance_key self.id)).Nodup)
    (waits : ∀ self ∈ due, self.status = .Waiting ∧ ∃ history, Chronicled store.state self history) :
    Onward store.state (after (resume_each ios now_ms round due) store).state := by
  induction due generalizing store round with
  | nil => exact .refl living
  | cons self due ih =>
    obtain ⟨waiting,history,recorded⟩ := waits self (by simp)
    rw [List.map_cons,List.nodup_cons] at distinct
    unfold after resume_each
    rw [bind_run]
    cases result : Store.persist_instance_with_history (ios round)
        { self with status := .Running, wait := none, updated_at_ms := now_ms } now_ms .TimerFired [] store with
    | error e t =>
      show Onward store.state t.state
      rw [(persist_atomic (durable round) _ _ _ _).keeps store e t result]
      exact .refl living
    | ok x t =>
      unfold Store.persist_instance_with_history at result
      rw [get_bind] at result
      obtain ⟨sequence,counted,written⟩ := lift_bind_ok.mp result
      have active : is_terminal self.status = false := by
        rw [waiting]
        rfl
      have turn : Turn store.state { self with status := .Running, wait := none, updated_at_ms := now_ms } ⟨sequence,now_ms,.TimerFired,[]⟩ :=
        .goes self history recorded rfl active (recorded.sequence counted) ⟨rfl,rfl⟩
      have first := persisted_onward living turn written
      -- the others that are due have other ids, and are still as they were found
      have still : ∀ other ∈ due, other.status = .Waiting ∧ ∃ history, Chronicled t.state other history := by
        intro other member
        obtain ⟨status,before,there⟩ := waits other (by simp [member])
        refine ⟨status,before,?_⟩
        obtain ⟨tx,u,begun,body,same⟩ := within_ok written
        obtain ⟨encoded,-,-,view⟩ := write_workflow_ok body
        rw [view,(begin_view begun).1] at same
        refine Chronicled.same (there.congr (fun key own => turned_other (of_different ?_ own))) same
        intro equal
        refine distinct.1 (List.mem_map.mpr ⟨other,member,?_⟩)
        show instance_key other.id = instance_key self.id
        rw [equal]
      have rest := @ih (round + 1) t first.living distinct.2 still
      unfold after at rest
      exact first.trans rest

theorem store_call_onward {call : WorkflowStoreCall} (durable : call.Durable) {store : Store} (living : Living store.state)
    (fresh : call.Fresh store.state) : Onward store.state (after (workflows.on_store call) store).state := by
  cases call with
  | Operation call => exact operation_onward durable living fresh
  | ResumeDueWorkflows ios now_ms limit =>
    unfold after workflows
    dsimp only
    unfold resume_due_workflows
    rw [bind_assoc,get_bind,bind_assoc,lift_bind_run]
    cases found : due_workflows now_ms limit [] (Store.scan_prefix store INSTANCE_PREFIX) with
    | error e => exact .refl living
    | ok due =>
      dsimp only
      obtain ⟨_,rfl,part,waits⟩ := due_workflows_ok (fun record member self decoded => (instance_of_scan living member decoded).1) found
      have resumed := @resume_each_onward _ ios durable now_ms 0 due store living (part.nodup (scan_keys_nodup _ _)) (by
        intro self member
        obtain ⟨waiting,record,inside,decoded⟩ := waits self member
        exact ⟨waiting,(instance_of_scan living inside decoded).2⟩)
      unfold after at resumed
      rw [bind_assoc,bind_run]
      cases result : resume_each ios now_ms 0 due store with
      | ok x t => rw [result] at resumed; exact resumed
      | error e t => rw [result] at resumed; exact resumed

theorem store_call_steady {call : WorkflowStoreCall} (durable : call.Durable) : Steady (workflows.on_store call) := by
  cases call with
  | Operation call =>
    intro store sound whole
    unfold after workflows
    dsimp only
    by_cases absent : call.CancelsAbsent store
    · rw [cancel_absent_answers absent]
      exact ⟨sound,whole⟩
    · rw [on_store_eq absent]
      exact ((steady_of_reads (reads_lift _)).bind (fun plan => (plan_atomic durable plan).steady)) store sound whole
  | ResumeDueWorkflows ios now_ms limit =>
    have each : ∀ due round, Steady (resume_each ios now_ms round due) := by
      intro due
      induction due with
      | nil => exact fun _ => steady_of_reads (reads_pure _)
      | cons self due ih => exact fun round => (persist_atomic (durable round) _ _ _ _).steady.bind (fun _ => ih (round + 1))
    refine Steady.bind ?_ (fun _ => steady_of_reads (reads_pure _))
    refine (steady_of_reads reads_get).bind (fun store => (steady_of_reads (reads_lift _)).bind (fun due => ?_))
    exact (each due 0).bind (fun _ => steady_of_reads (reads_pure _))

/-! ## Runs -/

/-- Records of workflows that have ended. -/
def Ended (pins : WorkflowInstance → List WorkflowHistoryEntry → Prop) : Prop :=
  ∀ self history, pins self history → is_terminal self.status = true

theorem workflows_preserved {pins : WorkflowInstance → List WorkflowHistoryEntry → Prop} (ended : Ended pins) :
    Preserved workflows workflowTerms (fun state view log =>
      (Living state ∧ ∀ self history, pins self history → Chronicled state self history) ∧
      ∀ seen, view = some seen → Unspoiled log → Onward state seen) := by
  have pinned : ∀ {s t : State}, Settled s t → (∀ self history, pins self history → Chronicled s self history) →
      ∀ self history, pins self history → Chronicled t self history := by
    intro s t settled recorded self history pin
    have now := recorded self history pin
    exact now.congr (settled self history now (ended self history pin))
  constructor
  · exact fun call state ok => store_call_steady ok.1
  · exact fun call view ok => workflow_call_stages ok.1
  · rintro call store log ⟨durable,fresh⟩ ⟨⟨living,recorded⟩,-⟩
    have onward := store_call_onward durable living fresh
    exact ⟨⟨onward.living,pinned onward.settled recorded⟩,by simp⟩
  · rintro state log ⟨⟨living,recorded⟩,-⟩
    refine ⟨⟨living,recorded⟩,?_⟩
    rintro _ ⟨⟩ -
    exact .refl living
  · rintro call tx log ⟨durable,fresh⟩ ⟨now,seen⟩
    refine ⟨now,?_⟩
    rintro _ ⟨⟩ unspoiled
    obtain ⟨before,whole⟩ := unspoiled_snoc unspoiled
    have onward := seen tx.view rfl before
    unfold after
    cases result : workflows.on_tx call tx with
    | ok reply u => exact onward.trans (staged_onward onward.living fresh result)
    | error e u =>
      show Onward tx.store.state u.view
      rw [(workflow_call_stages durable).unspoiled result whole]
      exact onward
  · rintro state view next log same ⟨now,seen⟩
    refine ⟨now,?_⟩
    rintro _ ⟨⟩ unspoiled
    have onward := seen view rfl unspoiled
    refine ⟨onward.living.congr same,?_⟩
    intro self history recorded over_now key own
    rw [same key (of_workflow_inside own),onward.settled self history recorded over_now key own]
  · rintro state view next log unspoiled same ⟨⟨-,recorded⟩,seen⟩
    have onward := (seen view rfl unspoiled).same same
    exact ⟨⟨onward.living,pinned onward.settled recorded⟩,by simp⟩
  · rintro state view log ⟨now,-⟩
    exact ⟨now,by simp⟩

/-- In every state that a run on a new store reaches, with no write cut short and
    every commit confirmed, every workflow is somewhere in its life; and once it has ended, it stays as it is whatever runs later. -/
theorem workflow_life_cycle {io : Io} {path : Path} {options : StoreOptions} {store : Store} {left : Bytes}
    (opened : open_with_options io path options [] = .ok store left) {moves later : List (Move WorkflowStoreCall WorkflowCall)}
    (along : (Play.mk (.Idle store) []).Along workflows workflowTerms (moves ++ later)) :
    let reached := (Play.steps workflows ⟨.Idle store,[]⟩ moves).session.store
    let last := (Play.steps workflows ⟨.Idle store,[]⟩ (moves ++ later)).session.store
    (∀ id, LifeCycle reached id) ∧
    ∀ id self, reached.get_workflow id = .ok (some self) → is_terminal self.status = true →
      last.get_workflow id = .ok (some self) ∧ last.workflow_history id = reached.workflow_history id := by
  obtain ⟨first,second⟩ := Play.along_append.mp along
  have kept := play_invariant (@workflows_preserved _ (fun _ _ => False) (fun _ _ pin => pin.elim)) ⟨⟨living_empty,by simp⟩,by simp⟩ opened first
  obtain ⟨⟨living,-⟩,seen⟩ := kept.holds
  refine ⟨living.cycles,?_⟩
  intro id self found ended
  obtain ⟨rfl,history,recorded⟩ := living.found (store_found_ok.mpr found)
  -- what has ended is pinned, and the rest of the run keeps it
  have pinned : Ended (fun other others => other = self ∧ others = history) := by
    rintro _ _ ⟨rfl,-⟩
    exact ended
  have start : (Play.steps workflows ⟨.Idle store,[]⟩ moves).Kept (fun state view log =>
      (Living state ∧ ∀ other others, other = self ∧ others = history → Chronicled state other others) ∧
      ∀ seen, view = some seen → Unspoiled log → Onward state seen) := by
    refine ⟨kept.session,kept.whole,⟨living,?_⟩,seen⟩
    rintro _ _ ⟨rfl,rfl⟩
    exact recorded
  have finish := start.steps (workflows_preserved pinned) second
  have still := finish.holds.1.2 self history ⟨rfl,rfl⟩
  have joined : Play.steps workflows ⟨.Idle store,[]⟩ (moves ++ later) =
      Play.steps workflows (Play.steps workflows ⟨.Idle store,[]⟩ moves) later := by simp [Play.steps]
  rw [joined,still.read.1,still.read.2,recorded.read.2]
  exact ⟨rfl,rfl⟩

end

def wfId : WorkflowId := .filled 7

/-- A workflow waits for a signal in a transaction that is rolled back, then for a timer that fires, and ends. -/
def waitedAndEnded : List (Move WorkflowStoreCall WorkflowCall) :=
  [.Begin,.CallTx (.WaitForSignal calm wfId [2] 1),.Rollback,.Call (.Operation (.WaitUntil calm wfId 5 2)),
    .Call (.ResumeDueWorkflows (fun _ => calm) 5 1),.Call (.Operation (.CompleteWorkflow calm wfId [3] 6))]

/-- Someone tries to go on with it. -/
def goneOn : List (Move WorkflowStoreCall WorkflowCall) :=
  [.Call (.Operation (.SetWorkflowStep calm wfId [4] [] 7)),.Reopen calm ["a.vstore"] .default]

def startedWorkflow : Move WorkflowStoreCall WorkflowCall := .Call (.Operation (.CreateWorkflow calm (some wfId) [1] [1] [] none 0))

theorem waited_and_ended_cycles : ∃ store left, @open_with_options crates calm ["a.vstore"] .default [] = .ok store left ∧
    ∀ id, LifeCycle (@Play.steps crates _ _ _ _ (@workflows crates) ⟨.Idle store,[]⟩ (startedWorkflow :: waitedAndEnded)).session.store id := by
  obtain ⟨store,left,opened⟩ := @sound_opens crates calm [] ["a.vstore"] .default calm_faultless (.inl rfl)
  obtain ⟨-,-,-,empty,-,-⟩ := @new_store crates _ _ _ _ _ opened
  refine ⟨store,left,opened,(@workflow_life_cycle crates _ _ _ _ _ opened (startedWorkflow :: waitedAndEnded) goneOn ⟨?_,?_⟩).1⟩
  · refine ⟨calm_durable,?_⟩
    intro id _
    rw [empty]
    simp
  · refine @along_of_fine crates _ _ _ _ _ workflowTerms (fun call => call.Durable ∧ ∀ state, call.Fresh state)
      (fun call => call.io.Durable ∧ ∀ state, call.Fresh state) _ (fun state _ fine => ⟨fine.1,fine.2 state⟩)
      (fun view _ fine => ⟨fine.1,fine.2 view⟩) (fun io _ member => by simp [waitedAndEnded,goneOn] at member) ?_ _
    intro move member
    rcases List.mem_append.mp member with early | late
    · simp only [waitedAndEnded,List.mem_cons,List.not_mem_nil,or_false] at early
      rcases early with rfl | rfl | rfl | rfl | rfl | rfl
      · exact trivial
      · exact ⟨calm_durable,fun _ => trivial⟩
      · exact trivial
      · exact ⟨calm_durable,fun _ => trivial⟩
      · exact ⟨fun _ => calm_durable,fun _ => trivial⟩
      · exact ⟨calm_durable,fun _ => trivial⟩
    · simp only [goneOn,List.mem_cons,List.not_mem_nil,or_false] at late
      rcases late with rfl | rfl
      · exact ⟨calm_durable,fun _ => trivial⟩
      · exact trivial

/-- Two steps in a transaction whose commit is not confirmed, and a cancellation. -/
def cancelledAndStepped : List (Move WorkflowStoreCall WorkflowCall) :=
  [startedWorkflow,.Begin,.CallTx (.SetWorkflowStep calm wfId [4] [] 1),.CallTx (.SetWorkflowStep calm wfId [5] [] 2),.Commit unsynced,
    .Call (.Operation (.CancelWorkflow calm wfId [6] 3)),.Reopen calm ["a.vstore"] .default]

set_option maxRecDepth 20000 in
/-- After the reopening the workflow is cancelled, and its history ends with a step. -/
theorem unconfirmed_step_behind_end : ∃ store left, @open_with_options crates calm ["a.vstore"] .default [] = .ok store left ∧
    let reached := (@Play.steps crates _ _ _ _ (@workflows crates) ⟨.Idle store,[]⟩ cancelledAndStepped).session.store
    (∃ self, reached.get_workflow wfId = .ok (some self) ∧ self.status = .Cancelled) ∧
      (∃ history, reached.workflow_history wfId = .ok history ∧
        history.map WorkflowHistoryEntry.kind = [.Created,.Cancelled,.StepChanged]) ∧ ¬ LifeCycle reached wfId := by
  have evaluated : passes (@open_with_options crates calm ["a.vstore"] .default []) (fun store _ =>
      let reached := (@Play.steps crates _ _ _ _ (@workflows crates) ⟨.Idle store,[]⟩ cancelledAndStepped).session.store
      (reached.get_workflow wfId).toOption.any (fun found => found.any (fun self => decide (self.status = .Cancelled))) &&
        ((Store.scan_prefix reached (Workflow.history_prefix wfId)).mapM (fun entry => Workflow.decode_history entry.2)).toOption.any
          (fun history => decide (history.map WorkflowHistoryEntry.kind = [.Created,.Cancelled,.StepChanged]) &&
            decide (history.Pairwise (fun a b => a.sequence ≤ b.sequence)))) = true := by
    rw [crates_eq_quick]
    decide +kernel
  obtain ⟨store,left,opened,evaluated⟩ := passes_iff.mp evaluated
  obtain ⟨cancelled,told⟩ := Bool.and_eq_true_iff.mp evaluated
  obtain ⟨_,found,cancelled⟩ := any_ok_iff.mp cancelled
  obtain ⟨self,rfl,cancelled⟩ := (Option.any_eq_true _ _).mp cancelled
  have ended : self.status = .Cancelled := of_decide_eq_true cancelled
  obtain ⟨history,scanned,kinds⟩ := any_ok_iff.mp told
  obtain ⟨kinds,sorted⟩ := Bool.and_eq_true_iff.mp kinds
  have kinds : history.map WorkflowHistoryEntry.kind = [.Created,.Cancelled,.StepChanged] := of_decide_eq_true kinds
  have read : (@Play.steps crates _ _ _ _ (@workflows crates) ⟨.Idle store,[]⟩ cancelledAndStepped).session.store.workflow_history wfId =
      .ok history := by
    unfold Store.workflow_history
    rw [scanned,ok_bind,List.mergeSort_of_pairwise ((of_decide_eq_true sorted).imp decide_eq_true)]
    rfl
  refine ⟨store,left,opened,⟨self,found,ended⟩,⟨history,read,kinds⟩,?_⟩
  rintro (⟨missing,-⟩ | ⟨other,others,there,-,shown,-,-,-,last,final,follows⟩)
  · rw [found] at missing
    cases missing
  · rw [found] at there
    cases there
    rw [read] at shown
    cases shown
    have kind : last.kind = .StepChanged := by
      have tail := congrArg List.getLast? kinds
      rw [List.getLast?_map,final] at tail
      exact Option.some.inj tail
    unfold Follows at follows
    rw [kind] at follows
    simp [ended] at follows

end VoodooStore
