import VoodooStore.Streams
import VoodooStore.WorkflowCalls

/-!
# What is stored of workflows

A workflow has an instance and a history whose numbers are 0, 1, 2 and so on,
which starts with its creation and whose last entry says what the instance is
doing (`Chronicled`). Writing an instance together with the next entry keeps it so
(`Living.turn`), and no operation has anything to write for a workflow that has
ended (`plan_turns`).
-/
namespace VoodooStore
open Effects Reading Workflow Messaging
set_option linter.unusedSimpArgs false

/-! ## Spellings -/

def spelledHistory (entry : WorkflowHistoryEntry) : Bytes :=
  [VERSION] ++ (entry.sequence.to_le_bytes ++ (entry.at_ms.to_le_bytes ++ ([kind_as_u8 entry.kind] ++
    ((UInt32.ofNat entry.detail.length).to_le_bytes ++ entry.detail))))

theorem workflow_history_encoded {entry : WorkflowHistoryEntry} {encoded : Bytes} (made : Workflow.encode_history entry = .ok encoded) :
    entry.detail.length < 2 ^ 32 ∧ encoded = spelledHistory entry := by
  obtain ⟨detail,written,made⟩ := bind_ok_iff.mp made
  obtain ⟨fits,rfl⟩ := write_bytes_ok written
  cases made
  exact ⟨fits,rfl⟩

theorem kind_from_as (kind : WorkflowHistoryKind) : kind_try_from (kind_as_u8 kind) = .ok kind := by cases kind <;> rfl

theorem status_from_as (status : WorkflowStatus) : status_try_from (status_as_u8 status) = .ok status := by cases status <;> rfl

theorem decode_spelled_history {entry : WorkflowHistoryEntry} (fits : entry.detail.length < 2 ^ 32) :
    Workflow.decode_history (spelledHistory entry) = .ok entry := by
  have parsed : Parses USIZE read_history (spelledHistory entry) entry := by
    refine (parses_u8 _).bind ?_
    rw [if_neg (by simp)]
    refine (parses_u64 _).bind ((parses_i64 _).bind ((parses_u8 _).bind ?_))
    rw [kind_from_as]
    exact (parses_bytes fits).ends (parses_pure _)
  refine parsed.readAll _ ?_
  rw [USIZE]
  simp [spelledHistory]
  omega

theorem parses_wait {wait : Option WorkflowWait} {encoded : Bytes} (made : encode_wait wait = .ok encoded) :
    Parses USIZE read_wait encoded wait ∧ encoded.length ≤ 2 ^ 33 := by
  cases wait with
  | none =>
    cases made
    exact ⟨(parses_u8 0).ends (parses_pure _),by simp⟩
  | some wait =>
    cases wait with
    | Signal name =>
      obtain ⟨written,spelled,made⟩ := bind_ok_iff.mp made
      obtain ⟨fits,rfl⟩ := write_bytes_ok spelled
      cases made
      refine ⟨(parses_u8 1).bind ((parses_bytes fits).ends (parses_pure _)),?_⟩
      simp
      omega
    | Timer resume_at_ms =>
      cases made
      exact ⟨(parses_u8 2).bind ((parses_i64 _).ends (parses_pure _)),by simp⟩

theorem decode_encoded_instance {self : WorkflowInstance} {encoded : Bytes} (made : encode_instance self = .ok encoded) :
    decode_instance encoded = .ok self := by
  obtain ⟨workflow_type,first,made⟩ := bind_ok_iff.mp made
  obtain ⟨current_step,second,made⟩ := bind_ok_iff.mp made
  obtain ⟨state,third,made⟩ := bind_ok_iff.mp made
  obtain ⟨wait,last,made⟩ := bind_ok_iff.mp made
  obtain ⟨fitsType,rfl⟩ := write_bytes_ok first
  obtain ⟨fitsStep,rfl⟩ := write_bytes_ok second
  obtain ⟨fitsState,rfl⟩ := write_bytes_ok third
  obtain ⟨waits,short⟩ := parses_wait last
  cases made
  have parent : Parses USIZE (Fields.option Fields.array_16 : Fields WorkflowError _)
      (write_option (self.parent_id.map Subtype.val)) self.parent_id := parses_option _ (fun id _ => parses_array_16 id)
  have few : (write_option (self.parent_id.map Subtype.val)).length ≤ 17 := by
    cases self.parent_id with
    | none => simp [write_option]
    | some id => simp [write_option,id.property]
  refine @Parses.readAll _ _ USIZE read_instance _ self _ ?_ ?_
  · refine (parses_u8 _).bind ?_
    rw [if_neg (by simp)]
    refine (parses_array_16 _).bind ((parses_u8 _).bind ?_)
    rw [status_from_as]
    refine (parses_i64 _).bind ((parses_i64 _).bind (parent.bind ?_))
    exact (parses_bytes fitsType).bind ((parses_bytes fitsStep).bind ((parses_bytes fitsState).bind (waits.ends (parses_pure _))))
  · rw [USIZE]
    simp [self.id.property] at few ⊢
    omega

/-! ## Keys -/

/-- Keys of a fixed length behind different ids. -/
theorem id_front {front : Bytes} {a b : WorkflowId} {rest : Bytes} (inside : front ++ a.val <+: front ++ b.val ++ rest) : a = b := by
  rw [List.append_assoc,Tuples.append_front rfl] at inside
  have plain : a.val ++ [] <+: b.val ++ rest := by simpa using inside.2
  exact Subtype.ext ((Tuples.append_front (a.property.trans b.property.symm)).mp plain).1

theorem instance_key_injective {a b : WorkflowId} (same : instance_key a = instance_key b) : a = b :=
  Subtype.ext (List.append_cancel_left same)

theorem instance_key_own (id : WorkflowId) : starts_with (instance_key id) INSTANCE_PREFIX = true :=
  (starts_with_iff _ _).mpr (List.prefix_append _ _)

theorem history_key_own (id : WorkflowId) (sequence : UInt64) :
    starts_with (Workflow.history_key id sequence) (Workflow.history_prefix id) = true :=
  (starts_with_iff _ _).mpr (List.prefix_append _ _)

theorem history_key_behind {key : Bytes} {id : WorkflowId} (own : starts_with key (Workflow.history_prefix id) = true) :
    starts_with key Workflow.HISTORY_PREFIX = true := by
  rw [starts_with_iff] at own ⊢
  exact (List.prefix_append _ _).trans own

theorem instance_not_history (id : WorkflowId) {key : Bytes} (own : starts_with key Workflow.HISTORY_PREFIX = true) : instance_key id ≠ key := by
  rintro rfl
  rw [starts_with_iff] at own
  exact prefixes_apart (by decide) ((starts_with_iff _ _).mp (instance_key_own id)) own

def WORKFLOW_PREFIX : Bytes := INTERNAL_KEY_PREFIX ++ ascii "wf:"

/-- The keys of workflows. -/
def WorkflowKey (key : Bytes) : Prop := starts_with key WORKFLOW_PREFIX = true

/-- The keys of one workflow. -/
def OfWorkflow (id : WorkflowId) (key : Bytes) : Prop :=
  key = instance_key id ∨ starts_with key (Workflow.history_prefix id) = true

theorem workflow_apart {key : Bytes} (own : WorkflowKey key) : starts_with key CDC_PREFIX = false := by
  rw [Bool.eq_false_iff,ne_eq,starts_with_iff]
  exact prefixes_apart (by decide) ((starts_with_iff _ _).mp own)

theorem instance_inside {key : Bytes} (own : starts_with key INSTANCE_PREFIX = true) : WorkflowKey key := by
  unfold WorkflowKey
  rw [starts_with_iff] at own ⊢
  exact (show WORKFLOW_PREFIX <+: INSTANCE_PREFIX by decide).trans own

theorem history_inside {key : Bytes} (own : starts_with key Workflow.HISTORY_PREFIX = true) : WorkflowKey key := by
  unfold WorkflowKey
  rw [starts_with_iff] at own ⊢
  exact (show WORKFLOW_PREFIX <+: Workflow.HISTORY_PREFIX by decide).trans own

theorem of_workflow_inside {id : WorkflowId} {key : Bytes} (own : OfWorkflow id key) : WorkflowKey key := by
  rcases own with rfl | behind
  · exact instance_inside (instance_key_own id)
  · exact history_inside (history_key_behind behind)

/-! ## Records -/

/-- What the last entry of its history says of an instance. -/
def Follows (self : WorkflowInstance) (last : WorkflowHistoryEntry) : Prop :=
  match last.kind with
  | .Created | .StepChanged | .SignalReceived | .TimerFired => self.status = .Running ∧ self.wait = none
  | .WaitingSignal => self.status = .Waiting ∧ self.wait = some (.Signal last.detail)
  | .WaitingTimer => self.status = .Waiting ∧ ∃ resume_at_ms, self.wait = some (.Timer resume_at_ms)
  | .Completed => self.status = .Completed ∧ self.wait = none
  | .Failed => self.status = .Failed ∧ self.wait = none
  | .Cancelled => self.status = .Cancelled ∧ self.wait = none

theorem Follows.waits {self : WorkflowInstance} {last : WorkflowHistoryEntry} (follows : Follows self last) :
    self.wait ≠ none ↔ self.status = .Waiting := by
  unfold Follows at follows
  cases kind : last.kind <;> simp only [kind] at follows
  case WaitingTimer =>
    obtain ⟨status,resume_at_ms,wait⟩ := follows
    simp [status,wait]
  all_goals simp [follows.1,follows.2]

/-- The map holds an instance and its history. -/
structure Chronicled (state : State) (workflow : WorkflowInstance) (history : List WorkflowHistoryEntry) : Prop where
  stored : ∃ encoded, state[instance_key workflow.id]? = some encoded ∧ encode_instance workflow = .ok encoded
  lined : Lined (Workflow.history_prefix workflow.id) WorkflowHistoryEntry.sequence spelledHistory history state
  fits : ∀ entry ∈ history, entry.detail.length < 2 ^ 32
  numbered : history.map (fun entry => entry.sequence.toNat) = List.range history.length
  begins : history.head?.map WorkflowHistoryEntry.kind = some .Created
  ends : ∃ last, history.getLast? = some last ∧ Follows workflow last

/-- The map holds nothing of a workflow. -/
structure Blank (state : State) (id : WorkflowId) : Prop where
  unknown : state[instance_key id]? = none
  silent : Lined (Workflow.history_prefix id) WorkflowHistoryEntry.sequence spelledHistory [] state

/-- Every workflow is recorded, or nothing is known of it. -/
structure Living (state : State) : Prop where
  each : ∀ id, Blank state id ∨ ∃ self history, self.id = id ∧ Chronicled state self history
  keyed : ∀ key value, starts_with key INSTANCE_PREFIX = true → state[key]? = some value → ∃ id, key = instance_key id

section
variable {s t : State} {self new : WorkflowInstance} {history : List WorkflowHistoryEntry} {id : WorkflowId} {entry : WorkflowHistoryEntry}

theorem Chronicled.congr (recorded : Chronicled s self history) (same : ∀ key, OfWorkflow self.id key → t[key]? = s[key]?) :
    Chronicled t self history := by
  refine { recorded with stored := ?_,lined := recorded.lined.congr (fun key own => same key (.inr own)) }
  rw [same _ (.inl rfl)]
  exact recorded.stored

theorem Blank.congr (blank : Blank s id) (same : ∀ key, OfWorkflow id key → t[key]? = s[key]?) : Blank t id := by
  refine ⟨?_,blank.silent.congr (fun key own => same key (.inr own))⟩
  rw [same _ (.inl rfl)]
  exact blank.unknown

theorem living_empty : Living ∅ := by
  refine ⟨fun id => .inl ⟨by simp,lined_empty⟩,?_⟩
  intro key value _ found
  simp at found

theorem Living.congr (living : Living s) (same : ∀ key, WorkflowKey key → t[key]? = s[key]?) : Living t := by
  refine ⟨?_,?_⟩
  · intro id
    have here : ∀ other : WorkflowId, ∀ key, OfWorkflow other key → t[key]? = s[key]? := fun other key own => same key (of_workflow_inside own)
    rcases living.each id with blank | ⟨self,history,is,recorded⟩
    · exact .inl (blank.congr (here id))
    · exact .inr ⟨self,history,is,recorded.congr (here self.id)⟩
  · intro key value own found
    rw [same key (instance_inside own)] at found
    exact living.keyed key value own found

theorem Living.same (living : Living s) (same : SameData s t) : Living t :=
  living.congr (fun key own => same key (workflow_apart own))

theorem Chronicled.same (recorded : Chronicled s self history) (same : SameData s t) : Chronicled t self history :=
  recorded.congr (fun key own => same key (workflow_apart (of_workflow_inside own)))

/-! ## Lookups -/

/-- What an operation finds in a map. -/
def lookupIn (state : State) : Lookup :=
  ⟨fun id => state[instance_key id]?.mapM decode_instance,fun id => sequence_after id (scan state (Workflow.history_prefix id))⟩

theorem store_lookup_eq (store : Store) : store.lookup = lookupIn store.state := rfl

theorem tx_lookup_eq (tx : Transaction) : tx.lookup = lookupIn tx.view := by
  unfold Transaction.lookup lookupIn Transaction.next_workflow_history_sequence_tx
  congr 1
  · funext id
    rw [get_internal_eq]
  · funext id
    rw [scan_prefix_internal_eq]

theorem decode_sequence_of (id : WorkflowId) (sequence : UInt64) :
    Workflow.decode_history_sequence id (Workflow.history_key id sequence) = .ok sequence := by
  have own := history_key_own id sequence
  have size : (Workflow.history_key id sequence).length = (Workflow.history_prefix id).length + 8 := by simp [Workflow.history_key]
  have bound : sequence.toNat < 256 ^ 8 := sequence.toNat_lt
  unfold Workflow.decode_history_sequence
  dsimp only
  rw [own,size,if_neg (by simp),Workflow.history_key,List.drop_left,UInt64.from_be_bytes,UInt64.to_be_bytes,Endian.ofBe_toBe bound,
    UInt64.ofNat_toNat]

theorem Chronicled.last_number (recorded : Chronicled s self history) {last : WorkflowHistoryEntry} (is : history.getLast? = some last) :
    last.sequence.toNat + 1 = history.length := by
  have ends := congrArg List.getLast? recorded.numbered
  rw [List.getLast?_map,is,List.getLast?_range] at ends
  simp only [Option.map_some] at ends
  split at ends
  · cases ends
  · rename_i some_there
    have same := Option.some.inj ends
    omega

/-- The next number is the length of the history. -/
theorem Chronicled.sequence (recorded : Chronicled s self history) {sequence : UInt64} (counted : (lookupIn s).sequence self.id = .ok sequence) :
    sequence.toNat = history.length := by
  obtain ⟨last,is,-⟩ := recorded.ends
  unfold lookupIn sequence_after at counted
  dsimp only at counted
  rw [recorded.lined.scan,List.getLast?_map,is,Option.map_some] at counted
  dsimp only at counted
  rw [show Workflow.history_prefix self.id ++ last.sequence.to_be_bytes = Workflow.history_key self.id last.sequence from rfl,
    decode_sequence_of,ok_bind] at counted
  have above := u64_checked_add_some (ok_or_ok.mp counted)
  rw [UInt64.toNat_one,recorded.last_number is] at above
  exact above

theorem Chronicled.found (recorded : Chronicled s self history) : (lookupIn s).instance_of self.id = .ok (some self) := by
  obtain ⟨encoded,there,made⟩ := recorded.stored
  unfold lookupIn
  dsimp only
  rw [there,Option.mapM_some,decode_encoded_instance made]
  rfl

/-- An instance that is found is recorded under its own id. -/
theorem Living.found (living : Living s) (found : (lookupIn s).found id = .ok self) :
    self.id = id ∧ ∃ history, Chronicled s self history := by
  obtain ⟨there,read,is⟩ := bind_ok_iff.mp found
  rw [ok_or_ok.mp is] at read
  rcases living.each id with blank | ⟨other,history,rfl,recorded⟩
  · unfold lookupIn at read
    dsimp only at read
    rw [blank.unknown] at read
    cases read
  · rw [recorded.found] at read
    cases read
    exact ⟨rfl,history,recorded⟩

/-! ## Turns -/

/-- What an operation may write: a new workflow with the first entry of its
    history, or an active one with the next entry. -/
inductive Turn (state : State) (new : WorkflowInstance) (entry : WorkflowHistoryEntry) : Prop
  | begins (blank : Blank state new.id) (first : entry.sequence = 0) (created : entry.kind = .Created) (follows : Follows new entry)
  | goes (old : WorkflowInstance) (history : List WorkflowHistoryEntry) (recorded : Chronicled state old history) (same : old.id = new.id)
      (active : is_terminal old.status = false) (next : entry.sequence.toNat = history.length) (follows : Follows new entry)

/-- A map with an instance and an entry of its history. -/
def turned (state : State) (new : WorkflowInstance) (entry : WorkflowHistoryEntry) (encoded : Bytes) : State :=
  (state.insert (instance_key new.id) encoded).insert (Workflow.history_key new.id entry.sequence) (spelledHistory entry)

theorem turned_other {encoded key : Bytes} (other : ¬ OfWorkflow new.id key) : (turned s new entry encoded)[key]? = s[key]? := by
  unfold turned
  rw [get_insert,if_neg,get_insert,if_neg]
  · rintro rfl
    exact other (.inl rfl)
  · rintro rfl
    exact other (.inr (history_key_own _ _))

theorem of_different {a b : WorkflowId} (different : a ≠ b) {key : Bytes} (own : OfWorkflow a key) : ¬ OfWorkflow b key := by
  rintro (rfl | behind)
  · rcases own with same | mine
    · exact different (instance_key_injective same).symm
    · exact instance_not_history b (history_key_behind mine) rfl
  · rcases own with rfl | mine
    · exact instance_not_history a (history_key_behind behind) rfl
    · rw [starts_with_iff] at mine behind
      obtain ⟨rest,rfl⟩ := behind
      exact different (id_front mine)

/-- The history grows by the next entry. -/
theorem Turn.recorded {encoded : Bytes} (turn : Turn s new entry) (made : encode_instance new = .ok encoded)
    (short : entry.detail.length < 2 ^ 32) : ∃ history, Chronicled (turned s new entry encoded) new (history ++ [entry]) := by
  have stored : (turned s new entry encoded)[instance_key new.id]? = some encoded := by
    have apart : Workflow.history_key new.id entry.sequence ≠ instance_key new.id :=
      Ne.symm (instance_not_history _ (history_key_behind (history_key_own _ _)))
    rw [turned,get_insert,if_neg apart,get_insert,if_pos rfl]
  have lined : ∀ history : List WorkflowHistoryEntry,
      Lined (Workflow.history_prefix new.id) WorkflowHistoryEntry.sequence spelledHistory history s →
      (∀ other ∈ history, other.sequence < entry.sequence) →
      Lined (Workflow.history_prefix new.id) WorkflowHistoryEntry.sequence spelledHistory (history ++ [entry]) (turned s new entry encoded) := by
    intro history before last
    refine Lined.snoc (before.congr ?_) last
    intro key own
    rw [get_insert,if_neg (instance_not_history _ (history_key_behind own))]
  cases turn with
  | begins blank first created follows =>
    refine ⟨[],⟨encoded,stored,made⟩,lined [] blank.silent (by simp),?_,?_,?_,entry,by simp,follows⟩
    · simpa using short
    · simp [first]
    · simp [created]
  | goes old history recorded same active next follows =>
    have lower : ∀ other ∈ history, other.sequence < entry.sequence := by
      intro other member
      have among : other.sequence.toNat ∈ history.map (fun entry => entry.sequence.toNat) := List.mem_map.mpr ⟨other,member,rfl⟩
      rw [recorded.numbered,List.mem_range] at among
      rw [UInt64.lt_iff_toNat_lt,next]
      exact among
    have some_there : history ≠ [] := by
      rintro rfl
      obtain ⟨last,is,-⟩ := recorded.ends
      cases is
    refine ⟨history,⟨encoded,stored,made⟩,lined history (by rw [← same]; exact recorded.lined) lower,?_,?_,?_,entry,by simp,follows⟩
    · intro other member
      rcases List.mem_append.mp member with early | last
      · exact recorded.fits other early
      · rw [List.mem_singleton.mp last]
        exact short
    · rw [List.map_append,recorded.numbered,List.length_append,List.length_singleton,List.range_succ,List.map_singleton,next]
    · rw [List.head?_append_of_ne_nil _ some_there]
      exact recorded.begins

/-- Every workflow is recorded after a turn too. -/
theorem Living.turn {encoded : Bytes} (living : Living s) (turn : Turn s new entry) (made : encode_instance new = .ok encoded)
    (short : entry.detail.length < 2 ^ 32) : Living (turned s new entry encoded) := by
  refine ⟨?_,?_⟩
  · intro id
    by_cases here : id = new.id
    · obtain ⟨history,recorded⟩ := turn.recorded made short
      exact .inr ⟨new,_,here.symm,recorded⟩
    · have elsewhere : ∀ key, OfWorkflow id key → (turned s new entry encoded)[key]? = s[key]? :=
        fun key own => turned_other (of_different here own)
      rcases living.each id with blank | ⟨self,history,rfl,recorded⟩
      · exact .inl (blank.congr elsewhere)
      · exact .inr ⟨self,history,rfl,recorded.congr elsewhere⟩
  · intro key value own found
    by_cases mine : OfWorkflow new.id key
    · rcases mine with rfl | behind
      · exact ⟨new.id,rfl⟩
      · rw [starts_with_iff] at own
        have inside := (starts_with_iff _ _).mp (history_key_behind behind)
        exact absurd inside (prefixes_apart (by decide) own)
    · rw [turned_other mine] at found
      exact living.keyed key value own found

/-- What has ended in one map is the same in the other. -/
def Settled (s t : State) : Prop :=
  ∀ self history, Chronicled s self history → is_terminal self.status = true → ∀ key, OfWorkflow self.id key → t[key]? = s[key]?

theorem Settled.refl (s : State) : Settled s s := fun _ _ _ _ _ _ => rfl

theorem Settled.trans {u : State} (first : Settled s t) (second : Settled t u) : Settled s u := by
  intro self history recorded ended key own
  have later : Chronicled t self history := recorded.congr (first self history recorded ended)
  rw [second self history later ended key own,first self history recorded ended key own]

theorem Settled.same {u : State} (settled : Settled s t) (same : SameData t u) : Settled s u := by
  intro self history recorded ended key own
  rw [same key (workflow_apart (of_workflow_inside own)),settled self history recorded ended key own]

/-- A workflow has one record. -/
theorem Chronicled.unique {other : WorkflowInstance} {others : List WorkflowHistoryEntry} (recorded : Chronicled s self history)
    (again : Chronicled s other others) (same : self.id = other.id) : self = other := by
  have one := recorded.found
  have two := again.found
  rw [same,two] at one
  cases one
  rfl

theorem Turn.settled {encoded : Bytes} (turn : Turn s new entry) : Settled s (turned s new entry encoded) := by
  intro self history recorded ended key own
  refine turned_other (of_different ?_ own)
  intro same
  cases turn with
  | begins blank first created follows =>
    obtain ⟨value,there,-⟩ := recorded.stored
    rw [same,blank.unknown] at there
    cases there
  | goes old before old_recorded is active next follows =>
    have one := recorded.unique old_recorded (same.trans is.symm)
    rw [one,active] at ended
    cases ended

/-! ## What the operations plan -/

/-- A new workflow is given an id of which nothing is known. -/
def WorkflowCall.Fresh (state : State) : WorkflowCall → Prop
  | .CreateWorkflow _ entropy _ _ _ _ _ => ∀ id, entropy = some id → state[instance_key id]? = none
  | _ => True

theorem Living.blank (living : Living s) (unknown : s[instance_key id]? = none) : Blank s id := by
  rcases living.each id with blank | ⟨self,history,rfl,recorded⟩
  · exact blank
  · obtain ⟨value,there,-⟩ := recorded.stored
    rw [unknown] at there
    cases there

/-- An active instance is written with the next entry of its history. -/
theorem record_turns (recorded : Chronicled s self history) (active : is_terminal self.status = false) {reply : WorkflowReply}
    {next : WorkflowInstance} {at_ms : Int64} {kind : WorkflowHistoryKind} {detail : Bytes} {plan : Plan}
    (made : (lookupIn s).record reply next at_ms kind detail = .ok plan) (writes : plan.writes = some (new,entry))
    (same : self.id = next.id) (follows : ∀ sequence, Follows next ⟨sequence,at_ms,kind,detail⟩) : Turn s new entry := by
  obtain ⟨sequence,counted,rfl⟩ := record_writes made
  cases writes
  rw [← same] at counted
  exact .goes self history recorded same active (recorded.sequence counted) (follows sequence)

theorem active_turns (living : Living s) {change : WorkflowInstance → WorkflowInstance} {at_ms : Int64} {kind : WorkflowHistoryKind}
    {detail : Bytes} {plan : Plan} (made : active_plan (lookupIn s) id change at_ms kind detail = .ok plan)
    (writes : plan.writes = some (new,entry)) (same : ∀ self, (change self).id = self.id)
    (follows : ∀ self sequence, Follows (change self) ⟨sequence,at_ms,kind,detail⟩) : Turn s new entry := by
  obtain ⟨self,found,made⟩ := bind_ok_iff.mp made
  obtain ⟨_,active,made⟩ := bind_ok_iff.mp made
  obtain ⟨-,history,recorded⟩ := living.found found
  unfold ensure_active at active
  obtain ⟨active,-⟩ := refuse_ok_iff.mp active
  exact record_turns recorded (Bool.eq_false_iff.mpr active) made writes (same self).symm (follows self)

/-- Whatever an operation writes is a turn of its workflow. -/
theorem plan_turns (living : Living s) {call : WorkflowCall} (fresh : call.Fresh s) {plan : Plan}
    (made : call.plan (lookupIn s) = .ok plan) (writes : plan.writes = some (new,entry)) : Turn s new entry := by
  cases call with
  | CreateWorkflow io entropy workflow_type initial_step initial_state parent_id now_ms =>
    obtain ⟨-,made⟩ := refuse_ok_iff.mp made
    obtain ⟨-,made⟩ := refuse_ok_iff.mp made
    obtain ⟨id,given,made⟩ := bind_ok_iff.mp made
    cases made
    cases writes
    exact .begins (living.blank (fresh id (ok_or_ok.mp given))) rfl rfl ⟨rfl,rfl⟩
  | SetWorkflowStep io id step state now_ms =>
    obtain ⟨-,made⟩ := refuse_ok_iff.mp made
    exact active_turns living made writes (fun _ => rfl) (fun _ _ => ⟨rfl,rfl⟩)
  | WaitForSignal io id signal now_ms =>
    obtain ⟨-,made⟩ := refuse_ok_iff.mp made
    exact active_turns living made writes (fun _ => rfl) (fun _ _ => ⟨rfl,rfl⟩)
  | SignalWorkflow io id signal payload now_ms =>
    obtain ⟨self,found,made⟩ := bind_ok_iff.mp made
    obtain ⟨-,history,recorded⟩ := living.found found
    split at made
    · rename_i waits
      -- the operation does not look at the status: a workflow that waits is active
      obtain ⟨last,-,follows⟩ := recorded.ends
      have waiting := follows.waits.mp (by simp [waits])
      refine record_turns recorded ?_ made writes rfl (fun _ => ⟨rfl,rfl⟩)
      rw [waiting]
      rfl
    · cases made
      cases writes
  | WaitUntil io id resume_at_ms now_ms =>
    exact active_turns living made writes (fun _ => rfl) (fun _ _ => ⟨rfl,resume_at_ms,rfl⟩)
  | CompleteWorkflow io id final_state now_ms => exact active_turns living made writes (fun _ => rfl) (fun _ _ => ⟨rfl,rfl⟩)
  | FailWorkflow io id error now_ms => exact active_turns living made writes (fun _ => rfl) (fun _ _ => ⟨rfl,rfl⟩)
  | CancelWorkflow io id reason now_ms =>
    obtain ⟨self,found,made⟩ := bind_ok_iff.mp made
    obtain ⟨-,history,recorded⟩ := living.found found
    split at made
    · cases made
      cases writes
    · rename_i active
      exact record_turns recorded (Bool.eq_false_iff.mpr active) made writes rfl (fun _ => ⟨rfl,rfl⟩)

end

end VoodooStore
