import VoodooStore.Delivery
import VoodooStore.Footprint
import VoodooStore.Lib.Choosing

/-!
# Which message is claimed

Whatever is done with a queue, the entries under its name are messages at their
own keys (`queue_use_preserved`). A claim looks at all of them and takes, among those that
are due, the one of the highest priority that was pushed first (`queue_claim_selects`).
-/
namespace VoodooStore
open Effects Reading
set_option linter.unusedSimpArgs false

/-! ## The entries of a queue -/

def entryIn (name : Bytes) (message : StoredMessage) : Bytes × Bytes := ((queueOf name).message_key message.id,message.spelling)

abbrev Messages (name : Bytes) (state : State) : Prop :=
  Holding (Queue.message_prefix (queueOf name)) (entryIn name) StoredMessage.Fits state

theorem message_prefix_inside (name : Bytes) {key : Bytes} (own : starts_with key (Queue.message_prefix (queueOf name)) = true) :
    starts_with key (queueSpace name) = true := by
  rw [starts_with_iff] at own ⊢
  exact (List.prefix_append _ _).trans own

theorem messages_congr {name : Bytes} {s t : State} (messages : Messages name s)
    (same : ∀ key, starts_with key (queueSpace name) = true → t[key]? = s[key]?) : Messages name t :=
  messages.congr (fun key own => same key (message_prefix_inside name own))

theorem messages_same {name : Bytes} {s t : State} (same : SameData s t) (messages : Messages name s) : Messages name t :=
  messages_congr messages (fun key own => same key (queue_apart name own))

/-- The counter is not a message. -/
theorem messages_count {name : Bytes} {state : State} (messages : Messages name state) (value : Bytes) :
    Messages name (state.insert (queueOf name).meta_key value) := by
  refine messages.congr ?_
  intro key own
  rw [get_insert,if_neg]
  rintro rfl
  rw [meta_not_message] at own
  cases own

/-- What a message that is stored at a key is. -/
theorem message_at {name key value : Bytes} {state : State} {message : StoredMessage} (messages : Messages name state)
    (own : starts_with key (Queue.message_prefix (queueOf name)) = true) (found : state[key]? = some value)
    (decoded : decode_message value = .ok message) : message.Fits ∧ (key,value) = entryIn name message := by
  obtain ⟨there,fits,same⟩ := messages key value own found
  have spelled : there.spelling = value := congrArg Prod.snd same
  rw [← spelled,decode_message_spelling fits] at decoded
  cases decoded
  exact ⟨fits,same.symm⟩

/-- An operation that leaves the entries messages at their own keys. -/
def Operation.Tidy (name : Bytes) : Operation → Prop
  | .Delete _ => True
  | .Put key value => key = (queueOf name).meta_key ∨ ∃ message : StoredMessage, message.Fits ∧ (key,value) = entryIn name message

theorem messages_apply {name : Bytes} {state : State} {operations : List Operation} (messages : Messages name state)
    (tidy : ∀ o ∈ operations, o.Tidy name) : Messages name (apply_operations state operations) := by
  induction operations generalizing state with
  | nil => exact messages
  | cons o operations ih =>
    refine ih ?_ (fun later member => tidy later (by simp [member]))
    have first := tidy o (by simp)
    cases o with
    | Delete key => exact messages.erase key
    | Put key value =>
      rcases first with rfl | ⟨message,fits,same⟩
      · exact messages_count messages value
      · cases same
        exact messages.insert fits

/-! ## The best message -/

/-- The handle finds the message at its key. -/
def Queue.Holds (self : Queue) (store : Store) (message : StoredMessage) : Prop :=
  self.load_message store (self.message_key message.id) = .ok (some message)

theorem held_iff {queue : Queue} {store : Store} {message : StoredMessage} :
    queue.Holds store message ↔ ∃ value, store.get (queue.message_key message.id) = some value ∧ decode_message value = .ok message := by
  unfold Queue.Holds Queue.load_message
  cases found : store.get (queue.message_key message.id) with
  | none => simp [Option.mapM_none]
  | some value =>
    rw [Option.mapM_some]
    constructor
    · intro read
      obtain ⟨decoded,reads,same⟩ := bind_ok_iff.mp read
      cases same
      exact ⟨value,rfl,reads⟩
    · rintro ⟨_,⟨⟩,reads⟩
      rw [reads]
      rfl

def outranks (a b : StoredMessage) : Bool := a.priority > b.priority ∨ a.priority = b.priority ∧ a.id < b.id

theorem outranks_iff {a b : StoredMessage} : outranks a b = true ↔
    b.priority.toInt < a.priority.toInt ∨ a.priority.toInt = b.priority.toInt ∧ a.id.toNat < b.id.toNat := by
  unfold outranks
  rw [decide_eq_true_iff,gt_iff_lt,Int32.lt_iff_toInt_lt,UInt64.lt_iff_toNat_lt,Int32.toInt_inj]

theorem outranks_order : Choosing.StrictWeak outranks := by
  constructor
  · intro a b c first second
    rw [outranks_iff] at *
    omega
  · intro a b c first second
    rw [← Bool.not_eq_true] at second
    rw [outranks_iff] at *
    omega

/-- The pass of a claim chooses among the messages that are due. -/
theorem pick_message_chooses {name : Bytes} {now_ms : Int64} {messages : List StoredMessage} {candidate : Option StoredMessage}
    (fits : ∀ message ∈ messages, message.Fits) :
    pick_message now_ms (candidate.map (fun m => ((queueOf name).message_key m.id,m))) (messages.map (entryIn name)) =
      .ok (((messages.filter (fun m => m.eligible now_ms)).foldl (Choosing.keep outranks) candidate).map
        (fun m => ((queueOf name).message_key m.id,m))) := by
  induction messages generalizing candidate with
  | nil => rfl
  | cons message messages ih =>
    have later : ∀ m ∈ messages, m.Fits := fun m member => fits m (by simp [member])
    rw [List.map_cons,entryIn,pick_message,decode_message_spelling (fits message (by simp)),ok_bind]
    cases due : message.eligible now_ms with
    | false => rw [if_pos (by simp),ih later,List.filter_cons_of_neg (by simp [due])]
    | true =>
      rw [if_neg (by simp),List.filter_cons_of_pos (by simp [due]),List.foldl_cons,Choosing.keep]
      have same : (candidate.map (fun m => ((queueOf name).message_key m.id,m))).all (fun current => message.priority > current.2.priority ∨
          message.priority = current.2.priority ∧ message.id < current.2.id) = candidate.all (outranks message) := by
        cases candidate <;> rfl
      rw [same]
      cases better : candidate.all (outranks message) with
      | true => exact @ih (some message) later
      | false => exact ih later

/-- The entries of the queue, in the order of their numbers, are the messages that its handle finds. -/
theorem messages_listed {name : Bytes} {store : Store} (stored : Messages name store.state) :
    ∃ messages : List StoredMessage, Store.scan_prefix store (Queue.message_prefix (queueOf name)) = messages.map (entryIn name) ∧
      (∀ message ∈ messages, message.Fits) ∧ ∀ message, message ∈ messages ↔ (queueOf name).Holds store message := by
  obtain ⟨messages,scanned,fits⟩ := stored.scan
  refine ⟨messages,scanned,fits,?_⟩
  intro message
  constructor
  · intro member
    have inside : entryIn name message ∈ scan store.state (Queue.message_prefix (queueOf name)) := by
      rw [scanned]
      exact List.mem_map.mpr ⟨message,member,rfl⟩
    exact held_iff.mpr ⟨message.spelling,(mem_scan.mp inside).2,decode_message_spelling (fits message member)⟩
  · intro held
    obtain ⟨value,found,decoded⟩ := held_iff.mp held
    obtain ⟨fitsMessage,spelled⟩ := message_at stored (message_key_starts _ _) found decoded
    have inside : entryIn name message ∈ scan store.state (Queue.message_prefix (queueOf name)) := by
      rw [← spelled]
      exact mem_scan.mpr ⟨message_key_starts _ _,found⟩
    rw [scanned] at inside
    obtain ⟨other,member,same⟩ := List.mem_map.mp inside
    rw [← spelling_injective (fits other member) fitsMessage (congrArg Prod.snd same)]
    exact member

/-- The message as a claim hands it out and stores it. -/
def StoredMessage.leased (message : StoredMessage) (lease_until_ms : Int64) : StoredMessage :=
  { message with attempts := message.attempts + 1, state := .Leased, lease_until_ms }

def StoredMessage.handed (message : StoredMessage) : QueueMessage :=
  ⟨message.id,message.payload,message.attempts,message.priority,message.available_at_ms,message.lease_until_ms,message.attempts⟩

/-- Nothing else that is due outranks it. -/
structure Foremost (queue : Queue) (now_ms : Int64) (store : Store) (best : StoredMessage) : Prop where
  held : queue.Holds store best
  due : best.eligible now_ms = true
  first : ∀ message, queue.Holds store message → message.eligible now_ms = true → message ≠ best →
    message.priority < best.priority ∨ message.priority = best.priority ∧ best.id < message.id

/-- The time of the lease is what is added up. -/
theorem lease_time {now_ms : Int64} {lease_duration_ms : UInt64} (small : lease_duration_ms.toNat < 2 ^ 63)
    (fits : now_ms.toInt + lease_duration_ms.toNat < 2 ^ 63) : Int64.try_from lease_duration_ms = some (.ofNat lease_duration_ms.toNat) ∧
      now_ms.checked_add (.ofNat lease_duration_ms.toNat) = some (now_ms + .ofNat lease_duration_ms.toNat) := by
  refine ⟨if_pos small,if_pos ?_⟩
  have low := Int64.le_toInt now_ms
  rw [Int64.toInt_ofNat_of_lt small]
  omega

theorem holds_elsewhere {store t : Store} {queue : Queue} {message : StoredMessage}
    (same : t.state[queue.message_key message.id]? = store.state[queue.message_key message.id]?) :
    queue.Holds t message ↔ queue.Holds store message := by
  unfold Queue.Holds Queue.load_message
  rw [show t.get (queue.message_key message.id) = store.get (queue.message_key message.id) from same]

section
variable [Hashes] {name : Bytes}

/-- Whatever a call that succeeds writes to its own queue is tidy. -/
theorem call_tidy {call : QueueCall} {store t : Store} {reply : QueueReply} (messages : Messages call.name store.state)
    (done : call.run (queueOf call.name) store = .ok reply t) :
    ∃ operations, Wrote call.name store t operations ∧ (∀ o ∈ operations, o.Tidy call.name) ∧
      ∀ value, .Put (queueOf call.name).meta_key value ∈ operations → value.length = 8 := by
  -- A message is not put at the counter's key.
  have uncounted : ∀ {name : Bytes} {id : UInt64} {message : StoredMessage} (value : Bytes),
      .Put (queueOf name).meta_key value ∈ [Operation.Put ((queueOf name).message_key id) message.spelling] → value.length = 8 := by
    intro name id message value member
    have same := List.mem_singleton.mp member
    injection same with keys values
    exact absurd keys (meta_ne_message name id)
  have settled : ∀ {name : Bytes} {id : UInt64} {generation : UInt32} {old message : StoredMessage}, Messages name store.state →
      LeasedBy name store id generation old → message.Fits → message.id = old.id →
      ∀ o ∈ [Operation.Put ((queueOf name).message_key id) message.spelling], o.Tidy name := by
    intro name id generation old message stored leased fits named o member
    obtain ⟨value,found,decoded⟩ := leased.stored
    obtain ⟨-,same⟩ := message_at stored (message_key_starts _ _) found decoded
    have here : id = old.id := message_key_injective (congrArg Prod.fst same)
    rw [List.mem_singleton.mp member]
    refine .inr ⟨message,fits,?_⟩
    rw [entryIn,named,here]
  cases call with
  | Push io name payload options =>
    obtain ⟨id,_,pushed,done⟩ := bind_ok.mp done
    cases done
    obtain ⟨next,message,wrote,-,-,fits,-⟩ := push_wrote pushed
    refine ⟨_,wrote,?_,?_⟩
    · intro o member
      rcases List.mem_cons.mp member with rfl | last
      · exact .inl rfl
      · rw [List.mem_singleton.mp last]
        exact .inr ⟨message,fits,rfl⟩
    · intro value member
      rcases List.mem_cons.mp member with same | last
      · cases same
        exact u64_to_le_length next
      · exact uncounted value last
  | Claim io name now_ms lease_duration_ms =>
    obtain ⟨claimed,_,claims,done⟩ := bind_ok.mp done
    cases done
    rcases claim_wrote claims with ⟨-,wrote⟩ | ⟨key,value,old,message,handed,-,wrote,own,found,decoded,-,fits,named,-⟩
    · exact ⟨_,wrote,by simp,by simp⟩
    · obtain ⟨-,same⟩ := message_at messages own found decoded
      cases same
      refine ⟨_,wrote,?_,fun value => uncounted value⟩
      intro o member
      rw [List.mem_singleton.mp member]
      refine .inr ⟨message,fits,?_⟩
      rw [entryIn,named]
  | Ack io name id lease_generation =>
    obtain ⟨_,_,settles,done⟩ := bind_ok.mp done
    cases done
    refine ⟨_,(ack_wrote settles).1,?_,by simp⟩
    intro o member
    rw [List.mem_singleton.mp member]
    exact trivial
  | Nack io name id lease_generation available_at_ms =>
    obtain ⟨_,_,settles,done⟩ := bind_ok.mp done
    cases done
    obtain ⟨old,message,leased,fits,named,-,-,wrote⟩ := nack_wrote settles
    exact ⟨_,wrote,settled messages leased fits named,fun value => uncounted value⟩
  | DeadLetter io name id lease_generation =>
    obtain ⟨_,_,settles,done⟩ := bind_ok.mp done
    cases done
    obtain ⟨old,message,leased,fits,named,-,-,wrote⟩ := dead_letter_wrote settles
    exact ⟨_,wrote,settled messages leased fits named,fun value => uncounted value⟩
  | PurgeDead io name =>
    obtain ⟨count,_,purged,done⟩ := bind_ok.mp done
    cases done
    obtain ⟨keys,-,wrote⟩ := purge_dead_wrote purged
    refine ⟨_,wrote,?_,by simp⟩
    intro o member
    obtain ⟨key,-,rfl⟩ := List.mem_map.mp member
    exact trivial

theorem call_keeps_messages (fits : name.length < 2 ^ 32) {call : QueueCall} (durable : call.io.Durable) :
    Keeps (Messages name) (queues.on_store call) := by
  refine keeps_of_after ?_
  intro store messages
  unfold after
  cases result : queues.on_store call store with
  | error e t =>
    show Messages name t.state
    rw [(queue_call_atomic durable).keeps store e t result]
    exact messages
  | ok reply t =>
    obtain ⟨queue,made,ran⟩ := lift_bind_ok.mp (rethrow_ok.mp result)
    obtain ⟨short,rfl⟩ := queue_new_ok made
    by_cases here : call.name = name
    · subst here
      obtain ⟨operations,wrote,tidy,-⟩ := call_tidy messages ran
      exact messages_same wrote.1 (messages_apply messages tidy)
    · obtain ⟨operations,wrote⟩ := call_wrote ran
      exact messages_congr messages (fun key own => wrote.elsewhere short fits (Ne.symm here) own)

theorem push_queue_keeps_messages (fits : name.length < 2 ^ 32) (io : Io) (queue payload : Bytes) (options : PushOptions) :
    KeepsView (Messages name) (push_queue io queue payload options) := by
  by_cases here : queue = name
  · subst here
    unfold push_queue
    split
    · exact keeps_view_of_reads (reads_throw _)
    refine KeepsView.lifted (fun ns made => ?_)
    obtain ⟨-,rfl⟩ := queue_namespace_ok made
    refine (keeps_view_of_reads reads_get).bind (fun tx => (keeps_view_of_reads (reads_lift _)).bind (fun id => ?_))
    refine (keeps_view_of_reads (reads_lift _)).bind (fun next => KeepsView.bind ?_ (fun _ => keeps_view_of_reads (reads_pure _)))
    refine KeepsView.bind (KeepsView.rethrow (put_keeps io _ _ (fun s messages => messages_count messages _))) (fun _ => ?_)
    refine KeepsView.lifted (fun entry encodes => KeepsView.rethrow (put_keeps io _ _ ?_))
    intro s messages
    obtain ⟨message,fitsMessage,rfl,rfl,-,-⟩ := encode_queue_message_ok encodes
    have inserted := messages.insert fitsMessage
    exact inserted
  · intro tx messages
    have elsewhere := push_queue_elsewhere io queue payload options tx.view tx (fun _ _ => rfl)
    cases short : decide (queue.length < 2 ^ 32) with
    | false => exact push_queue_unnamed io (of_decide_eq_false short) payload options (Messages name) tx messages
    | true =>
      have apart : ∀ view : State, AgreesOff (queueSpace queue) tx.view view → Messages name view := by
        intro view agrees
        refine messages_congr messages (fun key own => agrees key ?_)
        obtain ⟨rest,rfl⟩ := (starts_with_iff _ _).mp own
        exact space_apart fits (of_decide_eq_true short) (Ne.symm here) rest
      cases result : push_queue io queue payload options tx with
      | ok id u => rw [result] at elsewhere; exact apart u.view elsewhere
      | error e u => rw [result] at elsewhere; exact apart u.view elsewhere

/-- Any use of queues, in which others do not write to this one. -/
def queueUse (name : Bytes) : Terms QueueFailure QueueCall QueueTxCall QueueReply :=
  .plain (fun key => starts_with key (queueSpace name) = true) (fun call => call.io.Durable) (fun call => call.io.Durable)

theorem queue_use_preserved (fits : name.length < 2 ^ 32) : Preserved queues (queueUse name)
    (fun state view _ => Messages name state ∧ ∀ seen, view = some seen → Messages name seen) := by
  refine preserved_map ?_ ?_ ?_ ?_ (fun key own => queue_apart name own) (fun s t same messages => messages_congr messages same)
  · exact fun call durable => (queue_call_atomic durable).steady
  · rintro ⟨io,queue,payload,options⟩ durable
    exact ((push_queue_stages durable.1 queue payload options).bind (fun _ => stages_of_reads (reads_pure _))).rethrow
  · exact fun call durable => call_keeps_messages fits durable
  · rintro ⟨io,queue,payload,options⟩ durable
    exact KeepsView.rethrow ((push_queue_keeps_messages fits io queue payload options).bind (fun _ => keeps_view_of_reads (reads_pure _)))

/-! ## Claims -/

/-- The claim leases this message, if the engine accepts the write, and leaves the others as they are. -/
structure Takes (queue : Queue) (io : Io) (now_ms : Int64) (lease_duration_ms : UInt64) (store : Store) (best : StoredMessage) : Prop where
  leases : ∀ t, put_alone io (queue.message_key best.id) (best.leased (now_ms + .ofNat lease_duration_ms.toNat)).spelling store = .ok () t →
    queue.claim io now_ms lease_duration_ms store = .ok (some (best.leased (now_ms + .ofNat lease_duration_ms.toNat)).handed) t ∧
      queue.Holds t (best.leased (now_ms + .ofNat lease_duration_ms.toNat)) ∧
      ∀ message, message.id ≠ best.id → (queue.Holds t message ↔ queue.Holds store message)
  refused : ∀ e t, put_alone io (queue.message_key best.id) (best.leased (now_ms + .ofNat lease_duration_ms.toNat)).spelling store = .error e t →
    queue.claim io now_ms lease_duration_ms store = .error (.Store e) t ∧ t.state = store.state

/-- A claim chooses among the messages that are due. -/
theorem claim_chooses {store : Store} (messages : Messages name store.state) (io : Io) {now_ms : Int64} {lease_duration_ms : UInt64}
    (small : lease_duration_ms.toNat < 2 ^ 63) (fits : now_ms.toInt + lease_duration_ms.toNat < 2 ^ 63) :
    ((¬ ∃ message, (queueOf name).Holds store message ∧ message.eligible now_ms = true) ∧
      (queueOf name).claim io now_ms lease_duration_ms store = .ok none store) ∨
    ∃ best, Foremost (queueOf name) now_ms store best ∧ best.Fits ∧ (queueOf name).claim io now_ms lease_duration_ms store = (do
      let attempts ← lift (ok_or .AttemptExhausted (best.attempts.checked_add 1))
      let message := { best with attempts, state := .Leased, lease_until_ms := now_ms + .ofNat lease_duration_ms.toNat }
      let encoded ← lift (encode_message message)
      rethrow .Store (put_alone io ((queueOf name).message_key best.id) encoded)
      return some message.handed : EStateM QueueError Store (Option QueueMessage)) store := by
  obtain ⟨listed,scanned,fitting,held⟩ := messages_listed messages
  obtain ⟨converted,added⟩ := lease_time small fits
  have picked := @pick_message_chooses name now_ms listed none fitting
  rw [Option.map_none,show List.foldl _ none _ = Choosing.choose outranks (listed.filter (fun m => m.eligible now_ms)) from rfl] at picked
  have due : ∀ message, message ∈ listed.filter (fun m => m.eligible now_ms) ↔
      (queueOf name).Holds store message ∧ message.eligible now_ms = true := by
    intro message
    rw [List.mem_filter,held]
  have started : (queueOf name).claim io now_ms lease_duration_ms store = (do
      let picked ← lift (pick_message now_ms none (listed.map (entryIn name)))
      picked.elim (return none) (fun found => do
        let attempts ← lift (ok_or .AttemptExhausted (found.2.attempts.checked_add 1))
        let message := { found.2 with attempts, state := .Leased, lease_until_ms := now_ms + .ofNat lease_duration_ms.toNat }
        let encoded ← lift (encode_message message)
        rethrow .Store (put_alone io found.1 encoded)
        return some message.handed) : EStateM QueueError Store (Option QueueMessage)) store := by
    unfold Queue.claim
    rw [converted,lift_bind_run]
    show (lift (ok_or QueueError.TimeOverflow (now_ms.checked_add _)) >>= _) store = _
    rw [added,lift_bind_run]
    show (lift (pick_message now_ms none (Store.scan_prefix store _)) >>= _) store = _
    rw [scanned]
    cases found : pick_message now_ms none (listed.map (entryIn name)) with
    | error e => rfl
    | ok picked => cases picked <;> rfl
  cases chosen : Choosing.choose outranks (listed.filter (fun m => m.eligible now_ms)) with
  | none =>
    rw [chosen] at picked
    refine .inl ⟨?_,?_⟩
    · rintro ⟨message,there⟩
      have member := (due message).mpr there
      rw [Choosing.choose_eq_none.mp chosen] at member
      cases member
    · rw [started,picked]
      rfl
  | some best =>
    rw [chosen] at picked
    obtain ⟨before,after,split,first,rest⟩ := Choosing.choose_first outranks_order chosen
    have member := Choosing.choose_mem outranks_order chosen
    have there := (due best).mp member
    refine .inr ⟨best,⟨there.1,there.2,?_⟩,fitting best ((List.mem_filter.mp member).1),?_⟩
    · intro message known ready different
      have inside := (due message).mpr ⟨known,ready⟩
      rw [split] at inside
      have apart : message.id = best.id → False := by
        intro same
        have one : (queueOf name).Holds store message := known
        have other : (queueOf name).Holds store best := there.1
        unfold Queue.Holds at one other
        rw [same,other] at one
        exact different (Option.some.inj (Except.ok.inj one)).symm
      have numbers : message.id.toNat ≠ best.id.toNat := fun same => apart (UInt64.toNat.inj same)
      rw [Int32.lt_iff_toInt_lt,UInt64.lt_iff_toNat_lt,← Int32.toInt_inj]
      rcases List.mem_append.mp inside with early | late
      · have ahead := outranks_iff.mp (first message early)
        omega
      · rcases List.mem_cons.mp late with same | behind
        · exact absurd same different
        · have not_ahead := rest message behind
          rw [← Bool.not_eq_true,outranks_iff] at not_ahead
          omega
    · rw [started,picked]
      rfl

theorem claim_takes {store : Store} {io : Io} {now_ms : Int64} {lease_duration_ms : UInt64} {best : StoredMessage} (fits : best.Fits)
    (room : best.attempts.toNat + 1 < 2 ^ 32)
    (claims : (queueOf name).claim io now_ms lease_duration_ms store = (do
      let attempts ← lift (ok_or .AttemptExhausted (best.attempts.checked_add 1))
      let message := { best with attempts, state := .Leased, lease_until_ms := now_ms + .ofNat lease_duration_ms.toNat }
      let encoded ← lift (encode_message message)
      rethrow .Store (put_alone io ((queueOf name).message_key best.id) encoded)
      return some message.handed : EStateM QueueError Store (Option QueueMessage)) store) :
    Takes (queueOf name) io now_ms lease_duration_ms store best := by
  let leased := best.leased (now_ms + .ofNat lease_duration_ms.toNat)
  have raised : best.attempts.checked_add 1 = some (best.attempts + 1) := if_pos room
  have encoded : encode_message leased = .ok leased.spelling := by
    unfold encode_message
    rw [show write_bytes QueueError.PayloadTooLarge leased.payload = _ from write_bytes_fits fits]
    rfl
  have written : (queueOf name).claim io now_ms lease_duration_ms store = (do
      rethrow .Store (put_alone io ((queueOf name).message_key best.id) leased.spelling)
      return some leased.handed : EStateM QueueError Store (Option QueueMessage)) store := by
    rw [claims,raised,lift_bind_run]
    show (lift (encode_message leased) >>= _) store = _
    rw [encoded]
    rfl
  constructor
  · intro t put
    refine ⟨?_,?_,?_⟩
    · rw [written,bind_of_ok (rethrow_ok.mpr put)]
      rfl
    · have found : t.get ((queueOf name).message_key best.id) = some leased.spelling := by
        have same := put_alone_ok put ((queueOf name).message_key best.id) (queue_apart name (message_inside name best.id))
        rw [get_insert,if_pos rfl] at same
        exact same
      exact held_iff.mpr ⟨leased.spelling,found,@decode_message_spelling leased fits⟩
    · intro message different
      refine holds_elsewhere ?_
      have same := put_alone_ok put ((queueOf name).message_key message.id) (queue_apart name (message_inside name message.id))
      rw [same,get_insert,if_neg]
      intro equal
      exact different (message_key_injective equal).symm
  · intro e t failed
    refine ⟨?_,put_alone_error failed⟩
    rw [written,bind_of_error (rethrow_error.mpr ⟨e,failed,rfl⟩)]

/-- In every state that use of the queues of a new store reaches, a claim whose
    lease and its end can be counted finds nothing exactly if nothing is due, and
    otherwise leases the foremost message. -/
theorem queue_claim_selects {queue : Queue} (named : Queue.new name = .ok queue) {io : Io} {path : Path} {options : StoreOptions}
    {store : Store} {left : Bytes} (opened : open_with_options io path options [] = .ok store left)
    {moves : List (Move QueueCall QueueTxCall)} (along : (Play.mk (.Idle store) []).Along queues (queueUse name) moves) (world : Io)
    {now_ms : Int64} {lease_duration_ms : UInt64} (small : lease_duration_ms.toNat < 2 ^ 63)
    (fits : now_ms.toInt + lease_duration_ms.toNat < 2 ^ 63) :
    let reached := (Play.steps queues ⟨.Idle store,[]⟩ moves).session.store
    ((∃ t, queue.claim world now_ms lease_duration_ms reached = .ok none t) ↔
      ¬ ∃ message, queue.Holds reached message ∧ message.eligible now_ms = true) ∧
    ((∃ message, queue.Holds reached message ∧ message.eligible now_ms = true) →
      ∃ best, Foremost queue now_ms reached best ∧
        (best.attempts.toNat + 1 < 2 ^ 32 → Takes queue world now_ms lease_duration_ms reached best)) := by
  obtain ⟨short,rfl⟩ := queue_new_ok named
  have kept := play_invariant (queue_use_preserved short) ⟨holding_empty _ _ _,by simp⟩ opened along
  have messages := kept.holds.1
  dsimp only
  generalize (Play.steps queues ⟨.Idle store,[]⟩ moves).session.store = reached at messages
  rcases claim_chooses messages world small fits with ⟨none_due,claims⟩ | ⟨best,foremost,fitting,claims⟩
  · exact ⟨⟨fun _ => none_due,fun _ => ⟨reached,claims⟩⟩,fun due => absurd due none_due⟩
  · refine ⟨⟨?_,fun none_due => absurd ⟨best,foremost.held,foremost.due⟩ none_due⟩,?_⟩
    swap
    · exact fun _ => ⟨best,foremost,fun room => claim_takes fitting room claims⟩
    rintro ⟨t,nothing⟩
    rw [claims] at nothing
    obtain ⟨attempts,-,nothing⟩ := lift_bind_ok.mp nothing
    obtain ⟨encoded,-,nothing⟩ := lift_bind_ok.mp nothing
    obtain ⟨_,_,-,nothing⟩ := bind_ok.mp nothing
    cases nothing

end

/-- Three messages, of which one has a higher priority. -/
def pushedThrice : List (Move QueueCall QueueTxCall) :=
  [.Call (.Push calm [113] [1] .default),.Call (.Push calm [113] [2] ⟨0,7⟩),.Begin,.CallTx (.PushQueue calm [113] [3] .default),.Commit calm]

theorem pushed_thrice_use (play : Play QueueFailure QueueCall QueueTxCall QueueReply) :
    @Play.Along crates _ _ _ _ (@queues crates) (queueUse [113]) play pushedThrice := by
  refine @along_of_fine crates _ _ _ _ _ (queueUse [113]) (fun call => call.io.Durable) (fun call => call.io.Durable) _
    (fun _ _ durable => durable) (fun _ _ durable => durable) (fun _ _ _ => trivial) ?_ play
  intro move member
  simp only [pushedThrice,List.mem_cons,List.not_mem_nil,or_false] at member
  rcases member with rfl | rfl | rfl | rfl | rfl
  · exact calm_durable
  · exact calm_durable
  · exact trivial
  · exact calm_durable
  · exact calm_durable

set_option maxRecDepth 20000 in
/-- The second message is due with the others, and is the one that is taken. -/
theorem pushed_thrice_claims : ∃ store left, @open_with_options crates calm ["a.vstore"] .default [] = .ok store left ∧
    let reached := (@Play.steps crates _ _ _ _ (@queues crates) ⟨.Idle store,[]⟩ pushedThrice).session.store
    ((∃ t, @Queue.claim crates (queueOf [113]) calm 0 5 reached = .ok none t) ↔
      ¬ ∃ message, (queueOf [113]).Holds reached message ∧ message.eligible 0 = true) ∧
    ∃ best, Foremost (queueOf [113]) 0 reached best ∧ best.payload = [2] ∧ @Takes crates (queueOf [113]) calm 0 5 reached best := by
  have evaluated : passes (@open_with_options crates calm ["a.vstore"] .default []) (fun store _ =>
      let reached := (@Play.steps crates _ _ _ _ (@queues crates) ⟨.Idle store,[]⟩ pushedThrice).session.store
      passes (@Queue.claim crates (queueOf [113]) calm 0 5 reached) (fun taken _ => taken.any (fun message => decide (message.payload = [2]))) &&
        (Store.scan_prefix reached []).all (fun entry =>
          (decode_message entry.2).toOption.all (fun message => decide (message.attempts.toNat + 1 < 2 ^ 32)))) = true := by
    decide +kernel
  obtain ⟨store,left,opened,evaluated⟩ := passes_iff.mp evaluated
  obtain ⟨claims,counted⟩ := Bool.and_eq_true_iff.mp evaluated
  obtain ⟨taken,t,claims,second⟩ := passes_iff.mp claims
  obtain ⟨message,rfl,second⟩ := (Option.any_eq_true _ _).mp second
  have named : Queue.new [113] = .ok (queueOf [113]) := rfl
  obtain ⟨nothing,chooses⟩ :=
    @queue_claim_selects crates _ _ named _ _ _ _ _ opened _ (pushed_thrice_use _) calm 0 5 (by decide) (by decide)
  refine ⟨store,left,opened,nothing,?_⟩
  generalize (@Play.steps crates _ _ _ _ (@queues crates) ⟨.Idle store,[]⟩ pushedThrice).session.store = reached at *
  have due : ∃ message, (queueOf [113]).Holds reached message ∧ message.eligible 0 = true := by
    by_contra none_due
    obtain ⟨u,none⟩ := nothing.mpr none_due
    rw [claims] at none
    cases none
  obtain ⟨best,foremost,takes⟩ := chooses due
  have room : best.attempts.toNat + 1 < 2 ^ 32 := by
    obtain ⟨value,found,decoded⟩ := held_iff.mp foremost.held
    have member : ((queueOf [113]).message_key best.id,value) ∈ Store.scan_prefix reached [] := mem_scan.mpr ⟨rfl,found⟩
    have here := List.all_eq_true.mp counted _ member
    rw [decoded] at here
    exact of_decide_eq_true here
  have takes := takes room
  refine ⟨best,foremost,?_,takes⟩
  cases put : @put_alone crates calm ((queueOf [113]).message_key best.id) (best.leased (0 + .ofNat (5 : UInt64).toNat)).spelling reached with
  | ok x u =>
    have same := ((@Takes.leases crates _ _ _ _ _ _ takes) u put).1
    rw [claims] at same
    cases same
    exact of_decide_eq_true second
  | error e u =>
    have same := ((@Takes.refused crates _ _ _ _ _ _ takes) e u put).1
    rw [claims] at same
    cases same

set_option maxRecDepth 20000 in
/-- A lease whose end can be counted is refused before the epoch if its length alone cannot be. -/
theorem lease_before_epoch_refused : ∃ store left, @open_with_options crates calm ["a.vstore"] .default [] = .ok store left ∧
    let reached := (@Play.steps crates _ _ _ _ (@queues crates) ⟨.Idle store,[]⟩ pushedThrice).session.store
    (-1 : Int64).toInt + (2 ^ 63 : UInt64).toNat < 2 ^ 63 ∧ @Play.Along crates _ _ _ _ (@queues crates) (queueUse [113]) ⟨.Idle store,[]⟩ pushedThrice ∧
    ¬ ((∃ t, @Queue.claim crates (queueOf [113]) calm (-1) (2 ^ 63) reached = .ok none t) ∨
      ∃ message t, @Queue.claim crates (queueOf [113]) calm (-1) (2 ^ 63) reached = .ok (some message) t) := by
  obtain ⟨store,left,opened⟩ := @sound_opens crates calm [] ["a.vstore"] .default calm_faultless (.inl rfl)
  refine ⟨store,left,opened,by decide,pushed_thrice_use _,?_⟩
  have refused : ∀ reached : Store, @Queue.claim crates (queueOf [113]) calm (-1) (2 ^ 63) reached = .error .TimeOverflow reached := by
    intro reached
    unfold Queue.claim
    rw [show Int64.try_from (2 ^ 63) = none by decide]
    rfl
  rintro (⟨t,nothing⟩ | ⟨message,t,found⟩)
  · rw [refused] at nothing
    cases nothing
  · rw [refused] at found
    cases found

end VoodooStore
