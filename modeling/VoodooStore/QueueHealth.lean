import VoodooStore.QueueClaims
import VoodooStore.RecordCodecs

/-!
# The health of the queues

`Queue::stats` looks at the messages of one queue, under a prefix that ends with
the queue's name. `aggregate_stats` looks at every key of every queue and takes
those for messages that have `:m:` somewhere. Every message has, but so has the
counter of a queue whose name has it, and then the whole report fails. Without
such a queue the aggregate is the sum of the queues (`aggregate_adds_up_iff`).
-/
namespace VoodooStore
open Effects Reading
set_option linter.unusedSimpArgs false

/-! ## What is counted -/

/-- The least of the times, if there are any. -/
def Least (times : List Int64) : Option Int64 → Prop
  | none => times = []
  | some least => least ∈ times ∧ ∀ time ∈ times, least ≤ time

theorem Least.perm {first second : List Int64} (same : first.Perm second) {least : Option Int64} (is : Least first least) :
    Least second least := by
  cases least with
  | none =>
    rw [Least] at is ⊢
    rw [is] at same
    exact List.nil_perm.mp same
  | some least => exact ⟨same.mem_iff.mp is.1,fun time member => is.2 time (same.mem_iff.mpr member)⟩

theorem Least.unique {times : List Int64} {a b : Option Int64} (first : Least times a) (second : Least times b) : a = b := by
  cases a with
  | none =>
    cases b with
    | none => rfl
    | some b =>
      rw [Least] at first
      rw [first] at second
      cases second.1
  | some a =>
    cases b with
    | none =>
      rw [Least] at second
      rw [second] at first
      cases first.1
    | some b =>
      have low := first.2 b second.1
      have high := second.2 a first.1
      rw [Int64.le_antisymm low high]

def StoredMessage.ready_at (message : StoredMessage) : Option Int64 := if message.state = .Ready then some message.available_at_ms else none

/-- These are the numbers of the messages. -/
structure Tallies (stats : QueueStats) (messages : List StoredMessage) : Prop where
  total : stats.total.toNat = messages.length
  ready : stats.ready.toNat = messages.countP (fun message => message.state = .Ready)
  leased : stats.leased.toNat = messages.countP (fun message => message.state = .Leased)
  dead : stats.dead.toNat = messages.countP (fun message => message.state = .Dead)
  oldest : Least (messages.filterMap StoredMessage.ready_at) stats.oldest_ready_at_ms

theorem tallies_default : Tallies .default [] := ⟨rfl,rfl,rfl,rfl,rfl⟩

theorem Least.snoc {times : List Int64} {oldest : Int64} (is : Least times (some oldest)) (time : Int64) :
    Least (times ++ [time]) (some (min oldest time)) := by
  obtain ⟨member,below⟩ := is
  show Least _ (some (if oldest ≤ time then oldest else time))
  by_cases first : oldest ≤ time
  · rw [if_pos first]
    refine ⟨by simp [member],?_⟩
    intro other inside
    rcases List.mem_append.mp inside with early | last
    · exact below other early
    · rw [List.mem_singleton.mp last]
      exact first
  · rw [if_neg first]
    refine ⟨by simp,?_⟩
    intro other inside
    rcases List.mem_append.mp inside with early | last
    · exact Int64.le_trans (Int64.le_of_lt (Int64.not_le.mp first)) (below other early)
    · rw [List.mem_singleton.mp last]
      exact Int64.le_refl _

/-- One message more. -/
theorem Tallies.count {stats : QueueStats} {messages : List StoredMessage} (tallies : Tallies stats messages) (message : StoredMessage)
    (few : messages.length + 1 < 2 ^ 64) : ∃ next, stats.count message = .ok next ∧ Tallies next (messages ++ [message]) := by
  have total := tallies.total
  have ready := tallies.ready
  have leased := tallies.leased
  have dead := tallies.dead
  have low := @List.countP_le_length _ (fun message : StoredMessage => decide (message.state = .Ready)) messages
  have middle := @List.countP_le_length _ (fun message : StoredMessage => decide (message.state = .Leased)) messages
  have high := @List.countP_le_length _ (fun message : StoredMessage => decide (message.state = .Dead)) messages
  obtain ⟨all,added,counted⟩ := @u64_checked_add_one stats.total (by omega)
  unfold QueueStats.count
  rw [added]
  cases state : message.state with
  | Ready =>
    obtain ⟨one,more,is⟩ := @u64_checked_add_one stats.ready (by omega)
    rw [more]
    refine ⟨_,rfl,?_,?_,?_,?_,?_⟩
    · simp [counted,total]
    · simp [is,ready,state]
    · simp [leased,state]
    · simp [dead,state]
    · rw [List.filterMap_append]
      have here : [message].filterMap StoredMessage.ready_at = [message.available_at_ms] := by
        simp [StoredMessage.ready_at,state]
      rw [here]
      have oldest := tallies.oldest
      cases old : stats.oldest_ready_at_ms with
      | none =>
        rw [old,Least] at oldest
        rw [oldest]
        exact ⟨by simp,by simp⟩
      | some time =>
        rw [old] at oldest
        exact oldest.snoc _
  | Leased =>
    obtain ⟨one,more,is⟩ := @u64_checked_add_one stats.leased (by omega)
    rw [more]
    refine ⟨_,rfl,?_,?_,?_,?_,?_⟩
    · simp [counted,total]
    · simp [ready,state]
    · simp [is,leased,state]
    · simp [dead,state]
    · simpa [StoredMessage.ready_at,state] using tallies.oldest
  | Dead =>
    obtain ⟨one,more,is⟩ := @u64_checked_add_one stats.dead (by omega)
    rw [more]
    refine ⟨_,rfl,?_,?_,?_,?_,?_⟩
    · simp [counted,total]
    · simp [ready,state]
    · simp [leased,state]
    · simp [is,dead,state]
    · simpa [StoredMessage.ready_at,state] using tallies.oldest

/-- The loop counts messages that can be read. -/
theorem count_messages_tallies {stats : QueueStats} {before : List StoredMessage} {entries : List (Bytes × Bytes)}
    {messages : List StoredMessage} (tallies : Tallies stats before)
    (reads : List.Forall₂ (fun entry message => decode_message entry.2 = .ok message) entries messages)
    (few : before.length + messages.length < 2 ^ 64) :
    ∃ all, count_messages stats entries = .ok all ∧ Tallies all (before ++ messages) := by
  induction reads generalizing stats before with
  | nil => exact ⟨stats,rfl,by simpa using tallies⟩
  | @cons entry message entries messages decoded reads ih =>
    rw [List.length_cons] at few
    obtain ⟨next,counted,more⟩ := tallies.count message (by omega)
    obtain ⟨all,rest,done⟩ := ih more (by rw [List.length_append,List.length_singleton]; omega)
    refine ⟨all,?_,by simpa using done⟩
    rw [count_messages,decoded,ok_bind,counted,ok_bind]
    exact rest

theorem count_messages_reads {stats all : QueueStats} {entries : List (Bytes × Bytes)} (done : count_messages stats entries = .ok all) :
    ∀ entry ∈ entries, ∃ message, decode_message entry.2 = .ok message := by
  induction entries generalizing stats with
  | nil => simp
  | cons entry entries ih =>
    obtain ⟨key,value⟩ := entry
    obtain ⟨message,decoded,done⟩ := bind_ok_iff.mp done
    obtain ⟨next,-,done⟩ := bind_ok_iff.mp done
    intro other member
    rcases List.mem_cons.mp member with rfl | later
    · exact ⟨message,decoded⟩
    · exact ih done other later

/-! ## Which keys are taken for messages -/

theorem windows_any {size : Nat} {window bytes : Bytes} (length : window.length = size) :
    (windows size bytes).any (fun other => other = window) = true ↔ window <:+: bytes := by
  rw [List.any_eq_true]
  constructor
  · rintro ⟨other,member,same⟩
    obtain ⟨i,-,rfl⟩ := List.mem_map.mp member
    rw [← of_decide_eq_true same]
    exact (List.take_prefix _ _).isInfix.trans (List.drop_suffix _ _).isInfix
  · rintro ⟨front,rest,rfl⟩
    refine ⟨window,List.mem_map.mpr ⟨front.length,?_,?_⟩,decide_eq_true rfl⟩
    · rw [List.mem_range]
      simp only [List.length_append]
      omega
    · rw [List.append_assoc,List.drop_left,← length,List.take_left]

/-- The keys that `aggregate_stats` takes for those of messages. -/
def marked (key : Bytes) : Bool := (windows 3 key).any (fun window => window = ascii ":m:")

theorem marked_iff {key : Bytes} : marked key = true ↔ ascii ":m:" <:+: key := windows_any rfl

theorem aggregate_messages_eq (stats : QueueStats) (entries : List (Bytes × Bytes)) :
    aggregate_messages stats entries = count_messages stats (entries.filter (fun entry => marked entry.1)) := by
  induction entries generalizing stats with
  | nil => rfl
  | cons entry entries ih =>
    obtain ⟨key,value⟩ := entry
    rw [aggregate_messages]
    show (if !marked key then _ else _) = _
    cases here : marked key with
    | false =>
      rw [List.filter_cons_of_neg (by simpa using here)]
      exact ih stats
    | true =>
      rw [List.filter_cons_of_pos (by simpa using here),count_messages]
      simp only [Bool.not_true,Bool.false_eq_true,if_false,ih]

theorem message_key_marked {name key : Bytes} (own : starts_with key (Queue.message_prefix (queueOf name)) = true) :
    marked key = true ∧ starts_with key QUEUE_PREFIX = true := by
  rw [starts_with_iff] at own
  obtain ⟨rest,rfl⟩ := own
  constructor
  · rw [marked_iff]
    exact ⟨queueSpace name,rest,rfl⟩
  · rw [starts_with_iff]
    show QUEUE_PREFIX <+: QUEUE_PREFIX ++ _ ++ _ ++ _
    rw [List.append_assoc,List.append_assoc]
    exact List.prefix_append _ _

/-- The messages among entries. -/
def decoded (entries : List (Bytes × Bytes)) : List StoredMessage := entries.filterMap (fun entry => (decode_message entry.2).toOption)

theorem decoded_reads {entries : List (Bytes × Bytes)} (reads : ∀ entry ∈ entries, ∃ message, decode_message entry.2 = .ok message) :
    List.Forall₂ (fun entry message => decode_message entry.2 = .ok message) entries (decoded entries) := by
  induction entries with
  | nil => exact .nil
  | cons entry entries ih =>
    obtain ⟨message,read⟩ := reads entry (List.mem_cons_self ..)
    have here : decoded (entry :: entries) = message :: decoded entries := by
      unfold decoded
      rw [List.filterMap_cons,read]
      rfl
    rw [here]
    exact .cons read (ih (fun other member => reads other (List.mem_cons_of_mem _ member)))

theorem decoded_length {entries : List (Bytes × Bytes)} : (decoded entries).length ≤ entries.length := List.length_filterMap_le _ _

/-! ## Everything under the prefix of the queues -/

/-- The counter of a queue, or one of its messages. -/
def QueueEntry (key value : Bytes) : Prop := ∃ name, Queue.new name = .ok (queueOf name) ∧
  (key = (queueOf name).meta_key ∧ value.length = 8 ∨ ∃ message : StoredMessage, message.Fits ∧ (key,value) = entryIn name message)

def QueueBook (state : State) : Prop := ∀ key value, starts_with key QUEUE_PREFIX = true → state[key]? = some value → QueueEntry key value

theorem queue_new_some {name : Bytes} {queue : Queue} (made : Queue.new name = .ok queue) : Queue.new name = .ok (queueOf name) := by
  rw [← (queue_new_ok made).2]
  exact made

theorem queue_space_inside {name key : Bytes} (own : starts_with key (queueSpace name) = true) : starts_with key QUEUE_PREFIX = true := by
  rw [starts_with_iff] at own ⊢
  exact (List.prefix_append _ _).trans own

theorem queue_key_apart {key : Bytes} (own : starts_with key QUEUE_PREFIX = true) : starts_with key CDC_PREFIX = false := by
  rw [Bool.eq_false_iff,ne_eq,starts_with_iff]
  exact @prefixes_apart QUEUE_PREFIX CDC_PREFIX key (by decide) ((starts_with_iff _ _).mp own)

theorem meta_inside (name : Bytes) : starts_with (queueOf name).meta_key (queueSpace name) = true := by
  rw [starts_with_iff]
  exact List.prefix_append _ _

theorem QueueBook.congr {s t : State} (book : QueueBook s) (same : ∀ key, starts_with key QUEUE_PREFIX = true → t[key]? = s[key]?) :
    QueueBook t := by
  intro key value own found
  rw [same key own] at found
  exact book key value own found

theorem QueueBook.insert {state : State} (book : QueueBook state) {key value : Bytes} (entry : QueueEntry key value) :
    QueueBook (state.insert key value) := by
  intro other content own found
  rw [get_insert] at found
  split at found
  · rename_i same
    cases found
    rw [← same]
    exact entry
  · exact book other content own found

theorem QueueBook.erase {state : State} (book : QueueBook state) (key : Bytes) : QueueBook (state.erase key) := by
  intro other content own found
  rw [get_erase] at found
  split at found
  · cases found
  · exact book other content own found

/-- A key of one queue is not that of another. -/
theorem same_queue {a b key : Bytes} (fitsA : a.length < 2 ^ 32) (fitsB : b.length < 2 ^ 32)
    (first : starts_with key (queueSpace a) = true) (second : starts_with key (queueSpace b) = true) : a = b := by
  by_contra different
  obtain ⟨rest,rfl⟩ := (starts_with_iff _ _).mp first
  rw [space_apart fitsA fitsB different rest] at second
  cases second

theorem QueueBook.messages {state : State} (book : QueueBook state) {name : Bytes} (fits : name.length < 2 ^ 32) : Messages name state := by
  intro key value own found
  have inside := message_prefix_inside name own
  obtain ⟨other,made,⟨rfl,-⟩ | ⟨message,short,same⟩⟩ := book key value (queue_space_inside inside) found
  · rw [← same_queue (queue_new_ok made).1 fits (meta_inside other) inside,meta_not_message] at own
    cases own
  · refine ⟨message,short,?_⟩
    have keys : key = (queueOf other).message_key message.id := congrArg Prod.fst same
    rw [same_queue fits (queue_new_ok made).1 inside (by rw [keys]; exact message_inside other _)]
    exact same.symm

theorem book_apply {name : Bytes} {state : State} {operations : List Operation} (made : Queue.new name = .ok (queueOf name))
    (book : QueueBook state) (tidy : ∀ o ∈ operations, o.Tidy name)
    (counters : ∀ value, .Put (queueOf name).meta_key value ∈ operations → value.length = 8) :
    QueueBook (apply_operations state operations) := by
  induction operations generalizing state with
  | nil => exact book
  | cons o operations ih =>
    refine ih ?_ (fun later member => tidy later (List.mem_cons_of_mem _ member))
      (fun value member => counters value (List.mem_cons_of_mem _ member))
    have first := tidy o (List.mem_cons_self ..)
    cases o with
    | Delete key => exact book.erase key
    | Put key value =>
      rcases first with rfl | ⟨message,fits,same⟩
      · exact book.insert ⟨name,made,.inl ⟨rfl,counters value (List.mem_cons_self ..)⟩⟩
      · exact book.insert ⟨name,made,.inr ⟨message,fits,same⟩⟩

section
variable [Hashes]

theorem call_keeps_book {call : QueueCall} (durable : call.io.Durable) : Keeps QueueBook (queues.on_store call) := by
  refine keeps_of_after ?_
  intro store book
  unfold after
  cases result : queues.on_store call store with
  | error e t =>
    show QueueBook t.state
    rw [(queue_call_atomic durable).keeps store e t result]
    exact book
  | ok reply t =>
    obtain ⟨queue,made,ran⟩ := lift_bind_ok.mp (rethrow_ok.mp result)
    obtain ⟨short,rfl⟩ := queue_new_ok made
    obtain ⟨operations,wrote,tidy,counters⟩ := call_tidy (book.messages short) ran
    exact (book_apply made book tidy counters).congr (fun key own => wrote.1 key (queue_key_apart own))

theorem push_queue_keeps_book (io : Io) (queue payload : Bytes) (options : PushOptions) :
    KeepsView QueueBook (push_queue io queue payload options) := by
  unfold push_queue
  split
  · exact keeps_view_of_reads (reads_throw _)
  rename_i named
  refine KeepsView.lifted (fun ns made => ?_)
  obtain ⟨fits,rfl⟩ := queue_namespace_ok made
  have made : Queue.new queue = .ok (queueOf queue) := by
    unfold Queue.new UInt32.try_from
    rw [if_neg named,if_pos fits]
    rfl
  refine (keeps_view_of_reads reads_get).bind (fun tx => (keeps_view_of_reads (reads_lift _)).bind (fun id => ?_))
  refine (keeps_view_of_reads (reads_lift _)).bind (fun next => KeepsView.bind ?_ (fun _ => keeps_view_of_reads (reads_pure _)))
  refine KeepsView.bind (KeepsView.rethrow (put_keeps io _ _ ?_)) (fun _ => ?_)
  · intro s book
    exact book.insert ⟨queue,made,.inl ⟨rfl,u64_to_le_length next⟩⟩
  · refine KeepsView.lifted (fun entry encodes => KeepsView.rethrow (put_keeps io _ _ ?_))
    intro s book
    obtain ⟨message,fitsMessage,rfl,rfl,-,-⟩ := encode_queue_message_ok encodes
    exact book.insert ⟨queue,made,.inr ⟨message,fitsMessage,rfl⟩⟩

/-- Any use of queues, in which others do not write to queues. -/
def allQueues : Terms QueueFailure QueueCall QueueTxCall QueueReply :=
  .plain (fun key => starts_with key QUEUE_PREFIX = true) (fun call => call.io.Durable) (fun call => call.io.Durable)

theorem queues_preserved : Preserved queues allQueues (fun state view _ => QueueBook state ∧ ∀ seen, view = some seen → QueueBook seen) := by
  refine preserved_map ?_ ?_ ?_ ?_ (fun key own => queue_key_apart own) (fun s t same book => book.congr same)
  · exact fun call durable => (queue_call_atomic durable).steady
  · rintro ⟨io,queue,payload,options⟩ durable
    exact ((push_queue_stages durable.1 queue payload options).bind (fun _ => stages_of_reads (reads_pure _))).rethrow
  · exact fun call durable => call_keeps_book durable
  · rintro ⟨io,queue,payload,options⟩ durable
    exact KeepsView.rethrow ((push_queue_keeps_book io queue payload options).bind (fun _ => keeps_view_of_reads (reads_pure _)))

end

/-! ## How many keys there can be -/

theorem apply_keys {state : State} {operations : List Operation} {key : Bytes} (found : (apply_operations state operations)[key]? ≠ none) :
    state[key]? ≠ none ∨ ∃ o ∈ operations, o.key = key := by
  by_contra neither
  rw [not_or] at neither
  rw [apply_elsewhere (fun o member same => neither.2 ⟨o,member,same⟩)] at found
  exact neither.1 found

theorem committed_keys {rs : List LogRecord} {key : Bytes} (found : (committedState rs)[key]? ≠ none) :
    ∃ r ∈ rs, ∃ o, r.operation = some o ∧ o.key = key := by
  unfold committedState at found
  -- Every key comes from an operation of one of the records, whichever transactions have been applied.
  have all : ∀ (ids : List UInt64) (state : State), (∀ k : Bytes, state[k]? ≠ none → ∃ r ∈ rs, ∃ o, r.operation = some o ∧ o.key = k) →
      ∀ k : Bytes, (ids.foldl (fun state tx_id => apply_operations state (stagedBy tx_id rs)) state)[k]? ≠ none →
        ∃ r ∈ rs, ∃ o, r.operation = some o ∧ o.key = k := by
    intro ids
    induction ids with
    | nil => exact fun state known k present => known k present
    | cons id ids ih =>
      intro state known
      refine ih _ ?_
      intro k present
      rcases apply_keys present with early | ⟨o,member,same⟩
      · exact known k early
      · obtain ⟨r,inside,staged⟩ := List.mem_filterMap.mp member
        split at staged
        · exact ⟨r,inside,o,staged,same⟩
        · cases staged
  exact all (commits rs) ∅ (fun k present => absurd (by simp) present) key found

/-- A store has fewer keys than sequence numbers. -/
theorem Store.Sound.few_keys [Hashes] {store : Store} (sound : store.Sound) : store.state.toList.length < 2 ^ 64 := by
  have keys : (store.state.toList.map Prod.fst) ⊆ (records store.file).filterMap (fun r => r.operation.map Operation.key) := by
    intro _ member
    obtain ⟨⟨key,value⟩,inside,rfl⟩ := List.mem_map.mp member
    have found : store.state[key]? = some value := Std.ExtTreeMap.mem_toList_iff_getElem?_eq_some.mp inside
    rw [sound.state] at found
    obtain ⟨r,recorded,o,operates,same⟩ := @committed_keys (records store.file) key (by rw [found]; simp)
    exact List.mem_filterMap.mpr ⟨r,recorded,by rw [operates,← same]; rfl⟩
  have distinct : (store.state.toList.map Prod.fst).Nodup := by
    have all := scan_keys_nodup store.state []
    rwa [← scan_prefix_eq,scan_all] at all
  have few := (distinct.subperm keys).length_le
  have sized := List.length_filterMap_le (fun r : LogRecord => r.operation.map Operation.key) (records store.file)
  have counted := sound.log.count
  have small := store.next_sequence.toNat_lt
  rw [List.length_map] at few
  omega

/-! ## The sum of the queues -/

/-- All queues that have messages, and maybe others, each of them named once. -/
structure Covers (store : Store) (names : List Bytes) : Prop where
  distinct : names.Nodup
  named : ∀ name ∈ names, ∃ queue, Queue.new name = .ok queue
  every : ∀ name queue, Queue.new name = .ok queue → Store.scan_prefix store (Queue.message_prefix queue) ≠ [] → name ∈ names

/-- The aggregate is the sum of the queues. -/
structure AddsUp (store : Store) : Prop where
  listed : ∃ names, Covers store names
  adds : ∀ names, Covers store names → ∃ (total : QueueStats) (each : Bytes → QueueStats), aggregate_stats store = .ok total ∧
    (∀ name ∈ names, ∃ queue, Queue.new name = .ok queue ∧ queue.stats store = .ok (each name)) ∧
    total.ready.toNat = (names.map (fun name => (each name).ready.toNat)).sum ∧
    total.leased.toNat = (names.map (fun name => (each name).leased.toNat)).sum ∧
    total.dead.toNat = (names.map (fun name => (each name).dead.toNat)).sum ∧
    total.total.toNat = (names.map (fun name => (each name).total.toNat)).sum ∧
    Least (names.filterMap (fun name => (each name).oldest_ready_at_ms)) total.oldest_ready_at_ms

/-- The least of the least times is the least of all. -/
theorem Least.flat {names : List Bytes} {times : Bytes → List Int64} {least : Bytes → Option Int64} {all : Option Int64}
    (each : ∀ name ∈ names, Least (times name) (least name)) (is : Least (names.flatMap times) all) : Least (names.filterMap least) all := by
  cases all with
  | none =>
    rw [Least] at is ⊢
    rw [List.filterMap_eq_nil_iff]
    intro name member
    have empty := List.flatMap_eq_nil_iff.mp is name member
    have here := each name member
    rw [empty] at here
    cases found : least name with
    | none => rfl
    | some time =>
      rw [found] at here
      cases here.1
  | some first =>
    obtain ⟨member,below⟩ := is
    obtain ⟨name,inside,there⟩ := List.mem_flatMap.mp member
    have lower : ∀ other ∈ names, ∀ time, least other = some time → first ≤ time := by
      intro other inside time found
      have here := each other inside
      rw [found] at here
      exact below time (List.mem_flatMap.mpr ⟨other,inside,here.1⟩)
    constructor
    · have here := each name inside
      cases found : least name with
      | none =>
        rw [found,Least] at here
        rw [here] at there
        cases there
      | some time =>
        rw [found] at here
        rw [Int64.le_antisymm (lower name inside time found) (here.2 first there)]
        exact List.mem_filterMap.mpr ⟨name,inside,found⟩
    · intro time listed
      obtain ⟨other,inside,found⟩ := List.mem_filterMap.mp listed
      exact lower other inside time found

/-- The name in a key of a queue. -/
def nameIn (key : Bytes) : Bytes :=
  let rest := key.drop QUEUE_PREFIX.length
  (rest.drop 4).take (UInt32.from_be_bytes (rest.take 4)).toNat

theorem nameIn_space {name : Bytes} (fits : name.length < 2 ^ 32) (rest : Bytes) : nameIn (queueSpace name ++ rest) = name := by
  have size : (UInt32.ofNat name.length).to_be_bytes.length = 4 := u32_to_be_length _
  have key : queueSpace name ++ rest = QUEUE_PREFIX ++ ((UInt32.ofNat name.length).to_be_bytes ++ (name ++ rest)) := by
    rw [queueSpace,List.append_assoc,List.append_assoc]
  have read : UInt32.from_be_bytes (UInt32.ofNat name.length).to_be_bytes = UInt32.ofNat name.length := by
    have small : (UInt32.ofNat name.length).toNat < 256 ^ 4 := (UInt32.ofNat name.length).toNat_lt
    show UInt32.ofNat (Endian.ofBe (Endian.toBe 4 _)) = _
    rw [Endian.ofBe_toBe small,UInt32.ofNat_toNat]
  unfold nameIn
  rw [key,List.drop_left]
  dsimp only
  rw [List.drop_left' size,List.take_left' size,read,u32_of_length fits,List.take_left]

theorem QueueBook.listed {store : Store} (book : QueueBook store.state) : ∃ names, Covers store names := by
  refine ⟨((scan store.state QUEUE_PREFIX).map (fun entry => nameIn entry.1)).dedup,List.nodup_dedup _,?_,?_⟩
  · intro name member
    obtain ⟨⟨key,value⟩,inside,rfl⟩ := List.mem_map.mp (List.mem_dedup.mp member)
    obtain ⟨own,found⟩ := mem_scan.mp inside
    obtain ⟨name,made,⟨rfl,-⟩ | ⟨message,-,same⟩⟩ := book key value own found
    · exact ⟨_,(nameIn_space (queue_new_ok made).1 _).symm ▸ made⟩
    · cases same
      refine ⟨queueOf name,?_⟩
      dsimp only
      rw [message_key_inside,nameIn_space (queue_new_ok made).1]
      exact made
  · intro name queue made some_there
    obtain ⟨fits,rfl⟩ := queue_new_ok made
    obtain ⟨⟨key,value⟩,inside⟩ := List.exists_mem_of_ne_nil _ some_there
    obtain ⟨own,found⟩ := mem_scan.mp inside
    have space := message_prefix_inside name own
    rw [List.mem_dedup]
    refine List.mem_map.mpr ⟨(key,value),mem_scan.mpr ⟨queue_space_inside space,found⟩,?_⟩
    obtain ⟨rest,rfl⟩ := (starts_with_iff _ _).mp space
    exact nameIn_space fits rest

/-- Where no counter is taken for a message, what is taken are the messages of the queues. -/
theorem marked_perm {store : Store} (book : QueueBook store.state) {names : List Bytes} (covers : Covers store names)
    (unmarked : ∀ name queue, Queue.new name = .ok queue → (store.get queue.meta_key).isSome → ¬ ascii ":m:" <:+: queue.meta_key) :
    ((scan store.state QUEUE_PREFIX).filter (fun entry => marked entry.1)).Perm
      (names.flatMap (fun name => scan store.state (Queue.message_prefix (queueOf name)))) := by
  have distinct : ∀ front, (scan store.state front).Nodup := fun front => (scan_keys_nodup store.state front).of_map
  refine (List.perm_ext_iff_of_nodup ((distinct _).filter _) (List.nodup_flatMap.mpr ⟨fun name _ => distinct _,?_⟩)).mpr ?_
  · refine covers.distinct.imp_of_mem ?_
    intro a b first second different
    rw [Function.onFun,List.disjoint_left]
    rintro ⟨key,value⟩ one other
    obtain ⟨_,madeA⟩ := covers.named a first
    obtain ⟨_,madeB⟩ := covers.named b second
    exact different (same_queue (queue_new_ok madeA).1 (queue_new_ok madeB).1
      (message_prefix_inside a (mem_scan.mp one).1) (message_prefix_inside b (mem_scan.mp other).1))
  · rintro ⟨key,value⟩
    rw [List.mem_filter,List.mem_flatMap]
    constructor
    · rintro ⟨member,here⟩
      obtain ⟨own,found⟩ := mem_scan.mp member
      obtain ⟨name,made,⟨rfl,-⟩ | ⟨message,-,same⟩⟩ := book key value own found
      · refine absurd (marked_iff.mp here) (unmarked name _ made ?_)
        rw [show store.get (queueOf name).meta_key = some value from found]
        rfl
      · cases same
        have inside := mem_scan.mpr ⟨message_key_starts (queueOf name) message.id,found⟩
        refine ⟨name,covers.every name _ made ?_,inside⟩
        exact List.ne_nil_of_mem inside
    · rintro ⟨name,-,inside⟩
      obtain ⟨own,found⟩ := mem_scan.mp inside
      obtain ⟨here,starts⟩ := message_key_marked own
      exact ⟨mem_scan.mpr ⟨starts,found⟩,here⟩

theorem Messages.reads {name : Bytes} {state : State} (messages : Messages name state) :
    ∀ entry ∈ scan state (Queue.message_prefix (queueOf name)), ∃ message, decode_message entry.2 = .ok message := by
  rintro ⟨key,value⟩ member
  obtain ⟨own,found⟩ := mem_scan.mp member
  obtain ⟨message,fits,same⟩ := messages key value own found
  cases same
  exact ⟨message,decode_message_spelling fits⟩

theorem scan_length_le (state : State) (front : Bytes) : (scan state front).length ≤ state.toList.length := List.length_filter_le _ _

/-- A counter is not a message. -/
theorem counter_unreadable {value : Bytes} (size : value.length = 8) (message : StoredMessage) : decode_message value ≠ .ok message := by
  intro read
  obtain ⟨-,spelled⟩ := encode_message_ok (message_accepted.readAll read)
  have long := congrArg List.length spelled
  simp [StoredMessage.spelling] at long
  omega

theorem AddsUp.of_unmarked {store : Store} (book : QueueBook store.state) (few : store.state.toList.length < 2 ^ 64)
    (unmarked : ∀ name queue, Queue.new name = .ok queue → (store.get queue.meta_key).isSome → ¬ ascii ":m:" <:+: queue.meta_key) :
    AddsUp store := by
  refine ⟨book.listed,?_⟩
  intro names covers
  have same := marked_perm book covers unmarked
  have fits : ∀ name ∈ names, name.length < 2 ^ 32 := fun name member => (queue_new_ok (covers.named name member).choose_spec).1
  have stats : ∀ name ∈ names, ∃ one, (queueOf name).stats store = .ok one ∧
      Tallies one (decoded (scan store.state (Queue.message_prefix (queueOf name)))) := by
    intro name member
    have size := @decoded_length (scan store.state (Queue.message_prefix (queueOf name)))
    have small := scan_length_le store.state (Queue.message_prefix (queueOf name))
    obtain ⟨one,counted,here⟩ := count_messages_tallies tallies_default (decoded_reads (book.messages (fits name member)).reads) (by
      rw [List.length_nil]
      omega)
    exact ⟨one,counted,here⟩
  have each : ∀ name ∈ names, ∃ queue, Queue.new name = .ok queue ∧
      queue.stats store = .ok (((queueOf name).stats store).toOption.getD .default) := by
    intro name member
    obtain ⟨queue,made⟩ := covers.named name member
    obtain ⟨one,counted,-⟩ := stats name member
    refine ⟨queueOf name,queue_new_some made,?_⟩
    rw [counted]
    rfl
  have tallies : ∀ name ∈ names, Tallies (((queueOf name).stats store).toOption.getD .default)
      (decoded (scan store.state (Queue.message_prefix (queueOf name)))) := by
    intro name member
    obtain ⟨one,counted,here⟩ := stats name member
    rw [counted]
    exact here
  have reads : ∀ entry ∈ (scan store.state QUEUE_PREFIX).filter (fun entry => marked entry.1),
      ∃ message, decode_message entry.2 = .ok message := by
    intro entry member
    obtain ⟨name,inside,there⟩ := List.mem_flatMap.mp (same.mem_iff.mp member)
    exact (book.messages (fits name inside)).reads entry there
  have size := @decoded_length ((scan store.state QUEUE_PREFIX).filter (fun entry => marked entry.1))
  have smaller := List.length_filter_le (fun entry : Bytes × Bytes => marked entry.1) (scan store.state QUEUE_PREFIX)
  have small := scan_length_le store.state QUEUE_PREFIX
  obtain ⟨total,counted,all⟩ := count_messages_tallies tallies_default (decoded_reads reads) (by
    rw [List.length_nil]
    omega)
  rw [List.nil_append] at all
  have messages : (decoded ((scan store.state QUEUE_PREFIX).filter (fun entry => marked entry.1))).Perm
      (names.flatMap (fun name => decoded (scan store.state (Queue.message_prefix (queueOf name))))) := by
    unfold decoded
    rw [← List.filterMap_flatMap]
    exact same.filterMap _
  have sums : ∀ (count : QueueStats → UInt64) (kind : StoredMessage → Bool),
      (∀ (one : QueueStats) messages, Tallies one messages → (count one).toNat = messages.countP kind) →
      (count total).toNat = (names.map (fun name => (count (((queueOf name).stats store).toOption.getD .default)).toNat)).sum := by
    intro count kind counts
    rw [counts total _ all,messages.countP_eq,List.countP_flatMap]
    refine congrArg List.sum (List.map_congr_left ?_)
    intro name member
    exact (counts _ _ (tallies name member)).symm
  refine ⟨total,_,?_,each,sums _ _ (fun _ _ here => here.ready),sums _ _ (fun _ _ here => here.leased),
    sums _ _ (fun _ _ here => here.dead),sums _ (fun _ => true) (fun _ _ here => by rw [here.total,List.countP_true]),?_⟩
  · unfold aggregate_stats
    rw [aggregate_messages_eq]
    exact counted
  · refine Least.flat (fun name member => (tallies name member).oldest) ?_
    rw [← List.filterMap_flatMap]
    exact all.oldest.perm (messages.filterMap _)

/-- In every state reached from a new store: the aggregate is the sum of the
    queues exactly if no counter of a queue has `:m:` in its key. -/
theorem aggregate_adds_up_iff [Hashes] {io : Io} {path : Path} {options : StoreOptions} {store : Store} {left : Bytes}
    (opened : open_with_options io path options [] = .ok store left) {moves : List (Move QueueCall QueueTxCall)}
    (along : (Play.mk (.Idle store) []).Along queues allQueues moves) :
    let reached := (Play.steps queues ⟨.Idle store,[]⟩ moves).session.store
    AddsUp reached ↔ ∀ name queue, Queue.new name = .ok queue → (reached.get queue.meta_key).isSome →
      ¬ ascii ":m:" <:+: queue.meta_key := by
  obtain ⟨session,-,book,-⟩ := play_invariant queues_preserved ⟨fun key value _ found => by simp at found,by simp⟩ opened along
  intro reached
  have sound : reached.Sound := by
    show (Play.steps queues ⟨.Idle store,[]⟩ moves).session.store.Sound
    cases here : (Play.steps queues ⟨.Idle store,[]⟩ moves).session with
    | Idle store =>
      rw [here] at session
      exact session
    | Busy tx =>
      rw [here] at session
      exact session.store
  constructor
  · rintro ⟨⟨names,covers⟩,adds⟩ name queue made counted inside
    obtain ⟨total,-,added,-⟩ := adds names covers
    unfold aggregate_stats at added
    rw [aggregate_messages_eq] at added
    obtain ⟨value,found⟩ := Option.isSome_iff_exists.mp counted
    obtain ⟨fits,rfl⟩ := queue_new_ok made
    have own := queue_space_inside (meta_inside name)
    have member : ((queueOf name).meta_key,value) ∈ (scan reached.state QUEUE_PREFIX).filter (fun entry => marked entry.1) :=
      List.mem_filter.mpr ⟨mem_scan.mpr ⟨own,found⟩,marked_iff.mpr inside⟩
    obtain ⟨message,read⟩ := count_messages_reads added _ member
    obtain ⟨other,madeOther,⟨-,size⟩ | ⟨stored,-,same⟩⟩ := book _ value own found
    · exact counter_unreadable size message read
    · have keys : (queueOf name).meta_key = (queueOf other).message_key stored.id := congrArg Prod.fst same
      have here := meta_inside name
      rw [keys] at here
      rw [same_queue (queue_new_ok madeOther).1 fits (message_inside other _) here] at keys
      exact meta_ne_message name stored.id keys
  · exact AddsUp.of_unmarked book sound.few_keys

/-- Two messages in one queue and one in another, and a claim. -/
def pushedTwice (name : Bytes) : List (Move QueueCall QueueTxCall) :=
  [.Call (.Push calm name [1] ⟨5,0⟩),.Call (.Push calm [98] [2] ⟨3,0⟩),.Call (.Push calm name [3] ⟨7,0⟩),.Call (.Claim calm name 5 9)]

theorem pushed_twice_along (name : Bytes) (store : Store) :
    @Play.Along crates _ _ _ _ (@queues crates) (@allQueues) (Play.mk (.Idle store) []) (pushedTwice name) := by
  refine @along_of_fine crates _ _ _ _ _ (@allQueues) (fun call => call.io.Durable) (fun call => call.io.Durable) _
    (fun _ _ fine => fine) (fun _ _ fine => fine) (fun _ _ _ => trivial) ?_ _
  intro move member
  simp only [pushedTwice,List.mem_cons,List.not_mem_nil,or_false] at member
  rcases member with rfl | rfl | rfl | rfl
  · exact calm_durable
  · exact calm_durable
  · exact calm_durable
  · exact calm_durable

set_option maxRecDepth 20000 in
theorem two_queues_add_up : ∃ store left, @open_with_options crates calm ["a.vstore"] .default [] = .ok store left ∧
    AddsUp (@Play.steps crates _ _ _ _ (@queues crates) ⟨.Idle store,[]⟩ (pushedTwice [97])).session.store := by
  obtain ⟨store,left,opened⟩ := @sound_opens crates calm [] ["a.vstore"] .default calm_faultless (.inl rfl)
  have evaluated : passes (@open_with_options crates calm ["a.vstore"] .default []) (fun store _ =>
        let reached := (@Play.steps crates _ _ _ _ (@queues crates) ⟨.Idle store,[]⟩ (pushedTwice [97])).session.store
        (Store.scan_prefix reached QUEUE_PREFIX).all (fun entry => decide (ascii ":next" <:+ entry.1) → !marked entry.1)) = true := by decide +kernel
  rw [opened,passes_ok] at evaluated
  refine ⟨store,left,opened,(@aggregate_adds_up_iff crates _ _ _ _ _ opened _ (pushed_twice_along _ store)).mpr ?_⟩
  intro name queue made counted inside
  obtain ⟨value,found⟩ := Option.isSome_iff_exists.mp counted
  obtain ⟨-,rfl⟩ := queue_new_ok made
  have here := List.all_eq_true.mp evaluated _ (mem_scan.mpr ⟨queue_space_inside (meta_inside name),found⟩)
  have unmarked := of_decide_eq_true here (decide_eq_true (List.suffix_append _ _))
  rw [marked_iff.mpr inside] at unmarked
  cases unmarked

set_option maxRecDepth 20000 in
/-- The queue `:m:` has a counter that is taken for a message. -/
theorem marked_queue_hides_all : ∃ store left, @open_with_options crates calm ["a.vstore"] .default [] = .ok store left ∧
    @Play.Along crates _ _ _ _ (@queues crates) (@allQueues) (Play.mk (.Idle store) []) (pushedTwice (ascii ":m:")) ∧
    ¬ AddsUp (@Play.steps crates _ _ _ _ (@queues crates) ⟨.Idle store,[]⟩ (pushedTwice (ascii ":m:"))).session.store := by
  obtain ⟨store,left,opened⟩ := @sound_opens crates calm [] ["a.vstore"] .default calm_faultless (.inl rfl)
  have evaluated : passes (@open_with_options crates calm ["a.vstore"] .default []) (fun store _ =>
        let reached := (@Play.steps crates _ _ _ _ (@queues crates) ⟨.Idle store,[]⟩ (pushedTwice (ascii ":m:"))).session.store
        decide (aggregate_stats reached = .error .InvalidEncoding)) = true := by decide +kernel
  rw [opened,passes_ok] at evaluated
  refine ⟨store,left,opened,pushed_twice_along _ store,?_⟩
  rintro ⟨⟨names,covers⟩,adds⟩
  obtain ⟨total,-,added,-⟩ := adds names covers
  rw [of_decide_eq_true evaluated] at added
  cases added

end VoodooStore
