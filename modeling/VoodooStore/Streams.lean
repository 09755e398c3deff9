import VoodooStore.Delivery
import VoodooStore.Footprint
import VoodooStore.ConsumerGroup

/-!
# What a stream holds

The entries of a stream are what was appended to it, in order and below its
next offset (`Laid`), whichever way it was appended. Reading from an offset
finds the entries at or behind it (`Laid.read_from`).
-/
namespace VoodooStore
open Effects Reading Messaging
set_option linter.unusedSimpArgs false

/-! ## Keys -/

def streamSpace (name : Bytes) : Bytes := STREAM_PREFIX ++ Tuples.component 4 name

def streamOf (name : Bytes) : Stream := ⟨name,streamSpace name ++ ascii ":next",streamSpace name ++ ascii ":e:"⟩

theorem fits_iff {bytes : Bytes} : Tuples.Fits 4 bytes ↔ bytes.length < 2 ^ 32 := by
  unfold Tuples.Fits
  norm_num

theorem fits_pair {a b : Bytes} (fitsA : a.length < 2 ^ 32) (fitsB : b.length < 2 ^ 32) : ∀ c ∈ [a,b], Tuples.Fits 4 c := by
  intro c member
  rw [fits_iff]
  rcases List.mem_cons.mp member with rfl | last
  · exact fitsA
  · rw [List.mem_singleton.mp last]
    exact fitsB

/-- What the two functions that write a tuple have in common. -/
theorem written_tuple_ok {ε : Type} {too_long : ε} {write : Bytes → List Bytes → Except ε Bytes} (nil : ∀ front, write front [] = .ok front)
    (cons : ∀ front c components, write front (c :: components) = (do
      let len ← ok_or too_long (UInt32.try_from c.length)
      write (front ++ (len.to_be_bytes ++ c)) components))
    {front key : Bytes} {components : List Bytes} :
    write front components = .ok key ↔ (∀ c ∈ components, c.length < 2 ^ 32) ∧ key = front ++ Tuples.tuple 4 components := by
  induction components generalizing front with
  | nil =>
    rw [nil]
    simp [Tuples.tuple,eq_comm]
  | cons c components ih =>
    rw [cons,UInt32.try_from]
    by_cases fits : c.length < 2 ^ 32
    · rw [if_pos fits]
      show write (front ++ ((UInt32.ofNat c.length).to_be_bytes ++ c)) components = .ok key ↔ _
      rw [ih,component_eq fits,List.forall_mem_cons]
      simp only [fits,true_and,Tuples.tuple,List.flatMap_cons,List.append_assoc]
    · rw [if_neg fits]
      constructor
      · intro made
        cases made
      · rintro ⟨all,-⟩
        exact absurd (all c (by simp)) fits

theorem messaging_tuple_key_ok {front key : Bytes} {components : List Bytes} :
    Messaging.tuple_key front components = .ok key ↔
      (∀ c ∈ components, c.length < 2 ^ 32) ∧ key = front ++ Tuples.tuple 4 components :=
  written_tuple_ok (fun _ => rfl) (fun _ _ _ => rfl)

theorem tuple_key_ok {front key : Bytes} {components : List Bytes} : tuple_key front components = .ok key ↔
    (∀ c ∈ components, c.length < 2 ^ 32) ∧ key = front ++ Tuples.tuple 4 components :=
  written_tuple_ok (fun _ => rfl) (fun _ _ _ => rfl)

theorem stream_new_ok {name : Bytes} {stream : Stream} :
    Stream.new name = .ok stream ↔ name ≠ [] ∧ name.length < 2 ^ 32 ∧ stream = streamOf name := by
  unfold Stream.new validate_name
  by_cases empty : name = []
  · rw [if_pos empty]
    constructor
    · intro made
      cases made
    · exact fun facts => absurd empty facts.1
  · rw [if_neg empty,ok_bind]
    constructor
    · intro made
      obtain ⟨ns,keyed,made⟩ := bind_ok_iff.mp made
      cases made
      obtain ⟨fits,rfl⟩ := messaging_tuple_key_ok.mp keyed
      exact ⟨empty,fits name (by simp),by simp [streamOf,streamSpace,Tuples.tuple]⟩
    · rintro ⟨-,fits,rfl⟩
      rw [messaging_tuple_key_ok.mpr ⟨by simpa using fits,rfl⟩,ok_bind]
      simp [streamOf,streamSpace,Tuples.tuple]

/-- Two names that differ have keys that differ. -/
theorem stream_space_apart {a b : Bytes} (fitsA : a.length < 2 ^ 32) (fitsB : b.length < 2 ^ 32) (different : a ≠ b) (rest : Bytes) :
    starts_with (streamSpace a ++ rest) (streamSpace b) = false := by
  rw [Bool.eq_false_iff,ne_eq,starts_with_iff,streamSpace,streamSpace,List.append_assoc,Tuples.append_front rfl]
  rintro ⟨-,inside⟩
  have padded : Tuples.component 4 b ++ [] <+: Tuples.component 4 a ++ rest := by simpa using inside
  exact different ((Tuples.component_front (fits_iff.mpr fitsB) (fits_iff.mpr fitsA)).mp padded).1.symm

theorem next_not_entry (name : Bytes) : starts_with (streamOf name).next_key (Stream.entry_prefix (streamOf name)) = false := by
  rw [Bool.eq_false_iff,ne_eq,starts_with_iff]
  show ¬ streamSpace name ++ ascii ":e:" <+: streamSpace name ++ ascii ":next"
  rw [Tuples.append_front rfl]
  rintro ⟨-,inside⟩
  exact absurd inside (by decide)

theorem stream_apart (name : Bytes) {key : Bytes} (own : starts_with key (streamSpace name) = true) : starts_with key CDC_PREFIX = false := by
  rw [starts_with_iff] at own
  exact domain_key_outside ⟨STREAM_PREFIX,by decide,(List.prefix_append _ _).trans own⟩

theorem next_inside (name : Bytes) : starts_with (streamOf name).next_key (streamSpace name) = true := by
  rw [starts_with_iff]
  exact List.prefix_append _ _

theorem entry_inside (name : Bytes) {key : Bytes} (own : starts_with key (Stream.entry_prefix (streamOf name)) = true) :
    starts_with key (streamSpace name) = true := by
  rw [starts_with_iff] at own ⊢
  exact (List.prefix_append _ _).trans own

/-! ## Entries -/

def StreamEntry.spelling (entry : StreamEntry) : Bytes :=
  [ENTRY_VERSION] ++ ((UInt32.ofNat entry.payload.length).to_le_bytes ++ entry.payload)

/-- A version and then bytes behind their length. -/
theorem versioned_ok {ε : Type} {too_large : ε} {version : UInt8} {payload encoded : Bytes} :
    (do return [version] ++ (← write_bytes too_large payload) : Except ε Bytes) = .ok encoded ↔
      payload.length < 2 ^ 32 ∧ encoded = [version] ++ ((UInt32.ofNat payload.length).to_le_bytes ++ payload) := by
  unfold write_bytes UInt32.try_from
  by_cases fits : payload.length < 2 ^ 32
  · rw [if_pos fits]
    simp only [fits,true_and]
    exact ⟨fun same => (Except.ok.inj same).symm,fun same => congrArg Except.ok same.symm⟩
  · rw [if_neg fits]
    simp only [fits,false_and,iff_false]
    intro made
    cases made

theorem encode_entry_ok {payload encoded : Bytes} : encode_entry payload = .ok encoded ↔
    payload.length < 2 ^ 32 ∧ encoded = [ENTRY_VERSION] ++ ((UInt32.ofNat payload.length).to_le_bytes ++ payload) := versioned_ok

theorem encode_stream_entry_ok {payload encoded : Bytes} : encode_stream_entry payload = .ok encoded ↔
    payload.length < 2 ^ 32 ∧ encoded = [STREAM_ENTRY_VERSION] ++ ((UInt32.ofNat payload.length).to_le_bytes ++ payload) := versioned_ok

theorem decode_entry_spelling {entry : StreamEntry} (fits : entry.payload.length < 2 ^ 32) :
    decode_entry entry.spelling = .ok entry.payload := by
  have size : entry.spelling.length = 5 + entry.payload.length := by
    simp [StreamEntry.spelling]
    omega
  have first : entry.spelling.head? = some ENTRY_VERSION := rfl
  have length : (entry.spelling.drop 1).take 4 = (UInt32.ofNat entry.payload.length).to_le_bytes := by
    show ((UInt32.ofNat entry.payload.length).to_le_bytes ++ entry.payload).take 4 = _
    exact List.take_left' (by simp)
  have payload : entry.spelling.drop 5 = entry.payload := by
    unfold StreamEntry.spelling
    rw [← List.append_assoc]
    exact List.drop_left' (by simp)
  unfold decode_entry
  rw [first,size,length,u32_from_to_le,u32_of_length fits,if_neg (by simp)]
  dsimp only
  rw [if_neg (by simp),payload]

theorem decode_offset_key (front : Bytes) (offset : UInt64) : decode_entry_offset front (front ++ offset.to_be_bytes) = .ok offset := by
  have own : starts_with (front ++ offset.to_be_bytes) front = true := (starts_with_iff _ _).mpr (List.prefix_append _ _)
  have size : (front ++ offset.to_be_bytes).length = front.length + 8 := by simp
  have bound : offset.toNat < 256 ^ 8 := offset.toNat_lt
  unfold decode_entry_offset
  rw [own,size,if_neg (by simp),List.drop_left,UInt64.from_be_bytes,UInt64.to_be_bytes,Endian.ofBe_toBe bound,UInt64.ofNat_toNat]

/-- The loop of `read_from` over entries at their offsets. -/
theorem collect_entries_eq {front : Bytes} {offset : UInt64} {limit : Nat} {found items : List StreamEntry}
    (fits : ∀ entry ∈ items, entry.payload.length < 2 ^ 32) (room : found.length < limit) :
    collect_entries front offset limit found (items.map (fun entry => (front ++ entry.offset.to_be_bytes,entry.spelling))) =
      .ok ((found ++ items.filter (fun entry => offset ≤ entry.offset)).take limit) := by
  induction items generalizing found with
  | nil =>
    rw [List.map_nil,collect_entries,List.filter_nil,List.append_nil,List.take_of_length_le (by omega)]
  | cons entry items ih =>
    have later : ∀ entry ∈ items, entry.payload.length < 2 ^ 32 := fun other member => fits other (by simp [member])
    rw [List.map_cons,collect_entries,decode_offset_key,ok_bind]
    by_cases before : entry.offset < offset
    · have hidden : ¬ offset ≤ entry.offset := UInt64.not_le.mpr before
      rw [if_pos before,ih later room,List.filter_cons_of_neg (by simpa using hidden)]
    · have shown : offset ≤ entry.offset := UInt64.not_lt.mp before
      rw [if_neg before,decode_entry_spelling (fits entry (by simp)),ok_bind,List.filter_cons_of_pos (by simpa using shown)]
      dsimp only
      have more : found ++ entry :: items.filter (fun entry => offset ≤ entry.offset) =
          (found ++ [entry]) ++ items.filter (fun entry => offset ≤ entry.offset) := by simp
      rw [more]
      by_cases full : (found ++ [entry]).length = limit
      · rw [if_pos full,List.take_left' full]
        rfl
      · rw [if_neg full,ih later (by simp at full ⊢; omega)]

/-! ## What lies in a stream -/

/-- The map holds these entries of a stream, and its next offset. -/
structure Laid (name : Bytes) (entries : List StreamEntry) (next : Nat) (state : State) : Prop where
  counter : (next = 0 ∧ state[(streamOf name).next_key]? = none) ∨
    (next < 2 ^ 64 ∧ state[(streamOf name).next_key]? = some (UInt64.ofNat next).to_le_bytes)
  lined : Lined (Stream.entry_prefix (streamOf name)) StreamEntry.offset StreamEntry.spelling entries state
  below : ∀ entry ∈ entries, entry.offset.toNat < next
  fits : ∀ entry ∈ entries, entry.payload.length < 2 ^ 32

theorem laid_empty (name : Bytes) : Laid name [] 0 ∅ := ⟨.inl ⟨rfl,by simp⟩,lined_empty,by simp,by simp⟩

section
variable {name : Bytes} {entries : List StreamEntry} {next : Nat} {state : State}

theorem Laid.congr {t : State} (laid : Laid name entries next state)
    (same : ∀ key, starts_with key (streamSpace name) = true → t[key]? = state[key]?) : Laid name entries next t := by
  refine ⟨?_,laid.lined.congr (fun key own => same key (entry_inside name own)),laid.below,laid.fits⟩
  rw [same _ (next_inside name)]
  exact laid.counter

theorem Laid.same {t : State} (laid : Laid name entries next state) (same : SameData state t) : Laid name entries next t :=
  laid.congr (fun key own => same key (stream_apart name own))

theorem Laid.small (laid : Laid name entries next state) : next < 2 ^ 64 := by
  rcases laid.counter with ⟨rfl,-⟩ | ⟨small,-⟩
  · decide
  · exact small

theorem Laid.next_offset (laid : Laid name entries next state) :
    stored_offset state[(streamOf name).next_key]? = .ok (UInt64.ofNat next) := by
  rcases laid.counter with ⟨rfl,absent⟩ | ⟨-,found⟩
  · rw [absent]
    rfl
  · rw [found,stored_offset,if_pos (by simp),u64_from_to_le]

/-- The counter is raised. -/
theorem Laid.count (laid : Laid name entries next state) (small : next + 1 < 2 ^ 64) :
    Laid name entries (next + 1) (state.insert (streamOf name).next_key (UInt64.ofNat (next + 1)).to_le_bytes) := by
  refine ⟨.inr ⟨small,by rw [get_insert,if_pos rfl]⟩,?_,?_,laid.fits⟩
  · refine laid.lined.congr ?_
    intro key own
    rw [get_insert,if_neg]
    rintro rfl
    rw [next_not_entry] at own
    cases own
  · intro entry member
    have below := laid.below entry member
    omega

/-- The counter is raised and an entry is written at the offset before it. -/
theorem Laid.append (laid : Laid name entries next state) (small : next + 1 < 2 ^ 64) {payload : Bytes} (fits : payload.length < 2 ^ 32) :
    Laid name (entries ++ [⟨UInt64.ofNat next,payload⟩]) (next + 1)
      ((state.insert (streamOf name).next_key (UInt64.ofNat (next + 1)).to_le_bytes).insert
        ((streamOf name).entry_key (UInt64.ofNat next)) (StreamEntry.mk (UInt64.ofNat next) payload).spelling) := by
  have counted := laid.count small
  have here : (UInt64.ofNat next).toNat = next := UInt64.toNat_ofNat_of_lt' (by rw [UInt64.size]; omega)
  refine ⟨?_,?_,?_,?_⟩
  · have other : (streamOf name).entry_key (UInt64.ofNat next) ≠ (streamOf name).next_key := by
      intro same
      have apart := next_not_entry name
      rw [← same] at apart
      have own : starts_with ((streamOf name).entry_key (UInt64.ofNat next)) (Stream.entry_prefix (streamOf name)) = true :=
        (starts_with_iff _ _).mpr (List.prefix_append _ _)
      rw [apart] at own
      cases own
    rw [get_insert,if_neg other]
    exact counted.counter
  · refine counted.lined.snoc ?_
    intro entry member
    rw [UInt64.lt_iff_toNat_lt]
    show _ < (UInt64.ofNat next).toNat
    rw [here]
    exact laid.below entry member
  · intro entry member
    rcases List.mem_append.mp member with early | last
    · exact counted.below entry early
    · rw [List.mem_singleton.mp last]
      show (UInt64.ofNat next).toNat < next + 1
      omega
  · intro entry member
    rcases List.mem_append.mp member with early | last
    · exact laid.fits entry early
    · rw [List.mem_singleton.mp last]
      exact fits

/-- A reader at an offset finds the entries at or behind it. -/
theorem Laid.read_from {store : Store} (laid : Laid name entries next store.state) (offset : UInt64) (limit : Nat) :
    (streamOf name).read_from store offset limit = .ok ((entries.filter (fun entry => offset ≤ entry.offset)).take limit) := by
  unfold Stream.read_from
  by_cases none_asked : limit = 0
  · rw [if_pos none_asked,none_asked,List.take_zero]
  · rw [if_neg none_asked,scan_prefix_eq,laid.lined.scan,collect_entries_eq laid.fits (by simpa using Nat.pos_of_ne_zero none_asked),
      ok_bind,List.nil_append]
    have sorted : ((entries.filter (fun entry => offset ≤ entry.offset)).take limit).Pairwise
        (fun a b => decide (a.offset ≤ b.offset) = true) := by
      refine List.Pairwise.sublist (List.take_sublist _ _) ((laid.lined.rises.filter _).imp ?_)
      intro a b less
      exact decide_eq_true (UInt64.le_of_lt less)
    rw [List.mergeSort_of_pairwise sorted]
    rfl

end

/-! ## Calls -/

inductive StreamFailure
  | Messaging (error : MessagingError)
  | Group (error : ConsumerGroupError)
  | Tx (error : DomainTransactionError)
  deriving DecidableEq

/-- The calls on streams, topics and groups. Publishing on a topic is appending to its stream. -/
inductive StreamCall
  | Append (io : Io) (stream payload : Bytes)
  | AcknowledgeThrough (io : Io) (topic subscription : Bytes) (offset : UInt64)
  | ResetSubscription (io : Io) (topic subscription : Bytes) (next_offset : UInt64)
  | GroupClaim (io : Io) (stream group consumer : Bytes) (now_ms : Int64) (lease_duration_ms : UInt64)
  | GroupAck (io : Io) (stream group consumer : Bytes) (offset lease_generation : UInt64)
  | GroupNack (io : Io) (stream group consumer : Bytes) (offset lease_generation : UInt64)
  | GroupReset (io : Io) (stream group : Bytes) (next_offset : UInt64)

inductive StreamTxCall
  | AppendStream (io : Io) (stream payload : Bytes)

inductive StreamReply
  | Appended (offset : UInt64)
  | Acknowledged (state : SubscriptionState)
  | Claimed (delivery : Option ConsumerGroupDelivery)
  | Done

def StreamCall.io : StreamCall → Io
  | .Append io _ _ => io
  | .AcknowledgeThrough io _ _ _ => io
  | .ResetSubscription io _ _ _ => io
  | .GroupClaim io _ _ _ _ _ => io
  | .GroupAck io _ _ _ _ _ => io
  | .GroupNack io _ _ _ _ _ => io
  | .GroupReset io _ _ _ => io

def StreamTxCall.io : StreamTxCall → Io
  | .AppendStream io _ _ => io

section
variable [Hashes]

/-- A call through a handle on a stream. -/
def on_stream {α : Type} (name : Bytes) (call : Stream → EStateM MessagingError Store α) : EStateM MessagingError Store α := do
  call (← lift (Stream.new name))

def streams : Domain StreamFailure StreamCall StreamTxCall StreamReply where
  on_store
    | .Append io stream payload => do
      return .Appended (← rethrow .Messaging (on_stream stream (fun self => self.append io payload)))
    | .AcknowledgeThrough io topic subscription offset => do
      return .Acknowledged (← rethrow .Messaging (on_stream topic (fun self => Topic.acknowledge_through self io subscription offset)))
    | .ResetSubscription io topic subscription next_offset => do
      rethrow .Messaging (on_stream topic (fun self => Topic.reset_subscription self io subscription next_offset))
      return .Done
    | .GroupClaim io stream group consumer now_ms lease_duration_ms => do
      return .Claimed (← rethrow .Group (consumer_group_claim io stream group consumer now_ms lease_duration_ms))
    | .GroupAck io stream group consumer offset lease_generation => do
      rethrow .Group (consumer_group_ack io stream group consumer offset lease_generation)
      return .Done
    | .GroupNack io stream group consumer offset lease_generation => do
      rethrow .Group (consumer_group_nack io stream group consumer offset lease_generation)
      return .Done
    | .GroupReset io stream group next_offset => do
      rethrow .Group (consumer_group_reset io stream group next_offset)
      return .Done
  on_tx
    | .AppendStream io stream payload => do
      return .Appended (← rethrow .Tx (append_stream io stream payload))

end

abbrev StreamFact := Happened StreamFailure StreamCall StreamTxCall StreamReply

/-- What a fact adds to a stream. -/
def appended (name : Bytes) : StreamFact → List StreamEntry
  | .Returned (.Append _ stream payload) (.ok (.Appended offset)) => if stream = name then [⟨offset,payload⟩] else []
  | .Staged (.AppendStream _ stream payload) (.ok (.Appended offset)) _ => if stream = name then [⟨offset,payload⟩] else []
  | _ => []

/-! ## Where the calls write -/

def subKey (topic subscription : Bytes) : Bytes := SUB_PREFIX ++ Tuples.tuple 4 [topic,subscription]
def groupKey (stream group : Bytes) : Bytes := GROUP_PREFIX ++ Tuples.tuple 4 [stream,group]

/-- The keys that a call may write. -/
def StreamCall.own : StreamCall → Bytes → Prop
  | .Append _ stream _, key => stream.length < 2 ^ 32 ∧ starts_with key (streamSpace stream) = true
  | .AcknowledgeThrough _ topic subscription _, key => topic.length < 2 ^ 32 ∧ subscription.length < 2 ^ 32 ∧ key = subKey topic subscription
  | .ResetSubscription _ topic subscription _, key => topic.length < 2 ^ 32 ∧ subscription.length < 2 ^ 32 ∧ key = subKey topic subscription
  | .GroupClaim _ stream group _ _ _, key => stream.length < 2 ^ 32 ∧ group.length < 2 ^ 32 ∧ key = groupKey stream group
  | .GroupAck _ stream group _ _ _, key => stream.length < 2 ^ 32 ∧ group.length < 2 ^ 32 ∧ key = groupKey stream group
  | .GroupNack _ stream group _ _ _, key => stream.length < 2 ^ 32 ∧ group.length < 2 ^ 32 ∧ key = groupKey stream group
  | .GroupReset _ stream group _, key => stream.length < 2 ^ 32 ∧ group.length < 2 ^ 32 ∧ key = groupKey stream group

def StreamTxCall.own : StreamTxCall → Bytes → Prop
  | .AppendStream _ stream _, key => stream.length < 2 ^ 32 ∧ starts_with key (streamSpace stream) = true

theorem subscription_key_ok {topic subscription key : Bytes} : subscription_key topic subscription = .ok key ↔
    subscription ≠ [] ∧ topic.length < 2 ^ 32 ∧ subscription.length < 2 ^ 32 ∧ key = subKey topic subscription := by
  unfold subscription_key validate_name
  by_cases empty : subscription = []
  · rw [if_pos empty]
    constructor
    · intro made
      cases made
    · exact fun facts => absurd empty facts.1
  · rw [if_neg empty,ok_bind,messaging_tuple_key_ok]
    simp [empty,subKey]
    tauto

theorem group_key_ok {stream group key : Bytes} : ConsumerGroup.group_key stream group = .ok key ↔
    stream.length < 2 ^ 32 ∧ group.length < 2 ^ 32 ∧ key = groupKey stream group := by
  unfold ConsumerGroup.group_key UInt32.try_from
  by_cases fits : stream.length < 2 ^ 32
  · by_cases short : group.length < 2 ^ 32
    · rw [if_pos fits,if_pos short]
      have spelled : GROUP_PREFIX ++ ((UInt32.ofNat stream.length).to_be_bytes ++ (stream ++
          ((UInt32.ofNat group.length).to_be_bytes ++ group))) = groupKey stream group := by
        rw [component_eq short,← List.append_assoc (UInt32.ofNat stream.length).to_be_bytes,component_eq fits]
        simp [groupKey,Tuples.tuple]
      show Except.ok _ = Except.ok key ↔ _
      rw [spelled]
      simp only [fits,short,true_and]
      exact ⟨fun same => (Except.ok.inj same).symm,fun same => congrArg Except.ok same.symm⟩
    · rw [if_pos fits,if_neg short]
      simp only [short,false_and,and_false,iff_false]
      intro made
      cases made
  · rw [if_neg fits]
    simp only [fits,false_and,iff_false]
    intro made
    cases made

/-- What is computed with the handle of a stream. -/
theorem on_stream_confined {α : Type} {own : Bytes → Prop} {name : Bytes} {call : Stream → EStateM MessagingError Store α}
    (confined : name.length < 2 ^ 32 → Confined own (call (streamOf name))) : Confined own (on_stream name call) := by
  refine .lifted (fun self made => ?_)
  obtain ⟨-,fits,rfl⟩ := stream_new_ok.mp made
  exact confined fits

theorem leased_group_reads (stream group consumer : Bytes) (offset lease_generation : UInt64) :
    Reads (leased_group stream group consumer offset lease_generation) := by
  refine (reads_lift _).bind (fun _ => (reads_lift _).bind (fun key => reads_get.bind (fun self => ?_)))
  exact (reads_lift _).bind (fun found => (reads_lift _).bind (fun state => (reads_lift _).bind (fun _ => reads_pure _)))

/-- Whoever presents a lease that is recorded. -/
structure Leased (store : Store) (stream group consumer : Bytes) (offset lease_generation : UInt64) (key : Bytes)
    (state : ConsumerGroupState) : Prop where
  fits : stream.length < 2 ^ 32 ∧ group.length < 2 ^ 32
  keyed : key = groupKey stream group
  found : ConsumerGroup.load_state store key = .ok (some state)
  leased : state.leased_offset = some offset
  owner : state.owner = consumer
  generation : state.lease_generation = lease_generation

theorem leased_group_ok {stream group consumer : Bytes} {offset lease_generation : UInt64} {store t : Store} {key : Bytes}
    {state : ConsumerGroupState} (done : leased_group stream group consumer offset lease_generation store = .ok (key,state) t) :
    Leased store stream group consumer offset lease_generation key state := by
  unfold leased_group at done
  obtain ⟨_,-,done⟩ := lift_bind_ok.mp done
  obtain ⟨made,keyed,done⟩ := lift_bind_ok.mp done
  rw [get_bind] at done
  obtain ⟨found,loaded,done⟩ := lift_bind_ok.mp done
  obtain ⟨there,is,done⟩ := lift_bind_ok.mp done
  obtain ⟨_,valid,done⟩ := lift_bind_ok.mp done
  cases done
  obtain ⟨fits,short,rfl⟩ := group_key_ok.mp keyed
  rw [ok_or_ok.mp is] at loaded
  obtain ⟨leased,holds,valid⟩ := bind_ok_iff.mp valid
  obtain ⟨owner,valid⟩ := refuse_ok_iff.mp valid
  obtain ⟨generation,valid⟩ := refuse_ok_iff.mp valid
  obtain ⟨here,-⟩ := refuse_ok_iff.mp valid
  refine ⟨⟨fits,short⟩,rfl,loaded,?_,not_not.mp owner,not_not.mp generation⟩
  rw [ok_or_ok.mp holds,not_not.mp here]

/-- What is done with the state of a group whose lease is presented. -/
theorem leased_group_confined {own : Bytes → Prop} {stream group consumer : Bytes} {offset lease_generation : UInt64}
    {call : Bytes × ConsumerGroupState → EStateM ConsumerGroupError Store Unit}
    (confined : stream.length < 2 ^ 32 ∧ group.length < 2 ^ 32 → ∀ state, Confined own (call (groupKey stream group,state))) :
    Confined own (leased_group stream group consumer offset lease_generation >>= call) := by
  refine @Confined.checked _ _ _ _ _ _ (fun found => (stream.length < 2 ^ 32 ∧ group.length < 2 ^ 32) ∧ found.1 = groupKey stream group)
    (leased_group_reads _ _ _ _ _) ?_ ?_
  · rintro store ⟨key,state⟩ t done
    have leased := leased_group_ok done
    exact ⟨leased.fits,leased.keyed⟩
  · rintro ⟨_,state⟩ ⟨fits,rfl⟩
    exact confined fits state

section
variable [Hashes]

theorem store_state_atomic {io : Io} (durable : io.Durable) (key : Bytes) (state : ConsumerGroupState) : Atomic (store_state io key state) :=
  .checked (reads_lift _) (fun _ => (put_alone_atomic durable key _).rethrow)

theorem stream_call_atomic {call : StreamCall} (durable : call.io.Durable) : Atomic (streams.on_store call) := by
  cases call with
  | Append io stream payload =>
    refine Atomic.returning (.rethrow (.checked (reads_lift _) (fun self => .checked reads_get (fun store => ?_)))) _
    refine .checked (reads_lift _) (fun offset => .checked (reads_lift _) (fun next => .checked (reads_lift _) (fun value => ?_)))
    refine Atomic.returning (within_atomic durable ?_) (fun _ => offset)
    exact (put_stages durable.1 _ _).rethrow.bind (fun _ => (put_stages durable.1 _ _).rethrow)
  | AcknowledgeThrough io topic subscription offset =>
    refine Atomic.returning (.rethrow (.checked (reads_lift _) (fun self => .checked (reads_lift _) (fun _ => ?_)))) _
    refine .checked reads_get (fun store => .checked (reads_lift _) (fun current => .checked (reads_lift _) (fun next => ?_)))
    split
    · exact atomic_of_reads (reads_throw _)
    · exact .checked (reads_lift _) (fun key => (put_alone_atomic durable key _).rethrow.returning _)
  | ResetSubscription io topic subscription next_offset =>
    refine Atomic.returning (.rethrow (.checked (reads_lift _) (fun self => .checked (reads_lift _) (fun _ => ?_)))) (fun _ => StreamReply.Done)
    exact .checked (reads_lift _) (fun key => (put_alone_atomic durable key _).rethrow)
  | GroupClaim io stream group consumer now_ms lease_duration_ms =>
    refine Atomic.returning (.rethrow (.checked (reads_lift _) (fun _ => .checked (reads_lift _) (fun key => ?_)))) _
    refine .checked reads_get (fun self => .checked (reads_lift _) (fun found => ?_))
    dsimp only
    split
    · exact atomic_of_reads (reads_pure _)
    refine .checked (reads_lift _) (fun entry => ?_)
    cases entry with
    | none =>
      dsimp only
      split
      · exact (store_state_atomic durable key _).returning (fun _ => none)
      · exact atomic_of_reads (reads_pure _)
    | some entry =>
      refine .checked (reads_lift _) (fun duration => .checked (reads_lift _) (fun until_ms => .checked (reads_lift _) (fun generation => ?_)))
      exact (store_state_atomic durable key _).returning _
  | GroupAck io stream group consumer offset lease_generation =>
    refine Atomic.returning (.rethrow (.checked (leased_group_reads _ _ _ _ _) (fun found => ?_))) (fun _ => StreamReply.Done)
    exact .checked (reads_lift _) (fun next => store_state_atomic durable _ _)
  | GroupNack io stream group consumer offset lease_generation =>
    refine Atomic.returning (.rethrow (.checked (leased_group_reads _ _ _ _ _) (fun found => ?_))) (fun _ => StreamReply.Done)
    exact store_state_atomic durable _ _
  | GroupReset io stream group next_offset =>
    refine Atomic.returning (.rethrow (.checked (reads_lift _) (fun _ => .checked (reads_lift _) (fun key => ?_)))) (fun _ => StreamReply.Done)
    exact .checked reads_get (fun self => .checked (reads_lift _) (fun found => store_state_atomic durable key _))

theorem store_state_confined {own : Bytes → Prop} (io : Io) {key : Bytes} (mine : own key) (state : ConsumerGroupState) :
    Confined own (store_state io key state) :=
  (confined_of_reads (reads_lift _)).bind (fun _ => (put_alone_confined io mine _).rethrow)

theorem stream_call_confined (call : StreamCall) : Confined call.own (streams.on_store call) := by
  have reads : ∀ {ε α : Type} {x : EStateM ε Store α}, Reads x → Confined call.own x := confined_of_reads
  cases call with
  | Append io stream payload =>
    refine Confined.bind (.rethrow (on_stream_confined (fun fits => ?_))) (fun _ => reads (reads_pure _))
    refine (reads reads_get).bind (fun store => (reads (reads_lift _)).bind (fun offset => ?_))
    refine (reads (reads_lift _)).bind (fun next => (reads (reads_lift _)).bind (fun value => ?_))
    refine Confined.bind (within_confined ?_) (fun _ => reads (reads_pure _))
    refine (put_confined io ⟨fits,next_inside stream⟩ _).rethrow.bind (fun _ => (put_confined io ⟨fits,entry_inside stream ?_⟩ _).rethrow)
    exact (starts_with_iff _ _).mpr (List.prefix_append _ _)
  | AcknowledgeThrough io topic subscription offset =>
    refine Confined.bind (.rethrow (on_stream_confined (fun fits => ?_))) (fun _ => reads (reads_pure _))
    refine (reads (reads_lift _)).bind (fun _ => (reads reads_get).bind (fun store => (reads (reads_lift _)).bind (fun current => ?_)))
    refine (reads (reads_lift _)).bind (fun next => ?_)
    split
    · exact reads (reads_throw _)
    · refine .lifted (fun key made => ?_)
      obtain ⟨-,-,short,rfl⟩ := subscription_key_ok.mp made
      exact (put_alone_confined io ⟨fits,short,rfl⟩ _).rethrow.bind (fun _ => reads (reads_pure _))
  | ResetSubscription io topic subscription next_offset =>
    refine Confined.bind (.rethrow (on_stream_confined (fun fits => ?_))) (fun _ => reads (reads_pure _))
    refine (reads (reads_lift _)).bind (fun _ => .lifted (fun key made => ?_))
    obtain ⟨-,-,short,rfl⟩ := subscription_key_ok.mp made
    exact (put_alone_confined io ⟨fits,short,rfl⟩ _).rethrow
  | GroupClaim io stream group consumer now_ms lease_duration_ms =>
    refine Confined.bind (.rethrow ((reads (reads_lift _)).bind (fun _ => .lifted (fun key made => ?_)))) (fun _ => reads (reads_pure _))
    obtain ⟨fits,short,rfl⟩ := group_key_ok.mp made
    refine (reads reads_get).bind (fun self => (reads (reads_lift _)).bind (fun found => ?_))
    dsimp only
    split
    · exact reads (reads_pure _)
    refine (reads (reads_lift _)).bind (fun entry => ?_)
    cases entry with
    | none =>
      dsimp only
      split
      · exact (store_state_confined io ⟨fits,short,rfl⟩ _).bind (fun _ => reads (reads_pure _))
      · exact reads (reads_pure _)
    | some entry =>
      refine (reads (reads_lift _)).bind (fun duration => (reads (reads_lift _)).bind (fun until_ms => ?_))
      refine (reads (reads_lift _)).bind (fun generation => ?_)
      exact (store_state_confined io ⟨fits,short,rfl⟩ _).bind (fun _ => reads (reads_pure _))
  | GroupAck io stream group consumer offset lease_generation =>
    refine Confined.bind (.rethrow ?_) (fun _ => reads (reads_pure _))
    exact leased_group_confined (fun fits state => (reads (reads_lift _)).bind (fun next => store_state_confined io ⟨fits.1,fits.2,rfl⟩ _))
  | GroupNack io stream group consumer offset lease_generation =>
    refine Confined.bind (.rethrow ?_) (fun _ => reads (reads_pure _))
    exact leased_group_confined (fun fits state => store_state_confined io ⟨fits.1,fits.2,rfl⟩ _)
  | GroupReset io stream group next_offset =>
    refine Confined.bind (.rethrow ((reads (reads_lift _)).bind (fun _ => .lifted (fun key made => ?_)))) (fun _ => reads (reads_pure _))
    obtain ⟨fits,short,rfl⟩ := group_key_ok.mp made
    refine (reads reads_get).bind (fun self => (reads (reads_lift _)).bind (fun found => ?_))
    exact store_state_confined io ⟨fits,short,rfl⟩ _

theorem append_stream_confined (io : Io) (stream payload : Bytes) :
    ConfinedView (StreamTxCall.own (.AppendStream io stream payload)) (append_stream io stream payload) := by
  have reads : ∀ {ε α : Type} {x : EStateM ε Transaction α}, Reads x →
      ConfinedView (StreamTxCall.own (.AppendStream io stream payload)) x := confined_view_of_reads
  unfold append_stream
  split
  · exact reads (reads_throw _)
  refine .lifted (fun ns made => ?_)
  obtain ⟨all,rfl⟩ := tuple_key_ok.mp made
  have fits := all stream (by simp)
  have space : STREAM_PREFIX ++ Tuples.tuple 4 [stream] = streamSpace stream := by simp [streamSpace,Tuples.tuple]
  rw [space]
  refine (reads reads_get).bind (fun tx => (reads (reads_lift _)).bind (fun offset => (reads (reads_lift _)).bind (fun next => ?_)))
  refine ConfinedView.bind ?_ (fun _ => reads (reads_pure _))
  refine (put_confined io ⟨fits,next_inside stream⟩ _).rethrow.bind (fun _ => (reads (reads_lift _)).bind (fun entry => ?_))
  refine (put_confined io ⟨fits,entry_inside stream ?_⟩ _).rethrow
  exact (starts_with_iff _ _).mpr (List.prefix_append _ _)

/-! ## What appends do -/

theorem append_stream_stages {io : Io} (writes : io.WritesWhole) (stream payload : Bytes) : Stages (append_stream io stream payload) := by
  unfold append_stream
  split
  · exact stages_of_reads (reads_throw _)
  refine (stages_of_reads (reads_lift _)).bind (fun ns => (stages_of_reads reads_get).bind (fun tx => ?_))
  refine (stages_of_reads (reads_lift _)).bind (fun offset => (stages_of_reads (reads_lift _)).bind (fun next => ?_))
  exact (stage_numbered_stages writes _ _ _ _).bind (fun _ => stages_of_reads (reads_pure _))

/-- An append to a stream raises the counter and writes the entry at the old one. -/
theorem append_laid {name payload : Bytes} {io : Io} {store t : Store} {offset : UInt64} {entries : List StreamEntry} {next : Nat}
    (laid : Laid name entries next store.state)
    (done : on_stream name (fun self => self.append io payload) store = .ok offset t) :
    offset = UInt64.ofNat next ∧ Laid name (entries ++ [⟨offset,payload⟩]) (next + 1) t.state := by
  obtain ⟨self,made,done⟩ := lift_bind_ok.mp done
  obtain ⟨-,-,rfl⟩ := stream_new_ok.mp made
  dsimp only [Stream.append] at done
  rw [get_bind] at done
  obtain ⟨read,counted,done⟩ := lift_bind_ok.mp done
  obtain ⟨raised,added,done⟩ := lift_bind_ok.mp done
  obtain ⟨value,encoded,done⟩ := lift_bind_ok.mp done
  obtain ⟨_,_,written,done⟩ := bind_ok.mp done
  cases done
  have here : offset = UInt64.ofNat next := Except.ok.inj (counted.symm.trans laid.next_offset)
  obtain ⟨fits,rfl⟩ := encode_entry_ok.mp encoded
  have above := u64_checked_add_some (ok_or_ok.mp added)
  have number : offset.toNat = next := by rw [here,UInt64.toNat_ofNat_of_lt' laid.small]
  have bound := raised.toNat_lt
  have raised_is : raised = UInt64.ofNat (next + 1) := by
    rw [← number,← UInt64.toNat_one,← above,UInt64.ofNat_toNat]
  obtain ⟨tx,u,begun,body,same⟩ := within_ok written
  obtain ⟨_,middle,first,second⟩ := bind_ok.mp body
  rw [(put_internal_ok (rethrow_ok.mp second)).1,(put_internal_ok (rethrow_ok.mp first)).1,(begin_view begun).1,raised_is,here] at same
  refine ⟨here,?_⟩
  rw [here]
  refine (laid.append ?_ fits).same same
  rw [UInt64.toNat_one] at above
  omega

/-- An append in a transaction does the same to what the transaction sees. If it
    fails, it may have raised the counter. -/
theorem append_stream_laid {name payload : Bytes} {io : Io} {tx : Transaction} {entries : List StreamEntry} {next : Nat}
    (laid : Laid name entries next tx.view) :
    match append_stream io name payload tx with
    | .ok offset u => offset = UInt64.ofNat next ∧ Laid name (entries ++ [⟨offset,payload⟩]) (next + 1) u.view
    | .error _ u => Laid name entries next u.view ∨ Laid name entries (next + 1) u.view := by
  have space : STREAM_PREFIX ++ Tuples.tuple 4 [name] = streamSpace name := by simp [streamSpace,Tuples.tuple]
  have read : ∀ offset, counter tx (streamSpace name ++ ascii ":next") 0 = .ok offset → offset = UInt64.ofNat next := by
    intro offset counted
    rcases counter_ok counted with ⟨absent,rfl⟩ | ⟨bytes,found,rfl⟩
    · rcases laid.counter with ⟨rfl,-⟩ | ⟨-,there⟩
      · rfl
      · rw [show tx.view[(streamOf name).next_key]? = none from absent] at there
        cases there
    · rcases laid.counter with ⟨-,none_there⟩ | ⟨-,there⟩
      · rw [show tx.view[(streamOf name).next_key]? = some bytes from found] at none_there
        cases none_there
      · rw [show tx.view[(streamOf name).next_key]? = some bytes from found] at there
        cases there
        rw [u64_from_to_le]
  have raise : ∀ raised : UInt64, ok_or DomainTransactionError.CounterExhausted ((UInt64.ofNat next).checked_add 1) = .ok raised →
      raised = UInt64.ofNat (next + 1) ∧ next + 1 < 2 ^ 64 := by
    intro raised added
    have above := u64_checked_add_some (ok_or_ok.mp added)
    have bound := raised.toNat_lt
    rw [UInt64.toNat_ofNat_of_lt' laid.small,UInt64.toNat_one] at above
    exact ⟨by rw [← above,UInt64.ofNat_toNat],by omega⟩
  cases result : append_stream io name payload tx with
  | ok offset u =>
    unfold append_stream at result
    split at result
    · cases result
    obtain ⟨ns,made,result⟩ := lift_bind_ok.mp result
    obtain ⟨-,rfl⟩ := tuple_key_ok.mp made
    rw [space,get_bind] at result
    obtain ⟨_,counted,result⟩ := lift_bind_ok.mp result
    obtain ⟨raised,added,result⟩ := lift_bind_ok.mp result
    obtain ⟨_,_,staged,result⟩ := bind_ok.mp result
    cases result
    obtain rfl := read _ counted
    obtain ⟨rfl,small⟩ := raise _ added
    obtain ⟨_,middle,first,staged⟩ := bind_ok.mp staged
    obtain ⟨entry,encoded,second⟩ := lift_bind_ok.mp staged
    obtain ⟨fits,rfl⟩ := encode_stream_entry_ok.mp encoded
    refine ⟨rfl,?_⟩
    rw [(put_internal_ok (rethrow_ok.mp second)).1,(put_internal_ok (rethrow_ok.mp first)).1]
    exact laid.append small fits
  | error e u =>
    show Laid name entries next u.view ∨ Laid name entries (next + 1) u.view
    unfold append_stream at result
    split at result
    · cases result
      exact .inl laid
    rcases lift_bind_error.mp result with ⟨-,rfl⟩ | ⟨ns,made,result⟩
    · exact .inl laid
    obtain ⟨-,rfl⟩ := tuple_key_ok.mp made
    rw [space,get_bind] at result
    rcases lift_bind_error.mp result with ⟨-,rfl⟩ | ⟨offset,counted,result⟩
    · exact .inl laid
    rcases lift_bind_error.mp result with ⟨-,rfl⟩ | ⟨raised,added,result⟩
    · exact .inl laid
    obtain rfl := read _ counted
    obtain ⟨rfl,small⟩ := raise _ added
    rcases bind_error.mp result with early | ⟨_,_,-,late⟩
    · rcases bind_error.mp early with first | ⟨_,middle,first,later⟩
      · obtain ⟨_,refused,-⟩ := rethrow_error.mp first
        rw [put_clean io _ _ _ _ _ refused]
        exact .inl laid
      · have counted := laid.count small
        have view := (put_internal_ok (rethrow_ok.mp first)).1
        rcases lift_bind_error.mp later with ⟨-,rfl⟩ | ⟨entry,-,second⟩
        · rw [view]
          exact .inr counted
        · obtain ⟨_,refused,-⟩ := rethrow_error.mp second
          rw [put_clean io _ _ _ _ _ refused,view]
          exact .inr counted
    · cases late

end

end VoodooStore
