import VoodooStore.Subscriptions
import VoodooStore.Lib.Deliveries

/-!
# Consumer groups in use

What a group hands out and takes back is a history of deliveries one at a time
(`Deliveries.Run`), as long as its stream has no gaps: in every run in which no
transaction is committed whose append to the stream failed halfway
(`group_delivery`).
-/
namespace VoodooStore
open Effects Reading Messaging ConsumerGroup Deliveries
set_option linter.unusedSimpArgs false

/-! ## Records -/

def ConsumerGroupState.spelling (state : ConsumerGroupState) : Bytes :=
  [VERSION] ++ (state.next_offset.to_le_bytes ++ (write_option (state.leased_offset.map UInt64.to_le_bytes) ++
    (state.lease_until_ms.to_le_bytes ++ (state.lease_generation.to_le_bytes ++
      ((UInt32.ofNat state.owner.length).to_le_bytes ++ state.owner)))))

theorem encode_state_ok {state : ConsumerGroupState} {encoded : Bytes} (done : encode_state state = .ok encoded) :
    state.owner.length < 2 ^ 32 ∧ encoded = state.spelling := by
  unfold encode_state at done
  obtain ⟨owner,written,done⟩ := bind_ok_iff.mp done
  cases done
  obtain ⟨fits,rfl⟩ := write_bytes_ok written
  exact ⟨fits,rfl⟩

theorem decode_state_spelling {state : ConsumerGroupState} (fits : state.owner.length < 2 ^ 32) :
    decode_state state.spelling = .ok state := by
  have parses : Parses USIZE read_state state.spelling state := by
    refine (parses_u8 VERSION).bind ?_
    rw [if_neg (by simp)]
    refine (parses_u64 state.next_offset).bind ((parses_option state.leased_offset (fun offset _ => parses_u64 offset)).bind ?_)
    refine (parses_i64 state.lease_until_ms).bind ((parses_u64 state.lease_generation).bind ?_)
    exact (parses_bytes fits).ends (parses_pure _)
  have small : state.spelling.length < USIZE := by
    have option : (write_option (state.leased_offset.map UInt64.to_le_bytes)).length ≤ 9 := by
      cases state.leased_offset with
      | none => simp [write_option]
      | some offset => simp [write_option]
    simp [ConsumerGroupState.spelling,USIZE]
    omega
  exact parses.readAll _ small

/-- The record of a group says what its history says. -/
structure ConsumerGroupState.Matches (record : ConsumerGroupState) (model : Deliveries.Group Bytes) : Prop where
  next : record.next_offset.toNat = model.next
  generation : record.lease_generation.toNat = model.generation
  free : model.holder = none → record.leased_offset = none
  held : ∀ consumer, model.holder = some consumer → record.leased_offset = some record.next_offset ∧ record.owner = consumer

/-- The map holds the record of a group, or none for a group that was never used. -/
structure Recorded (stream group : Bytes) (record : ConsumerGroupState) (state : State) : Prop where
  stored : (state[groupKey stream group]? = none ∧ record = .default) ∨ state[groupKey stream group]? = some record.spelling
  fits : record.owner.length < 2 ^ 32

theorem Recorded.loads {stream group : Bytes} {record : ConsumerGroupState} {store : Store} (recorded : Recorded stream group record store.state) :
    ∃ found, load_state store (groupKey stream group) = .ok found ∧ found.getD .default = record := by
  unfold load_state
  rcases recorded.stored with ⟨absent,rfl⟩ | there
  · exact ⟨none,by rw [Store.get,absent]; rfl,rfl⟩
  · refine ⟨some record,?_,rfl⟩
    rw [Store.get,there,Option.mapM_some,decode_state_spelling recorded.fits]
    rfl

theorem recorded_insert {stream group : Bytes} {record : ConsumerGroupState} {state : State} (fits : record.owner.length < 2 ^ 32) :
    Recorded stream group record (state.insert (groupKey stream group) record.spelling) :=
  ⟨.inr (by rw [get_insert,if_pos rfl]),fits⟩

/-! ## History -/

def claimEvents (consumer : Bytes) : Option ConsumerGroupDelivery → List (Deliveries.Event Bytes)
  | some delivery => [.Delivered ⟨consumer,delivery.entry.offset.toNat,delivery.lease_generation.toNat⟩]
  | none => []

/-- What a fact means for a group. -/
def groupEvents (stream group : Bytes) : StreamFact → List (Deliveries.Event Bytes)
  | .Returned (.GroupClaim _ s g consumer _ _) (.ok (.Claimed delivery)) =>
    if s = stream ∧ g = group then claimEvents consumer delivery else []
  | .Returned (.GroupAck _ s g consumer offset lease_generation) (.ok _) =>
    if s = stream ∧ g = group then [.Acked ⟨consumer,offset.toNat,lease_generation.toNat⟩] else []
  | .Returned (.GroupNack _ s g consumer offset lease_generation) (.ok _) =>
    if s = stream ∧ g = group then [.Nacked ⟨consumer,offset.toNat,lease_generation.toNat⟩] else []
  | _ => []

def groupHistory (stream group : Bytes) (facts : List StreamFact) : List (Deliveries.Event Bytes) := facts.flatMap (groupEvents stream group)

theorem group_history_snoc (stream group : Bytes) (facts : List StreamFact) (fact : StreamFact) :
    groupHistory stream group (facts ++ [fact]) = groupHistory stream group facts ++ groupEvents stream group fact := by
  simp [groupHistory]

/-- The keys of a stream and of one of its groups. -/
def GroupKey (stream group key : Bytes) : Prop := starts_with key (streamSpace stream) = true ∨ key = groupKey stream group

theorem group_key_apart {stream group key : Bytes} (own : GroupKey stream group key) : starts_with key CDC_PREFIX = false := by
  rcases own with inside | rfl
  · exact stream_apart stream inside
  · exact domain_key_outside ⟨GROUP_PREFIX,by decide,List.prefix_append _ _⟩

/-- A group record is not a key of a stream. -/
theorem group_not_stream (s g stream : Bytes) : starts_with (groupKey s g) (streamSpace stream) = false := by
  rw [Bool.eq_false_iff,ne_eq,starts_with_iff]
  intro inside
  exact prefixes_apart (by decide) (List.prefix_append GROUP_PREFIX _) ((List.prefix_append STREAM_PREFIX _).trans inside)

/-- The map holds a stream without gaps, and a group as its history leaves it. -/
structure Serves (stream group : Bytes) (events : List (Deliveries.Event Bytes)) (entries : List StreamEntry) (next : Nat)
    (record : ConsumerGroupState) (state : State) : Prop where
  laid : Laid stream entries next state
  whole : ∀ k < next, ∃ entry ∈ entries, entry.offset.toNat = k
  recorded : Recorded stream group record state
  run : ∃ model, Deliveries.Run events model ∧ record.Matches model

theorem serves_empty (stream group : Bytes) : Serves stream group [] [] 0 .default ∅ := by
  refine ⟨laid_empty stream,by simp,⟨.inl ⟨by simp,rfl⟩,by decide⟩,_,.start,?_⟩
  exact ⟨rfl,rfl,fun _ => rfl,by simp⟩

section
variable {stream group : Bytes} {events : List (Deliveries.Event Bytes)} {entries : List StreamEntry} {next : Nat}
  {record : ConsumerGroupState} {state : State}

theorem Serves.congr {t : State} (serves : Serves stream group events entries next record state)
    (same : ∀ key, GroupKey stream group key → t[key]? = state[key]?) : Serves stream group events entries next record t := by
  refine { serves with laid := serves.laid.congr (fun key own => same key (.inl own)),recorded := ⟨?_,serves.recorded.fits⟩ }
  rw [same _ (.inr rfl)]
  exact serves.recorded.stored

/-- An entry is appended at the next offset. -/
theorem Serves.append {t : State} {payload : Bytes} (serves : Serves stream group events entries next record state)
    (laid : Laid stream (entries ++ [⟨UInt64.ofNat next,payload⟩]) (next + 1) t)
    (same : t[groupKey stream group]? = state[groupKey stream group]?) :
    Serves stream group events (entries ++ [⟨UInt64.ofNat next,payload⟩]) (next + 1) record t := by
  refine { serves with laid := laid,whole := ?_,recorded := ⟨?_,serves.recorded.fits⟩ }
  · intro k below
    by_cases last : k = next
    · refine ⟨⟨UInt64.ofNat next,payload⟩,by simp,?_⟩
      rw [last]
      exact UInt64.toNat_ofNat_of_lt' serves.laid.small
    · obtain ⟨entry,member,here⟩ := serves.whole k (by omega)
      exact ⟨entry,by simp [member],here⟩
  · rw [same]
    exact serves.recorded.stored

/-- Another record of the group is written. -/
theorem Serves.record_written (serves : Serves stream group events entries next record state) {later : List (Deliveries.Event Bytes)}
    {changed : ConsumerGroupState} (fits : changed.owner.length < 2 ^ 32)
    (run : ∃ model, Deliveries.Run later model ∧ changed.Matches model) {t : State}
    (same : SameData (state.insert (groupKey stream group) changed.spelling) t) :
    Serves stream group later entries next changed t := by
  have apart : ∀ key, GroupKey stream group key → t[key]? = (state.insert (groupKey stream group) changed.spelling)[key]? :=
    fun key own => same key (group_key_apart own)
  refine ⟨?_,serves.whole,?_,run⟩
  · refine serves.laid.congr ?_
    intro key own
    rw [apart key (.inl own),get_insert,if_neg]
    rintro rfl
    rw [group_not_stream] at own
    cases own
  · have written := @recorded_insert stream group changed state fits
    refine ⟨?_,fits⟩
    rw [apart _ (.inr rfl)]
    exact written.stored

/-- The first entry at or behind the cursor is the one at the cursor. -/
theorem Serves.first_entry {store : Store} (serves : Serves stream group events entries next record store.state) {entry : StreamEntry}
    (found : VoodooStore.first_entry store stream record.next_offset = .ok (some entry)) : entry.offset = record.next_offset := by
  unfold VoodooStore.first_entry at found
  have inner := mapError_eq_ok.mp found
  obtain ⟨handle,made,inner⟩ := bind_ok_iff.mp inner
  obtain ⟨-,-,rfl⟩ := stream_new_ok.mp made
  rw [serves.laid.read_from record.next_offset 1,ok_bind] at inner
  have head : ((entries.filter (fun entry => record.next_offset ≤ entry.offset)).take 1).head? = some entry := Except.ok.inj inner
  cases kept : entries.filter (fun entry => record.next_offset ≤ entry.offset) with
  | nil =>
    rw [kept] at head
    cases head
  | cons first rest =>
    rw [kept] at head
    cases head
    obtain ⟨member,behind⟩ := List.mem_filter.mp (show entry ∈ entries.filter (fun entry => record.next_offset ≤ entry.offset) by
      rw [kept]
      simp)
    have reached := UInt64.le_iff_toNat_le.mp (of_decide_eq_true behind)
    have below := serves.laid.below entry member
    obtain ⟨exact,inside,here⟩ := serves.whole record.next_offset.toNat (by omega)
    have equal : exact.offset = record.next_offset := UInt64.toNat_inj.mp here
    have listed : exact ∈ entry :: rest := by
      rw [← kept]
      exact List.mem_filter.mpr ⟨inside,decide_eq_true (by rw [equal]; exact UInt64.le_refl _)⟩
    rcases List.mem_cons.mp listed with same | later
    · rw [← same]
      exact equal
    · have sorted : (entry :: rest).Pairwise (fun a b => a.offset < b.offset) := by
        rw [← kept]
        exact serves.laid.lined.rises.filter _
      have less := (List.pairwise_cons.mp sorted).1 exact later
      rw [equal,UInt64.lt_iff_toNat_lt] at less
      omega

end

/-! ## Calls -/

/-- No append to the stream in the open transaction failed halfway. -/
def WholeStream (stream : Bytes) (log : List StreamFact) : Prop :=
  ∀ io payload result, .Staged (.AppendStream io stream payload) result true ∉ (account log).pending

def groupTerms (stream group : Bytes) : Terms StreamFailure StreamCall StreamTxCall StreamReply where
  mine := GroupKey stream group
  call _ call := call.io.Durable ∧ ∀ io next_offset, call ≠ .GroupReset io stream group next_offset
  callTx _ call := call.io.Durable
  commit := WholeStream stream

theorem group_key_injective {a b c d : Bytes} (fitsA : a.length < 2 ^ 32) (fitsB : b.length < 2 ^ 32) (fitsC : c.length < 2 ^ 32)
    (fitsD : d.length < 2 ^ 32) (same : groupKey a b = groupKey c d) : a = c ∧ b = d := by
  have tuples : Tuples.tuple 4 [a,b] ++ [] = Tuples.tuple 4 [c,d] ++ [] := by simpa using List.append_cancel_left same
  obtain ⟨equal,-⟩ := Tuples.tuple_injective (show [a,b].length = [c,d].length from rfl) (fits_pair fitsA fitsB)
    (fits_pair fitsC fitsD) tuples
  cases equal
  exact ⟨rfl,rfl⟩

/-- The calls that are about a group or its stream. -/
def StreamCall.Concerns (stream group : Bytes) : StreamCall → Prop
  | .Append _ s _ => s = stream
  | .AcknowledgeThrough _ _ _ _ => False
  | .ResetSubscription _ _ _ _ => False
  | .GroupClaim _ s g _ _ _ => s = stream ∧ g = group
  | .GroupAck _ s g _ _ _ => s = stream ∧ g = group
  | .GroupNack _ s g _ _ _ => s = stream ∧ g = group
  | .GroupReset _ s g _ => s = stream ∧ g = group

/-- The others write neither of them. -/
theorem group_call_elsewhere {stream group : Bytes} (fits : stream.length < 2 ^ 32) (short : group.length < 2 ^ 32) {call : StreamCall}
    (unconcerned : ¬ call.Concerns stream group) {key : Bytes} (own : GroupKey stream group key) : ¬ call.own key := by
  have others : ∀ s g, ¬ (s = stream ∧ g = group) → ¬ (s.length < 2 ^ 32 ∧ g.length < 2 ^ 32 ∧ key = groupKey s g) := by
    rintro s g different ⟨fitsS,fitsG,rfl⟩
    rcases own with inside | same
    · rw [group_not_stream] at inside
      cases inside
    · exact different (group_key_injective fitsS fitsG fits short same)
  have subs : ∀ t s, ¬ (t.length < 2 ^ 32 ∧ s.length < 2 ^ 32 ∧ key = subKey t s) := by
    rintro t s ⟨-,-,rfl⟩
    have apart := @prefixes_apart SUB_PREFIX
    rcases own with inside | same
    · rw [starts_with_iff] at inside
      exact apart (by decide) (List.prefix_append _ _) ((List.prefix_append STREAM_PREFIX _).trans inside)
    · have both : GROUP_PREFIX <+: subKey t s := by
        rw [same]
        exact List.prefix_append _ _
      exact apart (by decide) (List.prefix_append _ _) both
  cases call with
  | Append io other payload =>
    rintro ⟨fitsOther,inside⟩
    rcases own with mine | rfl
    · obtain ⟨rest,rfl⟩ := (starts_with_iff _ _).mp mine
      rw [stream_space_apart fits fitsOther (Ne.symm unconcerned)] at inside
      cases inside
    · rw [group_not_stream] at inside
      cases inside
  | AcknowledgeThrough io t s offset => exact subs t s
  | ResetSubscription io t s offset => exact subs t s
  | GroupClaim io s g consumer now_ms lease => exact others s g unconcerned
  | GroupAck io s g consumer offset lease => exact others s g unconcerned
  | GroupNack io s g consumer offset lease => exact others s g unconcerned
  | GroupReset io s g offset => exact others s g unconcerned

theorem unconcerned_silent {stream group : Bytes} {call : StreamCall} (unconcerned : ¬ call.Concerns stream group)
    (result : Except StreamFailure StreamReply) : groupEvents stream group (.Returned call result) = [] := by
  unfold groupEvents
  split
  · rename_i same
    cases same
    exact if_neg unconcerned
  · rename_i same
    cases same
    exact if_neg unconcerned
  · rename_i same
    cases same
    exact if_neg unconcerned
  · rfl

/-- Whoever presents a lease that is recorded holds the next entry. -/
theorem Serves.presented {stream group : Bytes} {entries : List StreamEntry} {next : Nat} {record : ConsumerGroupState}
    {consumer : Bytes} {offset lease_generation : UInt64} {store : Store} {key : Bytes} {state : ConsumerGroupState}
    {events : List (Deliveries.Event Bytes)} {model : Deliveries.Group Bytes}
    (serves : Serves stream group events entries next record store.state) (is : record.Matches model)
    (leased : Leased store stream group consumer offset lease_generation key state) :
    state = record ∧ model.holder = some consumer ∧ offset = record.next_offset ∧
      (⟨consumer,offset.toNat,lease_generation.toNat⟩ : Ticket Bytes) = model.ticket consumer := by
  have loaded := leased.found
  rw [leased.keyed] at loaded
  obtain ⟨there,loads,state_is⟩ := serves.recorded.loads
  rw [loads] at loaded
  cases loaded
  have same : state = record := state_is
  have held : ∃ holder, model.holder = some holder := by
    cases free : model.holder with
    | none =>
      have none_leased := is.free free
      rw [← same,leased.leased] at none_leased
      cases none_leased
    | some holder => exact ⟨holder,rfl⟩
  obtain ⟨holder,holds⟩ := held
  obtain ⟨at_cursor,owned⟩ := is.held holder holds
  have owner_is : holder = consumer := by rw [← owned,← same,leased.owner]
  have offset_is : offset = record.next_offset := by
    rw [← same,leased.leased,same] at at_cursor
    exact Option.some.inj at_cursor
  refine ⟨same,by rw [holds,owner_is],offset_is,?_⟩
  rw [Group.ticket,← is.next,← is.generation,← offset_is,← same,leased.generation]

theorem whole_stream_snoc {stream : Bytes} {log : List StreamFact} {call : StreamTxCall} {result : Except StreamFailure StreamReply} {spoiled : Bool}
    (whole : WholeStream stream (log ++ [Happened.Staged call result spoiled])) :
    WholeStream stream log ∧ ∀ io payload, call = .AppendStream io stream payload → spoiled = false := by
  have pending : (account (log ++ [Happened.Staged call result spoiled])).pending = (account log).pending ++ [Happened.Staged call result spoiled] := by
    rw [account_snoc]
    rfl
  constructor
  · intro io payload other member
    refine whole io payload other ?_
    rw [pending]
    exact List.mem_append_left _ member
  · rintro io payload rfl
    cases spoiled with
    | false => rfl
    | true =>
      refine absurd ?_ (whole io payload result)
      rw [pending]
      simp

section
variable [Hashes] {stream group : Bytes} {facts : List StreamFact} {entries : List StreamEntry} {next : Nat} {record : ConsumerGroupState}

theorem store_state_ok {io : Io} {key : Bytes} {state : ConsumerGroupState} {store t : Store} {x : Unit}
    (done : store_state io key state store = .ok x t) :
    state.owner.length < 2 ^ 32 ∧ SameData (store.state.insert key state.spelling) t.state := by
  obtain ⟨encoded,encodes,done⟩ := lift_bind_ok.mp done
  obtain ⟨fits,rfl⟩ := encode_state_ok encodes
  exact ⟨fits,put_alone_ok (rethrow_ok.mp done)⟩

/-- A claim hands out the entry at the cursor under a new generation, or withdraws the lease, or does nothing. -/
theorem claim_serves {io : Io} {consumer : Bytes} {now_ms : Int64} {lease_duration_ms : UInt64} {store t : Store}
    {delivery : Option ConsumerGroupDelivery} {events : List (Deliveries.Event Bytes)}
    (serves : Serves stream group events entries next record store.state)
    (done : consumer_group_claim io stream group consumer now_ms lease_duration_ms store = .ok delivery t) :
    ∃ changed, Serves stream group (events ++ claimEvents consumer delivery) entries next changed t.state := by
  obtain ⟨model,run,is⟩ := serves.run
  unfold consumer_group_claim at done
  obtain ⟨_,-,done⟩ := lift_bind_ok.mp done
  obtain ⟨key,keyed,done⟩ := lift_bind_ok.mp done
  obtain ⟨-,-,rfl⟩ := group_key_ok.mp keyed
  rw [get_bind] at done
  obtain ⟨found,loaded,done⟩ := lift_bind_ok.mp done
  obtain ⟨there,loads,state_is⟩ := serves.recorded.loads
  rw [loads] at loaded
  cases loaded
  rw [state_is] at done
  dsimp only at done
  split at done
  · cases done
    exact ⟨record,by simpa [claimEvents] using serves⟩
  obtain ⟨entry,read,done⟩ := lift_bind_ok.mp done
  cases entry with
  | none =>
    dsimp only at done
    split at done
    · obtain ⟨_,_,written,done⟩ := bind_ok.mp done
      cases done
      obtain ⟨fits,same⟩ := store_state_ok written
      refine ⟨clear_lease record,?_⟩
      have cleared := serves.record_written fits ⟨_,run.withdrawn,⟨is.next,is.generation,fun _ => rfl,by simp⟩⟩ same
      simpa [claimEvents] using cleared
    · cases done
      exact ⟨record,by simpa [claimEvents] using serves⟩
  | some entry =>
    obtain ⟨duration,-,done⟩ := lift_bind_ok.mp done
    obtain ⟨until_ms,-,done⟩ := lift_bind_ok.mp done
    obtain ⟨generation,added,done⟩ := lift_bind_ok.mp done
    obtain ⟨_,_,written,done⟩ := bind_ok.mp done
    cases done
    obtain ⟨fits,same⟩ := store_state_ok written
    have here := serves.first_entry read
    have above := u64_checked_add_some (ok_or_ok.mp added)
    rw [UInt64.toNat_one] at above
    have matched : generation.toNat = model.generation + 1 := by rw [above,is.generation]
    refine ⟨_,serves.record_written fits ⟨⟨model.next,some consumer,model.generation + 1⟩,?_,?_⟩ same⟩
    · have handed := run.delivered consumer
      rw [← is.next,← here,← matched] at handed
      rw [← is.next,← here,← matched]
      exact handed
    · refine ⟨is.next,matched,by simp,?_⟩
      intro holder same_holder
      cases same_holder
      exact ⟨by rw [here],rfl⟩

theorem ack_serves {io : Io} {consumer : Bytes} {offset lease_generation : UInt64} {store t : Store} {x : Unit}
    {events : List (Deliveries.Event Bytes)} (serves : Serves stream group events entries next record store.state)
    (done : consumer_group_ack io stream group consumer offset lease_generation store = .ok x t) :
    ∃ changed, Serves stream group (events ++ [.Acked ⟨consumer,offset.toNat,lease_generation.toNat⟩]) entries next changed t.state := by
  obtain ⟨model,run,is⟩ := serves.run
  obtain ⟨⟨key,state⟩,middle,presented,done⟩ := bind_ok.mp done
  have leased := leased_group_ok presented
  rw [(leased_group_reads _ _ _ _ _).ok presented] at done
  obtain ⟨same_state,holds,here,ticket⟩ := serves.presented is leased
  obtain ⟨following,added,done⟩ := lift_bind_ok.mp done
  obtain ⟨fits,same⟩ := store_state_ok done
  rw [show key = groupKey stream group from leased.keyed] at same
  have above := u64_checked_add_some (ok_or_ok.mp added)
  rw [UInt64.toNat_one,here,is.next] at above
  refine ⟨_,serves.record_written fits ⟨⟨model.next + 1,none,model.generation⟩,?_,?_⟩ same⟩
  · rw [ticket]
    exact run.acked holds
  · refine ⟨above,?_,fun _ => rfl,by simp⟩
    show state.lease_generation.toNat = _
    rw [same_state]
    exact is.generation

theorem nack_serves {io : Io} {consumer : Bytes} {offset lease_generation : UInt64} {store t : Store} {x : Unit}
    {events : List (Deliveries.Event Bytes)} (serves : Serves stream group events entries next record store.state)
    (done : consumer_group_nack io stream group consumer offset lease_generation store = .ok x t) :
    ∃ changed, Serves stream group (events ++ [.Nacked ⟨consumer,offset.toNat,lease_generation.toNat⟩]) entries next changed t.state := by
  obtain ⟨model,run,is⟩ := serves.run
  obtain ⟨⟨key,state⟩,middle,presented,done⟩ := bind_ok.mp done
  have leased := leased_group_ok presented
  rw [(leased_group_reads _ _ _ _ _).ok presented] at done
  obtain ⟨same_state,holds,-,ticket⟩ := serves.presented is leased
  obtain ⟨fits,same⟩ := store_state_ok done
  rw [show key = groupKey stream group from leased.keyed] at same
  refine ⟨_,serves.record_written fits ⟨⟨model.next,none,model.generation⟩,?_,?_⟩ same⟩
  · rw [ticket]
    exact run.nacked holds
  · refine ⟨?_,?_,fun _ => rfl,by simp⟩
    · show state.next_offset.toNat = _
      rw [same_state]
      exact is.next
    · show state.lease_generation.toNat = _
      rw [same_state]
      exact is.generation

/-- A call keeps the stream and the group in line with their history. -/
theorem call_serves (fits : stream.length < 2 ^ 32) (short : group.length < 2 ^ 32) {call : StreamCall} (durable : call.io.Durable)
    (unreset : ∀ io next_offset, call ≠ .GroupReset io stream group next_offset) {store : Store}
    (serves : Serves stream group (groupHistory stream group facts) entries next record store.state) :
    ∃ entries next record, Serves stream group (groupHistory stream group
      (facts ++ [Happened.Returned call (returned (streams.on_store call) store)])) entries next record (after (streams.on_store call) store).state := by
  have elsewhere := (stream_call_confined call).elsewhere store
  have keeps := (stream_call_atomic durable).keeps store
  rw [group_history_snoc]
  unfold returned
  cases result : streams.on_store call store with
  | error e t =>
    have left : (after (streams.on_store call) store) = t := by unfold after; rw [result]
    have silent : groupEvents stream group (.Returned call (.error e)) = [] := by cases call <;> rfl
    rw [left,keeps e t result,silent,List.append_nil]
    exact ⟨entries,next,record,serves⟩
  | ok reply t =>
    have left : (after (streams.on_store call) store) = t := by unfold after; rw [result]
    rw [left] at elsewhere ⊢
    by_cases concerned : call.Concerns stream group
    · cases call with
      | Append io s payload =>
        obtain rfl : s = stream := concerned
        obtain ⟨offset,_,appended,done⟩ := bind_ok.mp result
        cases done
        obtain ⟨here,laid⟩ := append_laid serves.laid (rethrow_ok.mp appended)
        subst here
        have silent : groupEvents s group (.Returned (.Append io s payload) (.ok (.Appended (UInt64.ofNat next)))) = [] := rfl
        rw [silent,List.append_nil]
        refine ⟨_,_,_,serves.append laid (elsewhere _ (group_key_apart (.inr rfl)) ?_)⟩
        rintro ⟨-,inside⟩
        rw [group_not_stream] at inside
        cases inside
      | AcknowledgeThrough io t s offset => exact concerned.elim
      | ResetSubscription io t s offset => exact concerned.elim
      | GroupClaim io s g consumer now_ms lease_duration_ms =>
        obtain ⟨rfl,rfl⟩ := concerned
        obtain ⟨delivery,_,claimed,done⟩ := bind_ok.mp result
        cases done
        obtain ⟨changed,served⟩ := claim_serves serves (rethrow_ok.mp claimed)
        have event : groupEvents s g (.Returned (.GroupClaim io s g consumer now_ms lease_duration_ms) (.ok (.Claimed delivery))) =
            claimEvents consumer delivery := if_pos ⟨rfl,rfl⟩
        rw [event]
        exact ⟨entries,next,changed,served⟩
      | GroupAck io s g consumer offset lease_generation =>
        obtain ⟨rfl,rfl⟩ := concerned
        obtain ⟨_,_,acked,done⟩ := bind_ok.mp result
        cases done
        obtain ⟨changed,served⟩ := ack_serves serves (rethrow_ok.mp acked)
        have event : groupEvents s g (.Returned (.GroupAck io s g consumer offset lease_generation) (.ok .Done)) =
            [.Acked ⟨consumer,offset.toNat,lease_generation.toNat⟩] := if_pos ⟨rfl,rfl⟩
        rw [event]
        exact ⟨entries,next,changed,served⟩
      | GroupNack io s g consumer offset lease_generation =>
        obtain ⟨rfl,rfl⟩ := concerned
        obtain ⟨_,_,nacked,done⟩ := bind_ok.mp result
        cases done
        obtain ⟨changed,served⟩ := nack_serves serves (rethrow_ok.mp nacked)
        have event : groupEvents s g (.Returned (.GroupNack io s g consumer offset lease_generation) (.ok .Done)) =
            [.Nacked ⟨consumer,offset.toNat,lease_generation.toNat⟩] := if_pos ⟨rfl,rfl⟩
        rw [event]
        exact ⟨entries,next,changed,served⟩
      | GroupReset io s g next_offset =>
        obtain ⟨rfl,rfl⟩ := concerned
        exact absurd rfl (unreset io next_offset)
    · rw [unconcerned_silent concerned,List.append_nil]
      refine ⟨entries,next,record,serves.congr (fun key own => ?_)⟩
      exact elsewhere key (group_key_apart own) (group_call_elsewhere fits short concerned own)

/-- So does an append in a transaction that does not fail halfway. -/
theorem stage_serves (fits : stream.length < 2 ^ 32) {call : StreamTxCall} (durable : call.io.Durable) {tx : Transaction}
    (serves : Serves stream group (groupHistory stream group facts) entries next record tx.view)
    (whole : ∀ io payload, call = .AppendStream io stream payload → halfway (streams.on_tx call) tx = false) :
    ∃ entries next record, Serves stream group (groupHistory stream group
      (facts ++ [Happened.Staged call (returned (streams.on_tx call) tx) (halfway (streams.on_tx call) tx)])) entries next record
      (after (streams.on_tx call) tx).view := by
  obtain ⟨io,other,payload⟩ := call
  have elsewhere : Elsewhere (StreamTxCall.own (.AppendStream io other payload)) tx.view
      (after (streams.on_tx (.AppendStream io other payload)) tx).view :=
    ((append_stream_confined io other payload).rethrow.bind (fun _ => confined_view_of_reads (reads_pure _))).elsewhere tx
  have stages : Stages (streams.on_tx (.AppendStream io other payload)) :=
    (append_stream_stages durable.1 other payload).rethrow.bind (fun _ => stages_of_reads (reads_pure _))
  have silent : ∀ result spoiled, groupEvents stream group (.Staged (.AppendStream io other payload) result spoiled) = [] :=
    fun _ _ => rfl
  rw [group_history_snoc,silent,List.append_nil]
  by_cases here : other = stream
  · subst here
    have unspoiled := whole io payload rfl
    cases result : append_stream io other payload tx with
    | ok offset u =>
      have done : streams.on_tx (.AppendStream io other payload) tx = .ok (.Appended offset) u :=
        bind_ok.mpr ⟨offset,u,rethrow_ok.mpr result,rfl⟩
      have left : after (streams.on_tx (.AppendStream io other payload)) tx = u := by unfold after; rw [done]
      have appended := @append_stream_laid _ _ payload io _ _ _ serves.laid
      rw [result] at appended
      obtain ⟨rfl,laid⟩ := appended
      rw [left] at elsewhere ⊢
      refine ⟨_,_,_,serves.append laid (elsewhere _ (group_key_apart (.inr rfl)) ?_)⟩
      rintro ⟨-,inside⟩
      rw [group_not_stream] at inside
      cases inside
    | error e u =>
      have failed : streams.on_tx (.AppendStream io other payload) tx = .error (.Tx e) u :=
        bind_error.mpr (.inl (rethrow_error.mpr ⟨e,result,rfl⟩))
      have left : after (streams.on_tx (.AppendStream io other payload)) tx = u := by unfold after; rw [failed]
      rw [left,stages.unspoiled failed unspoiled]
      exact ⟨entries,next,record,serves⟩
  · refine ⟨entries,next,record,serves.congr (fun key own => elsewhere key (group_key_apart own) ?_)⟩
    rintro ⟨short,inside⟩
    rcases own with mine | rfl
    · obtain ⟨rest,rfl⟩ := (starts_with_iff _ _).mp mine
      rw [stream_space_apart fits short (Ne.symm here)] at inside
      cases inside
    · rw [group_not_stream] at inside
      cases inside

theorem group_preserved (fits : stream.length < 2 ^ 32) (short : group.length < 2 ^ 32) :
    Preserved streams (groupTerms stream group) (fun state view log =>
      (∃ entries next record, Serves stream group (groupHistory stream group (account log).done) entries next record state) ∧
      ∀ seen, view = some seen → WholeStream stream log → ∃ entries next record,
        Serves stream group (groupHistory stream group ((account log).done ++ (account log).pending)) entries next record seen) := by
  constructor
  · exact fun call _ ok => (stream_call_atomic ok.1).steady
  · rintro ⟨io,other,payload⟩ _ durable
    exact (append_stream_stages durable.1 other payload).rethrow.bind (fun _ => stages_of_reads (reads_pure _))
  · rintro call store log ⟨durable,unreset⟩ ⟨⟨entries,next,record,serves⟩,-⟩
    rw [account_snoc]
    exact ⟨call_serves fits short durable unreset serves,by simp⟩
  · rintro state log ⟨now,-⟩
    rw [account_snoc]
    refine ⟨now,?_⟩
    rintro _ ⟨⟩ -
    show ∃ entries next record, Serves stream group (groupHistory stream group ((account log).done ++ [])) entries next record state
    rw [List.append_nil]
    exact now
  · rintro call tx log durable ⟨now,seen⟩
    refine ⟨by rw [account_snoc]; exact now,?_⟩
    rintro _ ⟨⟩ whole
    obtain ⟨earlier,here⟩ := whole_stream_snoc whole
    obtain ⟨entries,next,record,serves⟩ := seen tx.view rfl earlier
    have staged := stage_serves fits durable serves here
    rw [List.append_assoc] at staged
    rw [account_snoc]
    exact staged
  · rintro state view following log same ⟨now,seen⟩
    refine ⟨now,?_⟩
    rintro _ ⟨⟩ whole
    obtain ⟨entries,next,record,serves⟩ := seen view rfl whole
    exact ⟨entries,next,record,serves.congr same⟩
  · rintro state view following log whole same ⟨-,seen⟩
    rw [account_snoc]
    obtain ⟨entries,next,record,serves⟩ := seen view rfl whole
    exact ⟨⟨entries,next,record,serves.congr (fun key own => same key (group_key_apart own))⟩,by simp⟩
  · rintro state view log ⟨now,-⟩
    rw [account_snoc]
    exact ⟨now,by simp⟩

end

/-- What is true of a group: a lease is on the next entry; what is acknowledged
    is everything before it, in order; what is handed out is the first entry that
    is not acknowledged, under a new generation; whoever settles an entry was
    handed it last, and anyone else is refused. -/
structure GroupDelivered (stream group : Bytes) (store : Store) (events : List (Deliveries.Event Bytes)) : Prop where
  state : ∃ state, store.consumer_group_state stream group = .ok state ∧
    (∀ offset, state.leased_offset = some offset → offset = state.next_offset) ∧
    (acks events).map Ticket.offset = List.range state.next_offset.toNat
  unskipped : ∀ before ticket after, events = before ++ .Delivered ticket :: after → ticket.offset = (acks before).length
  fenced : (tickets events).Pairwise (fun a b => a.generation < b.generation)
  acked : ∀ before ticket after, events = before ++ .Acked ticket :: after → before.getLast? = some (.Delivered ticket)
  nacked : ∀ before ticket after, events = before ++ .Nacked ticket :: after → before.getLast? = some (.Delivered ticket)
  refused : ∀ [Hashes] (io : Io) (consumer : Bytes) (offset lease_generation : UInt64), io.Durable →
    events.getLast? ≠ some (.Delivered ⟨consumer,offset.toNat,lease_generation.toNat⟩) →
    ∀ settle ∈ [consumer_group_ack io stream group consumer offset lease_generation,
        consumer_group_nack io stream group consumer offset lease_generation],
      (∃ error, returned settle store = .error error) ∧
        (after settle store).consumer_group_state stream group = store.consumer_group_state stream group

/-- Whoever settles an entry was handed it last. -/
theorem Serves.settled {stream group consumer : Bytes} {offset lease_generation : UInt64} {store t : Store}
    {found : Bytes × ConsumerGroupState} {events : List (Deliveries.Event Bytes)} {entries : List StreamEntry} {next : Nat}
    {record : ConsumerGroupState} (serves : Serves stream group events entries next record store.state)
    (presented : leased_group stream group consumer offset lease_generation store = .ok found t) :
    events.getLast? = some (.Delivered ⟨consumer,offset.toNat,lease_generation.toNat⟩) := by
  obtain ⟨model,run,is⟩ := serves.run
  obtain ⟨key,state⟩ := found
  obtain ⟨-,holds,-,ticket⟩ := serves.presented is (leased_group_ok presented)
  rw [run.holder holds,ticket]

theorem Serves.delivered {stream group key : Bytes} {store : Store} {events : List (Deliveries.Event Bytes)} {entries : List StreamEntry}
    {next : Nat} {record : ConsumerGroupState} (serves : Serves stream group events entries next record store.state)
    (named : validate_names stream group (ascii "reader") = .ok ()) (keyed : group_key stream group = .ok key) :
    GroupDelivered stream group store events := by
  obtain ⟨-,-,rfl⟩ := group_key_ok.mp keyed
  obtain ⟨model,run,is⟩ := serves.run
  have read : store.consumer_group_state stream group = .ok record := by
    obtain ⟨found,loads,state_is⟩ := serves.recorded.loads
    unfold Store.consumer_group_state
    rw [named,ok_bind,keyed,ok_bind,loads,ok_bind,state_is]
    rfl
  refine ⟨⟨record,read,?_,?_⟩,?_,run.rises,?_,?_,?_⟩
  · intro offset leased
    cases held : model.holder with
    | none =>
      rw [is.free held] at leased
      cases leased
    | some consumer =>
      rw [(is.held consumer held).1] at leased
      exact (Option.some.inj leased).symm
  · rw [run.in_order,is.next]
  · intro before ticket after split
    rw [split] at run
    exact run.delivered_next
  · intro before ticket after split
    rw [split] at run
    exact run.acked_by_holder
  · intro before ticket after split
    rw [split] at run
    exact run.nacked_by_holder
  · intro _ io consumer offset lease_generation durable other settle member
    have fails : (∃ error, returned settle store = .error error) ∧ Atomic settle := by
      have unpresented : ∃ error t, leased_group stream group consumer offset lease_generation store = .error error t := by
        cases result : leased_group stream group consumer offset lease_generation store with
        | ok found t => exact absurd (serves.settled result) other
        | error e t => exact ⟨e,t,rfl⟩
      obtain ⟨e,t,failed⟩ := unpresented
      rcases List.mem_cons.mp member with rfl | last
      · refine ⟨⟨e,?_⟩,.checked (leased_group_reads _ _ _ _ _) (fun found => .checked (reads_lift _) (fun _ => ?_))⟩
        · unfold returned consumer_group_ack
          rw [bind_of_error failed]
        · exact store_state_atomic durable _ _
      · rw [List.mem_singleton.mp last]
        refine ⟨⟨e,?_⟩,.checked (leased_group_reads _ _ _ _ _) (fun found => store_state_atomic durable _ _)⟩
        unfold returned consumer_group_nack
        rw [bind_of_error failed]
    obtain ⟨⟨error,refused⟩,atomic⟩ := fails
    refine ⟨⟨error,refused⟩,?_⟩
    have same := atomic.keeps store error _ (returned_error refused)
    unfold Store.consumer_group_state ConsumerGroup.load_state Store.get
    rw [same]

section
variable [Hashes]

/-- In every run on a new store in which no transaction is committed whose append
    to the stream failed halfway, and the group is not reset, whatever else is
    done with streams, topics and groups, by calls or in transactions. -/
theorem group_delivery {stream group key : Bytes} (named : validate_names stream group (ascii "reader") = .ok ())
    (keyed : group_key stream group = .ok key) {io : Io} {path : Path} {options : StoreOptions} {store : Store} {left : Bytes}
    (opened : open_with_options io path options [] = .ok store left) {moves : List (Move StreamCall StreamTxCall)}
    (along : (Play.mk (.Idle store) []).Along streams (groupTerms stream group) moves) :
    let play := Play.steps streams ⟨.Idle store,[]⟩ moves
    GroupDelivered stream group play.session.store (groupHistory stream group (account play.log).done) := by
  obtain ⟨fits,short,-⟩ := group_key_ok.mp keyed
  have start : ∃ entries next record, Serves stream group [] entries next record ∅ := ⟨[],0,.default,serves_empty stream group⟩
  have kept := play_invariant (group_preserved fits short) ⟨start,by simp⟩ opened along
  obtain ⟨entries,next,record,serves⟩ := kept.holds.1
  exact serves.delivered named keyed

end

/-- An append fails after it has raised the counter, and its transaction is
    committed all the same; then there is room for an entry, which is claimed. -/
def halfwayAppend : List (Move StreamCall StreamTxCall) :=
  [.Begin,.CallTx (.AppendStream calm [115] (List.replicate 200 0)),.Commit calm,.Reopen calm ["a.vstore"] .default,
    .Call (.Append calm [115] [1]),.Call (.GroupClaim calm [115] [103] [99] 0 5)]

set_option maxRecDepth 20000 in
/-- The lease is not on the next entry of the group. -/
theorem halfway_append_skips_entry : ∃ store left, @open_with_options crates calm ["a.vstore"] smallStore [] = .ok store left ∧
    (∀ move ∈ halfwayAppend, move.Fine (GroupKey [115] [103]) (fun call => call.io.Durable ∧
      ∀ io stream group next_offset, call ≠ .GroupReset io stream group next_offset) (fun call => call.io.Durable)) ∧
    ¬ GroupDelivered [115] [103] (@Play.steps crates _ _ _ _ (@streams crates) ⟨.Idle store,[]⟩ halfwayAppend).session.store
      (groupHistory [115] [103] (account (@Play.steps crates _ _ _ _ (@streams crates) ⟨.Idle store,[]⟩ halfwayAppend).log).done) := by
  have evaluated : passes (@open_with_options crates calm ["a.vstore"] smallStore []) (fun store _ =>
        let store := (@Play.steps crates _ _ _ _ (@streams crates) ⟨.Idle store,[]⟩ halfwayAppend).session.store
        decide ((store.consumer_group_state [115] [103]).toOption.map (fun state => (state.next_offset,state.leased_offset)) =
          some (0,some 1))) = true := by
    rw [crates_eq_quick]
    decide +kernel
  obtain ⟨store,left,opened⟩ := @sound_opens crates calm [] ["a.vstore"] smallStore calm_faultless (.inl rfl)
  rw [opened,passes_ok] at evaluated
  have recorded := of_decide_eq_true evaluated
  refine ⟨store,left,opened,?_,?_⟩
  · intro move member
    simp only [halfwayAppend,List.mem_cons,List.not_mem_nil,or_false] at member
    rcases member with rfl | rfl | rfl | rfl | rfl | rfl
    · exact trivial
    · exact calm_durable
    · exact calm_durable
    · exact trivial
    · exact ⟨calm_durable,by simp⟩
    · exact ⟨calm_durable,by simp⟩
  · intro delivered
    obtain ⟨state,read,leased,-⟩ := delivered.state
    rw [read] at recorded
    have parts : (state.next_offset,state.leased_offset) = (0,some 1) := Option.some.inj recorded
    obtain ⟨cursor,lease⟩ := Prod.mk.inj parts
    have here := leased 1 lease
    rw [cursor] at here
    exact absurd here (by decide)

/-- An entry is claimed, another consumer takes it over when the lease has expired, and acknowledges it. -/
def claimedTwice : List (Move StreamCall StreamTxCall) :=
  [.Call (.Append calm [115] [1]),.Begin,.CallTx (.AppendStream calm [115] [2]),.Rollback,
    .Call (.GroupClaim calm [115] [103] [99] 0 5),.Call (.GroupClaim calm [115] [103] [100] 5 5),
    .Call (.GroupAck calm [115] [103] [99] 0 1),.Call (.GroupAck calm [115] [103] [100] 0 2),.Reopen calm ["a.vstore"] .default]

theorem claimed_twice_delivered : ∃ store left, @open_with_options crates calm ["a.vstore"] .default [] = .ok store left ∧
    GroupDelivered [115] [103] (@Play.steps crates _ _ _ _ (@streams crates) ⟨.Idle store,[]⟩ claimedTwice).session.store
      (groupHistory [115] [103] (account (@Play.steps crates _ _ _ _ (@streams crates) ⟨.Idle store,[]⟩ claimedTwice).log).done) := by
  obtain ⟨store,left,opened⟩ := @sound_opens crates calm [] ["a.vstore"] .default calm_faultless (.inl rfl)
  have named : validate_names [115] [103] (ascii "reader") = .ok () := by decide
  have keyed : group_key [115] [103] = .ok (groupKey [115] [103]) := rfl
  refine ⟨store,left,opened,@group_delivery crates _ _ _ named keyed _ _ _ _ _ opened _ ?_⟩
  refine @along_of_fine crates _ _ _ _ _ (groupTerms [115] [103])
    (fun call => call.io.Durable ∧ ∀ io next_offset, call ≠ .GroupReset io [115] [103] next_offset) (fun call => call.io.Durable) _
    (fun _ _ fine => fine) (fun _ _ durable => durable) ?_ ?_ _
  · intro io log member
    simp [claimedTwice] at member
  · intro move member
    simp only [claimedTwice,List.mem_cons,List.not_mem_nil,or_false] at member
    rcases member with rfl | rfl | rfl | rfl | rfl | rfl | rfl | rfl | rfl
    · exact ⟨calm_durable,by simp⟩
    · exact trivial
    · exact calm_durable
    · exact trivial
    · exact ⟨calm_durable,by simp⟩
    · exact ⟨calm_durable,by simp⟩
    · exact ⟨calm_durable,by simp⟩
    · exact ⟨calm_durable,by simp⟩
    · exact trivial

end VoodooStore
