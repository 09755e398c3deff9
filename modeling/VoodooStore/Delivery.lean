import VoodooStore.TransactionDomains
import VoodooStore.Lib.Leases

/-!
# Delivery

Pushes, claims and settlements of a queue are histories of leased work
(`Leases.Run`), whatever order they come in and whoever makes them: the messages
in the store are those that the history of the queue leaves open or dead
(`Stocked`).
-/
namespace VoodooStore
open Effects Reading Leases
set_option linter.unusedSimpArgs false

/-! ## Keys of a queue -/

def queueSpace (name : Bytes) : Bytes := QUEUE_PREFIX ++ ((UInt32.ofNat name.length).to_be_bytes ++ name)

def queueOf (name : Bytes) : Queue := ⟨name,queueSpace name ++ ascii ":next",queueSpace name ++ ascii ":m:"⟩

theorem queue_new_ok {name : Bytes} {queue : Queue} (made : Queue.new name = .ok queue) : name.length < 2 ^ 32 ∧ queue = queueOf name := by
  unfold Queue.new UInt32.try_from at made
  split at made
  · cases made
  by_cases fits : name.length < 2 ^ 32
  · rw [if_pos fits] at made
    cases made
    exact ⟨fits,rfl⟩
  · rw [if_neg fits] at made
    cases made

theorem queue_namespace_ok {name ns : Bytes} (made : queue_namespace name = .ok ns) : name.length < 2 ^ 32 ∧ ns = queueSpace name := by
  unfold queue_namespace UInt32.try_from at made
  by_cases fits : name.length < 2 ^ 32
  · rw [if_pos fits] at made
    cases made
    exact ⟨fits,rfl⟩
  · rw [if_neg fits] at made
    cases made

/-- Two names that differ have keys that differ. -/
theorem space_apart {a b : Bytes} (fitsA : a.length < 2 ^ 32) (fitsB : b.length < 2 ^ 32) (different : a ≠ b) (rest : Bytes) :
    starts_with (queueSpace a ++ rest) (queueSpace b) = false := by
  rw [Bool.eq_false_iff,ne_eq,starts_with_iff,queueSpace,queueSpace,List.append_assoc,Tuples.append_front rfl,List.append_assoc,
    Tuples.append_front (by simp)]
  rintro ⟨-,lengths,inside⟩
  have sizes : b.length = a.length := by
    have same := congrArg UInt32.toNat (u32_to_be_injective lengths)
    rwa [u32_of_length fitsB,u32_of_length fitsA] at same
  have padded : b ++ [] <+: a ++ rest := by simpa using inside
  exact different ((Tuples.append_front sizes).mp padded).1.symm

theorem meta_not_message (name : Bytes) : starts_with (queueOf name).meta_key (Queue.message_prefix (queueOf name)) = false := by
  rw [Bool.eq_false_iff,ne_eq,starts_with_iff]
  show ¬ queueSpace name ++ ascii ":m:" <+: queueSpace name ++ ascii ":next"
  rw [Tuples.append_front rfl]
  rintro ⟨-,inside⟩
  exact absurd inside (by decide)

theorem message_key_starts (queue : Queue) (id : UInt64) : starts_with (queue.message_key id) (Queue.message_prefix queue) = true := by
  rw [starts_with_iff]
  exact List.prefix_append _ _

theorem message_key_injective {queue : Queue} {a b : UInt64} (same : queue.message_key a = queue.message_key b) : a = b :=
  u64_to_be_injective (List.append_cancel_left same)

theorem message_key_inside (name : Bytes) (id : UInt64) :
    (queueOf name).message_key id = queueSpace name ++ (ascii ":m:" ++ id.to_be_bytes) := by
  show queueSpace name ++ ascii ":m:" ++ id.to_be_bytes = _
  rw [List.append_assoc]

/-- A key of the queue is not one of the feed. -/
theorem queue_apart (name : Bytes) {key : Bytes} (own : starts_with key (queueSpace name) = true) : starts_with key CDC_PREFIX = false := by
  rw [starts_with_iff] at own
  exact domain_key_outside ⟨QUEUE_PREFIX,by decide,(List.prefix_append _ _).trans own⟩

/-! ## Messages -/

def StoredMessage.spelling (message : StoredMessage) : Bytes :=
  [MESSAGE_VERSION] ++ ([message.state.as_u8] ++ (message.id.to_le_bytes ++ (message.attempts.to_le_bytes ++
    (message.priority.to_le_bytes ++ (message.available_at_ms.to_le_bytes ++ (message.lease_until_ms.to_le_bytes ++
      ((UInt32.ofNat message.payload.length).to_le_bytes ++ message.payload)))))))

def StoredMessage.Fits (message : StoredMessage) : Prop := message.payload.length < 2 ^ 32

theorem encode_message_ok {message : StoredMessage} {encoded : Bytes} (done : encode_message message = .ok encoded) :
    message.Fits ∧ encoded = message.spelling := by
  unfold encode_message at done
  obtain ⟨payload,written,done⟩ := bind_ok_iff.mp done
  cases done
  obtain ⟨fits,rfl⟩ := write_bytes_ok written
  exact ⟨fits,rfl⟩

/-- What a transaction pushes is what the store pushes. -/
theorem encode_queue_message_ok {id : UInt64} {payload encoded : Bytes} {options : PushOptions}
    (done : encode_queue_message id payload options = .ok encoded) :
    ∃ message : StoredMessage, message.Fits ∧ encoded = message.spelling ∧ message.id = id ∧ message.state = .Ready ∧ message.attempts = 0 := by
  unfold encode_queue_message at done
  obtain ⟨written,writes,done⟩ := bind_ok_iff.mp done
  cases done
  obtain ⟨fits,rfl⟩ := write_bytes_ok writes
  exact ⟨⟨.Ready,id,payload,0,options.priority,options.available_at_ms,0⟩,fits,rfl,rfl,rfl,rfl⟩

theorem queue_state_round_trip (state : QueueState) : QueueState.try_from state.as_u8 = .ok state := by
  cases state <;> rfl

/-- A message is read from its spelling. -/
theorem decode_message_spelling {message : StoredMessage} (fits : message.Fits) : decode_message message.spelling = .ok message := by
  have parses : Parses USIZE read_message message.spelling message := by
    refine (parses_u8 MESSAGE_VERSION).bind ?_
    rw [if_neg (by simp)]
    refine (parses_u8 message.state.as_u8).bind ?_
    rw [queue_state_round_trip]
    refine (parses_u64 message.id).bind ((parses_u32 message.attempts).bind ((parses_i32 message.priority).bind ?_))
    refine (parses_i64 message.available_at_ms).bind ((parses_i64 message.lease_until_ms).bind ?_)
    exact (parses_bytes fits).ends (parses_pure _)
  have small : message.spelling.length < USIZE := by
    have payload : message.payload.length < 2 ^ 32 := fits
    simp [StoredMessage.spelling,USIZE]
    omega
  exact parses.readAll _ small

theorem spelling_injective {a b : StoredMessage} (fitsA : a.Fits) (fitsB : b.Fits) (same : a.spelling = b.spelling) : a = b := by
  have readA := decode_message_spelling fitsA
  rw [same,decode_message_spelling fitsB] at readA
  exact (Except.ok.inj readA).symm

/-! ## What a queue holds -/

def QueueState.phase : QueueState → Phase
  | .Ready => .Waiting
  | .Leased => .Held
  | .Dead => .Retired

def StoredMessage.item (message : StoredMessage) : Item := ⟨message.state.phase,message.attempts.toNat⟩

/-- The map holds the queue as its history leaves it, after the given number of pushes. -/
structure Stocked (name : Bytes) (pushed : Nat) (ledger : Ledger UInt64) (state : State) : Prop where
  next : (pushed = 0 ∧ state[(queueOf name).meta_key]? = none) ∨
    (pushed + 1 < 2 ^ 64 ∧ state[(queueOf name).meta_key]? = some (UInt64.ofNat (pushed + 1)).to_le_bytes)
  entries : ∀ key value, starts_with key (Queue.message_prefix (queueOf name)) = true → state[key]? = some value →
    ∃ message : StoredMessage, message.Fits ∧ key = (queueOf name).message_key message.id ∧ value = message.spelling ∧
      ledger message.id = some message.item
  items : ∀ id item, ledger id = some item → item.phase ≠ .Gone →
    ∃ message : StoredMessage, message.Fits ∧ message.id = id ∧ item = message.item ∧
      state[(queueOf name).message_key id]? = some message.spelling
  known : ∀ id item, ledger id = some item → 1 ≤ id.toNat ∧ id.toNat ≤ pushed

theorem stocked_empty (name : Bytes) : Stocked name 0 (fun _ => none) ∅ := by
  refine ⟨.inl ⟨rfl,by simp⟩,?_,by simp,by simp⟩
  intro key value _ found
  simp at found

/-- Only the keys of the queue matter. -/
theorem Stocked.congr {name : Bytes} {pushed : Nat} {ledger : Ledger UInt64} {s t : State} (stocked : Stocked name pushed ledger s)
    (same : ∀ key, starts_with key (queueSpace name) = true → t[key]? = s[key]?) : Stocked name pushed ledger t := by
  have inMeta : starts_with (queueOf name).meta_key (queueSpace name) = true := by
    rw [starts_with_iff]
    exact List.prefix_append _ _
  have inSpace : ∀ key, starts_with key (Queue.message_prefix (queueOf name)) = true → starts_with key (queueSpace name) = true := by
    intro key own
    rw [starts_with_iff] at own ⊢
    exact (List.prefix_append _ _).trans own
  refine ⟨?_,?_,?_,stocked.known⟩
  · rw [same _ inMeta]
    exact stocked.next
  · intro key value own found
    rw [same key (inSpace key own)] at found
    exact stocked.entries key value own found
  · intro id item known there
    obtain ⟨message,fits,named,is,found⟩ := stocked.items id item known there
    exact ⟨message,fits,named,is,by rw [same _ (inSpace _ (message_key_starts _ id)),found]⟩

theorem Stocked.same {name : Bytes} {pushed : Nat} {ledger : Ledger UInt64} {s t : State} (stocked : Stocked name pushed ledger s)
    (same : SameData s t) : Stocked name pushed ledger t :=
  stocked.congr (fun key own => same key (queue_apart name own))

theorem meta_ne_message (name : Bytes) (id : UInt64) : (queueOf name).meta_key ≠ (queueOf name).message_key id := by
  intro same
  have apart := meta_not_message name
  rw [same,message_key_starts] at apart
  cases apart

/-- A message that the queue knows, or its next one, is written. -/
theorem Stocked.put {name : Bytes} {pushed : Nat} {ledger : Ledger UInt64} {state : State} (stocked : Stocked name pushed ledger state)
    {message : StoredMessage} (fits : message.Fits) (known : 1 ≤ message.id.toNat ∧ message.id.toNat ≤ pushed) :
    Stocked name pushed (Function.update ledger message.id (some message.item))
      (state.insert ((queueOf name).message_key message.id) message.spelling) := by
  refine ⟨?_,?_,?_,?_⟩
  · rw [get_insert,if_neg (meta_ne_message name message.id).symm]
    exact stocked.next
  · intro key value own found
    rw [get_insert] at found
    split at found
    · rename_i here
      cases found
      exact ⟨message,fits,here.symm,rfl,Function.update_self _ _ _⟩
    · rename_i other
      obtain ⟨there,fitsThere,named,spelled,listed⟩ := stocked.entries key value own found
      refine ⟨there,fitsThere,named,spelled,?_⟩
      rw [Function.update_of_ne,listed]
      intro same
      rw [same] at named
      exact other named.symm
  · intro id item listed there
    by_cases here : id = message.id
    · subst here
      rw [Function.update_self] at listed
      cases listed
      exact ⟨message,fits,rfl,rfl,by rw [get_insert,if_pos rfl]⟩
    · rw [Function.update_of_ne here] at listed
      obtain ⟨other,fitsOther,named,is,found⟩ := stocked.items id item listed there
      refine ⟨other,fitsOther,named,is,?_⟩
      rw [get_insert,if_neg (fun same => here (message_key_injective same).symm),found]
  · intro id item listed
    by_cases here : id = message.id
    · rw [here]
      exact known
    · rw [Function.update_of_ne here] at listed
      exact stocked.known id item listed

/-- A message is removed. -/
theorem Stocked.remove {name : Bytes} {pushed : Nat} {ledger : Ledger UInt64} {state : State} (stocked : Stocked name pushed ledger state)
    {id : UInt64} {item : Item} (listed : ledger id = some item) (g : Nat) :
    Stocked name pushed (Function.update ledger id (some ⟨.Gone,g⟩)) (state.erase ((queueOf name).message_key id)) := by
  refine ⟨?_,?_,?_,?_⟩
  · rw [get_erase,if_neg (meta_ne_message name id).symm]
    exact stocked.next
  · intro key value own found
    rw [get_erase] at found
    split at found
    · cases found
    · rename_i other
      obtain ⟨there,fits,named,spelled,listedThere⟩ := stocked.entries key value own found
      refine ⟨there,fits,named,spelled,?_⟩
      rw [Function.update_of_ne,listedThere]
      intro same
      rw [same] at named
      exact other named.symm
  · intro other otherItem listedOther there
    by_cases here : other = id
    · subst here
      rw [Function.update_self] at listedOther
      cases listedOther
      exact absurd rfl there
    · rw [Function.update_of_ne here] at listedOther
      obtain ⟨message,fits,named,is,found⟩ := stocked.items other otherItem listedOther there
      refine ⟨message,fits,named,is,?_⟩
      rw [get_erase,if_neg (fun same => here (message_key_injective same).symm),found]
  · intro other otherItem listedOther
    by_cases here : other = id
    · rw [here]
      exact stocked.known id item listed
    · rw [Function.update_of_ne here] at listedOther
      exact stocked.known other otherItem listedOther

/-- The counter and the message that a push writes. -/
theorem Stocked.push {name : Bytes} {pushed : Nat} {ledger : Ledger UInt64} {state : State} (stocked : Stocked name pushed ledger state)
    {message : StoredMessage} (fits : message.Fits) (ready : message.state = .Ready) (unclaimed : message.attempts = 0)
    (here : message.id.toNat = pushed + 1) {next : UInt64} (after : next.toNat = pushed + 2) :
    Stocked name (pushed + 1) (Function.update ledger message.id (some ⟨.Waiting,0⟩))
      ((state.insert (queueOf name).meta_key next.to_le_bytes).insert ((queueOf name).message_key message.id) message.spelling) := by
  have counted : Stocked name (pushed + 1) ledger (state.insert (queueOf name).meta_key next.to_le_bytes) := by
    refine ⟨.inr ⟨?_,?_⟩,?_,?_,?_⟩
    · have small := next.toNat_lt
      omega
    · rw [get_insert,if_pos rfl,← after,UInt64.ofNat_toNat]
    · intro key value own found
      rw [get_insert,if_neg] at found
      · exact stocked.entries key value own found
      · rintro rfl
        rw [meta_not_message] at own
        cases own
    · intro id item listed there
      obtain ⟨other,fitsOther,named,is,found⟩ := stocked.items id item listed there
      exact ⟨other,fitsOther,named,is,by rw [get_insert,if_neg (meta_ne_message name id),found]⟩
    · intro id item listed
      have bounds := stocked.known id item listed
      omega
  have put := counted.put fits (by omega)
  have waiting : message.item = ⟨.Waiting,0⟩ := by rw [StoredMessage.item,ready,unclaimed]; rfl
  rw [waiting] at put
  exact put

/-- The number of the next message is new. -/
theorem Stocked.fresh {name : Bytes} {pushed : Nat} {ledger : Ledger UInt64} {state : State} (stocked : Stocked name pushed ledger state)
    {id : UInt64} (here : id.toNat = pushed + 1) : ledger id = none := by
  cases listed : ledger id with
  | none => rfl
  | some item =>
    have bounds := stocked.known id item listed
    omega

/-- The dead messages are removed. -/
theorem Stocked.purge {name : Bytes} {pushed : Nat} {ledger : Ledger UInt64} {state : State} (stocked : Stocked name pushed ledger state)
    {keys : List Bytes} (dead : ∀ key, key ∈ keys ↔ ∃ message : StoredMessage, message.Fits ∧ message.state = .Dead ∧
      key = (queueOf name).message_key message.id ∧ state[key]? = some message.spelling) :
    Stocked name pushed (fun id => (ledger id).map purge) (apply_operations state (keys.map .Delete)) := by
  refine ⟨?_,?_,?_,?_⟩
  · rw [apply_deletes,if_neg]
    · exact stocked.next
    · intro member
      obtain ⟨message,-,-,same,-⟩ := (dead _).mp member
      exact meta_ne_message name message.id same
  · intro key value own found
    rw [apply_deletes] at found
    split at found
    · cases found
    · rename_i alive
      obtain ⟨message,fits,named,spelled,listed⟩ := stocked.entries key value own found
      refine ⟨message,fits,named,spelled,?_⟩
      have living : message.item.phase ≠ .Retired := by
        intro retired
        refine alive ((dead key).mpr ⟨message,fits,?_,named,by rw [found,spelled]⟩)
        have phase : message.state.phase = .Retired := retired
        cases state : message.state <;> rw [state] at phase <;> first | rfl | cases phase
      rw [listed,Option.map_some,Leases.purge,if_neg living]
  · intro id item listed there
    obtain ⟨old,known,purged⟩ := Option.map_eq_some_iff.mp listed
    have living : old.phase ≠ .Retired := by
      intro retired
      rw [Leases.purge,if_pos retired] at purged
      rw [← purged] at there
      exact there rfl
    rw [Leases.purge,if_neg living] at purged
    subst purged
    obtain ⟨message,fits,named,is,found⟩ := stocked.items id old known there
    refine ⟨message,fits,named,is,?_⟩
    rw [apply_deletes,if_neg,found]
    intro member
    obtain ⟨other,fitsOther,isDead,-,foundOther⟩ := (dead _).mp member
    rw [found] at foundOther
    have same := spelling_injective fits fitsOther (Option.some.inj foundOther)
    rw [is,same] at living
    exact living (show other.state.phase = .Retired by rw [isDead]; rfl)
  · intro id item listed
    obtain ⟨old,known,-⟩ := Option.map_eq_some_iff.mp listed
    exact stocked.known id old known

/-! ## What the calls do -/

/-- The message that is picked is one of the queue, and eligible. -/
theorem pick_message_ok {now_ms : Int64} {candidate : Option (Bytes × StoredMessage)} {entries : List (Bytes × Bytes)} {key : Bytes}
    {message : StoredMessage} (done : pick_message now_ms candidate entries = .ok (some (key,message))) :
    candidate = some (key,message) ∨
      ∃ value, (key,value) ∈ entries ∧ decode_message value = .ok message ∧ message.eligible now_ms = true := by
  induction entries generalizing candidate with
  | nil =>
    cases done
    exact .inl rfl
  | cons entry entries ih =>
    obtain ⟨other,value⟩ := entry
    rw [pick_message] at done
    obtain ⟨read,decoded,done⟩ := bind_ok_iff.mp done
    have later : ∀ {c : Option (Bytes × StoredMessage)}, pick_message now_ms c entries = .ok (some (key,message)) →
        c = some (key,message) ∨ ∃ value', (key,value') ∈ (other,value) :: entries ∧ decode_message value' = .ok message ∧
          message.eligible now_ms = true := by
      intro c rest
      rcases ih rest with same | ⟨value',member,reads,fine⟩
      · exact .inl same
      · exact .inr ⟨value',List.mem_cons_of_mem _ member,reads,fine⟩
    split at done
    · exact later done
    · rename_i fine
      split at done
      · rcases later done with same | found
        · cases same
          exact .inr ⟨value,List.mem_cons_self,decoded,by simpa using fine⟩
        · exact .inr found
      · exact later done

theorem dead_keys_ok {keys found : List Bytes} {entries : List (Bytes × Bytes)} (done : dead_keys keys entries = .ok found) (key : Bytes) :
    key ∈ found ↔ key ∈ keys ∨ ∃ value message, (key,value) ∈ entries ∧ decode_message value = .ok message ∧ message.state = .Dead := by
  induction entries generalizing keys with
  | nil =>
    cases done
    simp
  | cons entry entries ih =>
    obtain ⟨other,value⟩ := entry
    rw [dead_keys] at done
    obtain ⟨read,decoded,done⟩ := bind_ok_iff.mp done
    split at done
    · rename_i dead
      rw [ih done]
      constructor
      · rintro (member | ⟨value',message,member,reads,isDead⟩)
        · rcases List.mem_append.mp member with early | here
          · exact .inl early
          · rw [List.mem_singleton.mp here]
            exact .inr ⟨value,read,List.mem_cons_self,decoded,dead⟩
        · exact .inr ⟨value',message,List.mem_cons_of_mem _ member,reads,isDead⟩
      · rintro (early | ⟨value',message,member,reads,isDead⟩)
        · exact .inl (List.mem_append_left _ early)
        · rcases List.mem_cons.mp member with same | later
          · cases same
            exact .inl (by simp)
          · exact .inr ⟨value',message,later,reads,isDead⟩
    · rename_i alive
      rw [ih done]
      constructor
      · rintro (early | ⟨value',message,member,reads,isDead⟩)
        · exact .inl early
        · exact .inr ⟨value',message,List.mem_cons_of_mem _ member,reads,isDead⟩
      · rintro (early | ⟨value',message,member,reads,isDead⟩)
        · exact .inl early
        · rcases List.mem_cons.mp member with same | later
          · cases same
            rw [decoded] at reads
            cases reads
            exact absurd isDead alive
          · exact .inr ⟨value',message,later,reads,isDead⟩

theorem leased_message_reads (queue : Queue) (id : UInt64) (lease_generation : UInt32) : Reads (queue.leased_message id lease_generation) := by
  refine reads_get.bind (fun store => (reads_lift _).bind (fun found => (reads_lift _).bind (fun message => ?_)))
  exact (reads_lift _).bind (fun _ => reads_pure _)

theorem leased_message_ok {queue : Queue} {id : UInt64} {lease_generation : UInt32} {store t : Store} {message : StoredMessage}
    (done : queue.leased_message id lease_generation store = .ok message t) :
    t = store ∧ message.state = .Leased ∧ message.attempts = lease_generation ∧
      ∃ value, store.state[queue.message_key id]? = some value ∧ decode_message value = .ok message := by
  have same := (leased_message_reads queue id lease_generation).ok done
  unfold Queue.leased_message at done
  rw [get_bind] at done
  obtain ⟨found,loaded,done⟩ := lift_bind_ok.mp done
  obtain ⟨_,isSome,done⟩ := lift_bind_ok.mp done
  obtain ⟨_,valid,done⟩ := lift_bind_ok.mp done
  cases done
  rw [ok_or_ok.mp isSome] at loaded
  unfold validate_lease at valid
  obtain ⟨leased,valid⟩ := refuse_ok_iff.mp valid
  obtain ⟨generation,-⟩ := refuse_ok_iff.mp valid
  refine ⟨same,not_not.mp leased,not_not.mp generation,?_⟩
  unfold Queue.load_message at loaded
  cases value : store.get (queue.message_key id) with
  | none => rw [value] at loaded; cases loaded
  | some bytes =>
    rw [value] at loaded
    obtain ⟨read,decoded,named⟩ := mapM_some loaded
    cases named
    exact ⟨bytes,value,decoded⟩

/-- The counter of a queue in order stands behind its messages. -/
theorem Stocked.next_id {name : Bytes} {pushed : Nat} {ledger : Ledger UInt64} {state : State} (stocked : Stocked name pushed ledger state)
    {id : UInt64} (read : (state[(queueOf name).meta_key]? = none ∧ id = 1) ∨
      ∃ bytes, state[(queueOf name).meta_key]? = some bytes ∧ id = UInt64.from_le_bytes bytes) : id.toNat = pushed + 1 := by
  rcases stocked.next with ⟨zero,empty⟩ | ⟨small,counted⟩
  · rcases read with ⟨-,rfl⟩ | ⟨bytes,found,-⟩
    · rw [zero]
      rfl
    · rw [empty] at found
      cases found
  · rcases read with ⟨empty,-⟩ | ⟨bytes,found,rfl⟩
    · rw [counted] at empty
      cases empty
    · rw [counted] at found
      cases found
      rw [u64_from_to_le,UInt64.toNat_ofNat_of_lt' small]

/-- The store has done these operations, all on keys of the queue. -/
def Wrote (name : Bytes) (store t : Store) (operations : List Operation) : Prop :=
  SameData (apply_operations store.state operations) t.state ∧ ∀ o ∈ operations, starts_with o.key (queueSpace name) = true

theorem message_inside (name : Bytes) (id : UInt64) : starts_with ((queueOf name).message_key id) (queueSpace name) = true := by
  rw [message_key_inside,starts_with_iff]
  exact List.prefix_append _ _

/-- Other queues see nothing of it. -/
theorem Wrote.elsewhere {name other : Bytes} {store t : Store} {operations : List Operation} (wrote : Wrote name store t operations)
    (fits : name.length < 2 ^ 32) (fitsOther : other.length < 2 ^ 32) (different : other ≠ name) {key : Bytes}
    (own : starts_with key (queueSpace other) = true) : t.state[key]? = store.state[key]? := by
  rw [wrote.1 key (queue_apart other own)]
  refine apply_elsewhere ?_
  rintro o member rfl
  have inside := wrote.2 o member
  obtain ⟨rest,is⟩ := (starts_with_iff _ _).mp own
  rw [← is,space_apart fitsOther fits different] at inside
  cases inside

/-! ## The calls -/

inductive QueueFailure
  | Queue (error : QueueError)
  | Transaction (error : DomainTransactionError)
  deriving DecidableEq

inductive QueueCall
  | Push (io : Io) (name payload : Bytes) (options : PushOptions)
  | Claim (io : Io) (name : Bytes) (now_ms : Int64) (lease_duration_ms : UInt64)
  | Ack (io : Io) (name : Bytes) (id : UInt64) (lease_generation : UInt32)
  | Nack (io : Io) (name : Bytes) (id : UInt64) (lease_generation : UInt32) (available_at_ms : Int64)
  | DeadLetter (io : Io) (name : Bytes) (id : UInt64) (lease_generation : UInt32)
  | PurgeDead (io : Io) (name : Bytes)

inductive QueueTxCall
  | PushQueue (io : Io) (queue payload : Bytes) (options : PushOptions)

inductive QueueReply
  | Pushed (id : UInt64)
  | Claimed (message : Option QueueMessage)
  | Settled
  | Purged (count : UInt64)

def QueueCall.io : QueueCall → Io
  | .Push io _ _ _ => io
  | .Claim io _ _ _ => io
  | .Ack io _ _ _ => io
  | .Nack io _ _ _ _ => io
  | .DeadLetter io _ _ _ => io
  | .PurgeDead io _ => io

def QueueCall.name : QueueCall → Bytes
  | .Push _ name _ _ => name
  | .Claim _ name _ _ => name
  | .Ack _ name _ _ => name
  | .Nack _ name _ _ _ => name
  | .DeadLetter _ name _ _ => name
  | .PurgeDead _ name => name

def QueueTxCall.io : QueueTxCall → Io
  | .PushQueue io _ _ _ => io

section
variable [Hashes]

/-- The call on the handle of its queue. -/
def QueueCall.run (self : Queue) : QueueCall → EStateM QueueError Store QueueReply
  | .Push io _ payload options => do return .Pushed (← self.push_with_options io payload options)
  | .Claim io _ now_ms lease_duration_ms => do return .Claimed (← self.claim io now_ms lease_duration_ms)
  | .Ack io _ id lease_generation => do self.ack io id lease_generation; return .Settled
  | .Nack io _ id lease_generation available_at_ms => do self.nack io id lease_generation available_at_ms; return .Settled
  | .DeadLetter io _ id lease_generation => do self.dead_letter io id lease_generation; return .Settled
  | .PurgeDead io _ => do return .Purged (← self.purge_dead io)

def queues : Domain QueueFailure QueueCall QueueTxCall QueueReply where
  on_store call := rethrow .Queue (do call.run (← lift (Queue.new call.name)))
  on_tx
    | .PushQueue io queue payload options => rethrow .Transaction (do return .Pushed (← push_queue io queue payload options))

theorem push_message_stages {io : Io} (writes : io.WritesWhole) (queue : Queue) (next_id : UInt64) (message : StoredMessage) :
    Stages (queue.push_message io next_id message) := by
  refine (put_stages writes _ _).rethrow.bind (fun _ => (stages_of_reads (reads_lift _)).bind (fun encoded => ?_))
  exact (put_stages writes _ _).rethrow

theorem delete_keys_stages {io : Io} (writes : io.WritesWhole) (keys : List Bytes) : Stages (delete_keys io keys) := by
  induction keys with
  | nil => exact stages_of_reads (reads_pure _)
  | cons key keys ih => exact (delete_stages writes key).bind (fun _ => ih)

/-- Every call is one transaction at most, after checks. -/
theorem queue_call_atomic {call : QueueCall} (durable : call.io.Durable) : Atomic (queues.on_store call) := by
  refine Atomic.rethrow (.checked (reads_lift _) (fun queue => ?_))
  cases call with
  | Push io name payload options =>
    refine Atomic.returning (.checked reads_get (fun store => .checked (reads_lift _) (fun id => .checked (reads_lift _) ?_))) _
    exact fun next_id => (within_atomic durable (push_message_stages durable.1 queue next_id _)).returning _
  | Claim io name now_ms lease_duration_ms =>
    refine Atomic.returning (.checked (reads_lift _) (fun duration => .checked (reads_lift _) (fun until_ms => ?_))) _
    refine .checked reads_get (fun store => .checked (reads_lift _) (fun picked => ?_))
    cases picked with
    | none => exact atomic_of_reads (reads_pure _)
    | some found =>
      refine .checked (reads_lift _) (fun attempts => .checked (reads_lift _) (fun encoded => ?_))
      exact ((put_alone_atomic durable _ _).rethrow).returning _
  | Ack io name id lease_generation =>
    refine Atomic.returning (.checked (leased_message_reads queue id lease_generation) (fun message => ?_)) _
    exact (delete_alone_atomic durable _).rethrow
  | Nack io name id lease_generation available_at_ms =>
    refine Atomic.returning (.checked (leased_message_reads queue id lease_generation) (fun message => ?_)) _
    exact .checked (reads_lift _) (fun encoded => (put_alone_atomic durable _ _).rethrow)
  | DeadLetter io name id lease_generation =>
    refine Atomic.returning (.checked (leased_message_reads queue id lease_generation) (fun message => ?_)) _
    exact .checked (reads_lift _) (fun encoded => (put_alone_atomic durable _ _).rethrow)
  | PurgeDead io name =>
    refine Atomic.returning (.checked reads_get (fun store => .checked (reads_lift _) (fun keys => ?_))) _
    split
    · exact atomic_of_reads (reads_pure _)
    · refine .checked (reads_lift _) (fun count => ?_)
      exact (within_atomic durable (delete_keys_stages durable.1 keys).rethrow).returning _

/-! ## What a call that succeeds writes -/

theorem push_wrote {name payload : Bytes} {io : Io} {options : PushOptions} {store t : Store} {id : UInt64}
    (done : (queueOf name).push_with_options io payload options store = .ok id t) :
    ∃ (next : UInt64) (message : StoredMessage), Wrote name store t [.Put (queueOf name).meta_key next.to_le_bytes,
        .Put ((queueOf name).message_key message.id) message.spelling] ∧
      ((store.state[(queueOf name).meta_key]? = none ∧ id = 1) ∨
        ∃ bytes, store.state[(queueOf name).meta_key]? = some bytes ∧ id = UInt64.from_le_bytes bytes) ∧
      id.checked_add 1 = some next ∧ message.Fits ∧ message.id = id ∧ message.state = .Ready ∧ message.attempts = 0 := by
  unfold Queue.push_with_options at done
  rw [get_bind] at done
  obtain ⟨_,counted,done⟩ := lift_bind_ok.mp done
  obtain ⟨next,added,done⟩ := lift_bind_ok.mp done
  obtain ⟨_,_,pushed,done⟩ := bind_ok.mp done
  cases done
  obtain ⟨tx,u,begun,body,same⟩ := within_ok pushed
  unfold Queue.push_message at body
  obtain ⟨_,middle,first,body⟩ := bind_ok.mp body
  obtain ⟨encoded,encodes,second⟩ := lift_bind_ok.mp body
  obtain ⟨fits,spelled⟩ := encode_message_ok encodes
  have view := (put_internal_ok (rethrow_ok.mp second)).1
  rw [(put_internal_ok (rethrow_ok.mp first)).1,(begin_view begun).1,spelled] at view
  refine ⟨next,_,⟨?_,?_⟩,?_,ok_or_ok.mp added,fits,rfl,rfl,rfl⟩
  · rw [view] at same
    exact same
  · intro o member
    simp only [List.mem_cons,List.not_mem_nil,or_false] at member
    rcases member with rfl | rfl
    · show starts_with (queueSpace name ++ ascii ":next") (queueSpace name) = true
      rw [starts_with_iff]
      exact List.prefix_append _ _
    · exact message_inside name _
  · unfold Queue.next_id Store.get at counted
    cases found : store.state[(queueOf name).meta_key]? with
    | none =>
      rw [found] at counted
      cases counted
      exact .inl ⟨rfl,rfl⟩
    | some bytes =>
      rw [found] at counted
      obtain ⟨-,read⟩ := refuse_ok_iff.mp counted
      cases read
      exact .inr ⟨bytes,rfl,rfl⟩

theorem claim_wrote {name : Bytes} {io : Io} {now_ms : Int64} {lease_duration_ms : UInt64} {store t : Store} {claimed : Option QueueMessage}
    (done : (queueOf name).claim io now_ms lease_duration_ms store = .ok claimed t) :
    (claimed = none ∧ Wrote name store t []) ∨ ∃ (key value : Bytes) (old message : StoredMessage) (handed : QueueMessage),
      claimed = some handed ∧ Wrote name store t [.Put key message.spelling] ∧
      starts_with key (Queue.message_prefix (queueOf name)) = true ∧ store.state[key]? = some value ∧ decode_message value = .ok old ∧
      old.state ≠ .Dead ∧ message.Fits ∧ message.id = old.id ∧ message.state = .Leased ∧
      message.attempts.toNat = old.attempts.toNat + 1 ∧ handed.id = old.id ∧ handed.lease_generation = message.attempts := by
  unfold Queue.claim at done
  obtain ⟨duration,-,done⟩ := lift_bind_ok.mp done
  obtain ⟨until_ms,-,done⟩ := lift_bind_ok.mp done
  rw [get_bind] at done
  obtain ⟨picked,picks,done⟩ := lift_bind_ok.mp done
  cases picked with
  | none =>
    cases done
    exact .inl ⟨rfl,.refl _,by simp⟩
  | some found =>
    obtain ⟨key,old⟩ := found
    dsimp only at done
    obtain ⟨attempts,added,done⟩ := lift_bind_ok.mp done
    obtain ⟨encoded,encodes,done⟩ := lift_bind_ok.mp done
    obtain ⟨_,_,put,done⟩ := bind_ok.mp done
    cases done
    obtain ⟨fits,spelled⟩ := encode_message_ok encodes
    have wrote := put_alone_ok (rethrow_ok.mp put)
    rw [spelled] at wrote
    rcases pick_message_ok picks with absurd | ⟨value,member,decoded,fine⟩
    · cases absurd
    obtain ⟨own,there⟩ := mem_scan.mp member
    refine .inr ⟨key,value,old,_,_,rfl,⟨wrote,?_⟩,own,there,decoded,?_,fits,rfl,rfl,?_,rfl,rfl⟩
    · intro o member
      rw [List.mem_singleton.mp member]
      exact (starts_with_iff _ _).mpr ((List.prefix_append _ _).trans ((starts_with_iff _ _).mp own))
    · intro dead
      rw [StoredMessage.eligible,dead] at fine
      cases fine
    · exact (u32_checked_add_some (ok_or_ok.mp added)).trans rfl

/-- A worker that settles a message holds its latest lease. -/
structure LeasedBy (name : Bytes) (store : Store) (id : UInt64) (lease_generation : UInt32) (old : StoredMessage) : Prop where
  leased : old.state = .Leased
  generation : old.attempts = lease_generation
  stored : ∃ value, store.state[(queueOf name).message_key id]? = some value ∧ decode_message value = .ok old

theorem ack_wrote {name : Bytes} {io : Io} {id : UInt64} {lease_generation : UInt32} {store t : Store} {x : Unit}
    (done : (queueOf name).ack io id lease_generation store = .ok x t) :
    Wrote name store t [.Delete ((queueOf name).message_key id)] ∧ ∃ old, LeasedBy name store id lease_generation old := by
  obtain ⟨old,middle,loaded,settles⟩ := bind_ok.mp done
  obtain ⟨rfl,leased,generation,stored⟩ := leased_message_ok loaded
  refine ⟨⟨delete_alone_ok (rethrow_ok.mp settles),?_⟩,old,leased,generation,stored⟩
  intro o member
  rw [List.mem_singleton.mp member]
  exact message_inside name id

/-- What `nack` and `dead_letter` do once they have a message. -/
theorem settle_wrote {name : Bytes} {io : Io} {id : UInt64} {message : StoredMessage} {store t : Store} {x : Unit}
    (done : (do
      let encoded ← lift (encode_message message)
      rethrow .Store (put_alone io ((queueOf name).message_key id) encoded) : EStateM QueueError Store Unit) store = .ok x t) :
    Wrote name store t [.Put ((queueOf name).message_key id) message.spelling] ∧ message.Fits := by
  obtain ⟨encoded,encodes,done⟩ := lift_bind_ok.mp done
  obtain ⟨fits,spelled⟩ := encode_message_ok encodes
  have wrote := put_alone_ok (rethrow_ok.mp done)
  rw [spelled] at wrote
  refine ⟨⟨wrote,?_⟩,fits⟩
  intro o member
  rw [List.mem_singleton.mp member]
  exact message_inside name id

theorem nack_wrote {name : Bytes} {io : Io} {id : UInt64} {lease_generation : UInt32} {available_at_ms : Int64} {store t : Store} {x : Unit}
    (done : (queueOf name).nack io id lease_generation available_at_ms store = .ok x t) :
    ∃ old message : StoredMessage, LeasedBy name store id lease_generation old ∧ message.Fits ∧ message.id = old.id ∧
      message.state = .Ready ∧ message.attempts = old.attempts ∧
      Wrote name store t [.Put ((queueOf name).message_key id) message.spelling] := by
  obtain ⟨old,middle,loaded,settles⟩ := bind_ok.mp done
  obtain ⟨rfl,leased,generation,stored⟩ := leased_message_ok loaded
  obtain ⟨wrote,fits⟩ := settle_wrote settles
  exact ⟨old,_,⟨leased,generation,stored⟩,fits,rfl,rfl,rfl,wrote⟩

theorem dead_letter_wrote {name : Bytes} {io : Io} {id : UInt64} {lease_generation : UInt32} {store t : Store} {x : Unit}
    (done : (queueOf name).dead_letter io id lease_generation store = .ok x t) :
    ∃ old message : StoredMessage, LeasedBy name store id lease_generation old ∧ message.Fits ∧ message.id = old.id ∧
      message.state = .Dead ∧ message.attempts = old.attempts ∧
      Wrote name store t [.Put ((queueOf name).message_key id) message.spelling] := by
  obtain ⟨old,middle,loaded,settles⟩ := bind_ok.mp done
  obtain ⟨rfl,leased,generation,stored⟩ := leased_message_ok loaded
  obtain ⟨wrote,fits⟩ := settle_wrote settles
  exact ⟨old,_,⟨leased,generation,stored⟩,fits,rfl,rfl,rfl,wrote⟩

theorem delete_keys_view {io : Io} {keys : List Bytes} {tx u : Transaction} {x : Unit} (done : delete_keys io keys tx = .ok x u) :
    u.view = apply_operations tx.view (keys.map .Delete) := by
  obtain ⟨operations,-,state,-⟩ := delete_keys_ok done
  rw [Transaction.view,operations,state,apply_append]
  rfl

theorem purge_dead_wrote {name : Bytes} {io : Io} {store t : Store} {count : UInt64}
    (done : (queueOf name).purge_dead io store = .ok count t) :
    ∃ keys, dead_keys [] (scan store.state (Queue.message_prefix (queueOf name))) = .ok keys ∧
      Wrote name store t (keys.map .Delete) := by
  unfold Queue.purge_dead at done
  rw [get_bind] at done
  obtain ⟨keys,collected,done⟩ := lift_bind_ok.mp done
  have inside : ∀ o ∈ keys.map Operation.Delete, starts_with o.key (queueSpace name) = true := by
    intro o member
    obtain ⟨key,listed,rfl⟩ := List.mem_map.mp member
    rcases (dead_keys_ok collected key).mp listed with none | ⟨value,message,scanned,-,-⟩
    · cases none
    · obtain ⟨own,-⟩ := mem_scan.mp scanned
      exact (starts_with_iff _ _).mpr ((List.prefix_append _ _).trans ((starts_with_iff _ _).mp own))
  refine ⟨keys,collected,?_,inside⟩
  split at done
  · rename_i none
    cases done
    rw [none]
    exact .refl _
  · obtain ⟨_,-,done⟩ := lift_bind_ok.mp done
    obtain ⟨_,_,deleted,done⟩ := bind_ok.mp done
    cases done
    obtain ⟨tx,u,begun,body,same⟩ := within_ok deleted
    rw [delete_keys_view (rethrow_ok.mp body),(begin_view begun).1] at same
    exact same

/-- Whatever a call does, it does to its own queue. -/
theorem call_wrote {call : QueueCall} {store t : Store} {reply : QueueReply}
    (done : call.run (queueOf call.name) store = .ok reply t) : ∃ operations, Wrote call.name store t operations := by
  cases call with
  | Push io name payload options =>
    obtain ⟨id,_,pushed,done⟩ := bind_ok.mp done
    cases done
    obtain ⟨next,message,wrote,-⟩ := push_wrote pushed
    exact ⟨_,wrote⟩
  | Claim io name now_ms lease_duration_ms =>
    obtain ⟨claimed,_,claims,done⟩ := bind_ok.mp done
    cases done
    rcases claim_wrote claims with ⟨-,wrote⟩ | ⟨key,value,old,message,handed,-,wrote,-⟩
    · exact ⟨_,wrote⟩
    · exact ⟨_,wrote⟩
  | Ack io name id lease_generation =>
    obtain ⟨_,_,settles,done⟩ := bind_ok.mp done
    cases done
    exact ⟨_,(ack_wrote settles).1⟩
  | Nack io name id lease_generation available_at_ms =>
    obtain ⟨_,_,settles,done⟩ := bind_ok.mp done
    cases done
    obtain ⟨old,message,-,-,-,-,-,wrote⟩ := nack_wrote settles
    exact ⟨_,wrote⟩
  | DeadLetter io name id lease_generation =>
    obtain ⟨_,_,settles,done⟩ := bind_ok.mp done
    cases done
    obtain ⟨old,message,-,-,-,-,-,wrote⟩ := dead_letter_wrote settles
    exact ⟨_,wrote⟩
  | PurgeDead io name =>
    obtain ⟨count,_,purged,done⟩ := bind_ok.mp done
    cases done
    obtain ⟨keys,-,wrote⟩ := purge_dead_wrote purged
    exact ⟨_,wrote⟩

end

/-! ## Histories -/

abbrev QueueFact := Happened QueueFailure QueueCall QueueTxCall QueueReply

/-- What a reply to a call means to its queue. -/
def QueueCall.means : QueueCall → QueueReply → List (Leases.Event UInt64)
  | .Push _ _ _ _, .Pushed id => [.Added id]
  | .Claim _ _ _ _, .Claimed (some message) => [.Claimed message.id message.lease_generation.toNat]
  | .Ack _ _ id lease_generation, .Settled => [.Settled id lease_generation.toNat .Gone]
  | .Nack _ _ id lease_generation _, .Settled => [.Settled id lease_generation.toNat .Waiting]
  | .DeadLetter _ _ id lease_generation, .Settled => [.Settled id lease_generation.toNat .Retired]
  | .PurgeDead _ _, .Purged _ => [.Purged]
  | _, _ => []

def deliveries (name : Bytes) : QueueFact → List (Leases.Event UInt64)
  | .Returned call (.ok reply) => if call.name = name then call.means reply else []
  | .Staged (.PushQueue _ queue _ _) (.ok (.Pushed id)) _ => if queue = name then [.Added id] else []
  | _ => []

def history (name : Bytes) (facts : List QueueFact) : List (Leases.Event UInt64) := facts.flatMap (deliveries name)

theorem history_snoc (name : Bytes) (facts : List QueueFact) (fact : QueueFact) :
    history name (facts ++ [fact]) = history name facts ++ deliveries name fact := by
  simp [history]

def numbers (count : Nat) : List UInt64 := (List.range count).map (fun i => UInt64.ofNat (i + 1))

theorem numbers_succ {count : Nat} {id : UInt64} (here : id.toNat = count + 1) : numbers (count + 1) = numbers count ++ [id] := by
  have last : UInt64.ofNat (count + 1) = id := by rw [← here,UInt64.ofNat_toNat]
  rw [numbers,List.range_succ,List.map_append,List.map_singleton,last]
  rfl

/-- The map holds the queue as these facts leave it. -/
def InOrder (name : Bytes) (state : State) (facts : List QueueFact) : Prop :=
  ∃ pushed ledger, Leases.Run (history name facts) ledger ∧ adds (history name facts) = numbers pushed ∧ Stocked name pushed ledger state

theorem InOrder.quiet {name : Bytes} {s t : State} {facts : List QueueFact} {fact : QueueFact} (order : InOrder name s facts)
    (same : ∀ key, starts_with key (queueSpace name) = true → t[key]? = s[key]?) (nothing : deliveries name fact = []) :
    InOrder name t (facts ++ [fact]) := by
  obtain ⟨pushed,ledger,run,added,stocked⟩ := order
  refine ⟨pushed,ledger,?_,?_,stocked.congr same⟩
  · rw [history_snoc,nothing,List.append_nil]
    exact run
  · rw [history_snoc,nothing,List.append_nil]
    exact added

theorem InOrder.congr {name : Bytes} {s t : State} {facts : List QueueFact} (order : InOrder name s facts)
    (same : ∀ key, starts_with key (queueSpace name) = true → t[key]? = s[key]?) : InOrder name t facts := by
  obtain ⟨pushed,ledger,run,added,stocked⟩ := order
  exact ⟨pushed,ledger,run,added,stocked.congr same⟩

theorem adds_snoc (events : List (Leases.Event UInt64)) (event : Leases.Event UInt64) (other : ∀ k, event ≠ .Added k) :
    adds (events ++ [event]) = adds events := by
  rw [adds,List.filterMap_append]
  cases event with
  | Added k => exact absurd rfl (other k)
  | _ => simp [adds]

/-- Something else than a push happens. -/
theorem in_order_step {name : Bytes} {t : State} {facts : List QueueFact} {fact : QueueFact} {event : Leases.Event UInt64} {pushed : Nat}
    {ledger later : Ledger UInt64} (run : Leases.Run (history name facts) ledger) (added : adds (history name facts) = numbers pushed)
    (step : Leases.Step ledger event later) (means : deliveries name fact = [event]) (other : ∀ k, event ≠ .Added k)
    (stocked : Stocked name pushed later t) : InOrder name t (facts ++ [fact]) := by
  refine ⟨pushed,later,?_,?_,stocked⟩
  · rw [history_snoc,means]
    exact run.next step
  · rw [history_snoc,means,adds_snoc _ _ other]
    exact added

/-- A push happens. -/
theorem in_order_push {name : Bytes} {t : State} {facts : List QueueFact} {fact : QueueFact} {id : UInt64} {pushed : Nat}
    {ledger : Ledger UInt64} (run : Leases.Run (history name facts) ledger) (added : adds (history name facts) = numbers pushed)
    (fresh : ledger id = none) (here : id.toNat = pushed + 1) (means : deliveries name fact = [.Added id])
    (stocked : Stocked name (pushed + 1) (Function.update ledger id (some ⟨.Waiting,0⟩)) t) : InOrder name t (facts ++ [fact]) := by
  refine ⟨pushed + 1,_,?_,?_,stocked⟩
  · rw [history_snoc,means]
    exact run.next (.added fresh)
  · rw [history_snoc,means,numbers_succ here,← added,adds,List.filterMap_append]
    rfl

theorem Stocked.wrote {name : Bytes} {pushed : Nat} {ledger : Ledger UInt64} {store t : Store} {operations : List Operation}
    (wrote : Wrote name store t operations) (stocked : Stocked name pushed ledger (apply_operations store.state operations)) :
    Stocked name pushed ledger t.state := stocked.same wrote.1

/-- A message that the queue holds is listed. -/
theorem Stocked.listed {name : Bytes} {pushed : Nat} {ledger : Ledger UInt64} {state : State} (stocked : Stocked name pushed ledger state)
    {key value : Bytes} {old : StoredMessage} (own : starts_with key (Queue.message_prefix (queueOf name)) = true)
    (found : state[key]? = some value) (decoded : decode_message value = .ok old) :
    key = (queueOf name).message_key old.id ∧ ledger old.id = some old.item ∧ old.Fits ∧ value = old.spelling := by
  obtain ⟨message,fits,named,spelled,listed⟩ := stocked.entries key value own found
  rw [spelled,decode_message_spelling fits] at decoded
  cases decoded
  exact ⟨named,listed,fits,spelled⟩

/-- What a worker holds is held in the history. -/
theorem Stocked.held {name : Bytes} {pushed : Nat} {ledger : Ledger UInt64} {store : Store} (stocked : Stocked name pushed ledger store.state)
    {id : UInt64} {lease_generation : UInt32} {old : StoredMessage} (leased : LeasedBy name store id lease_generation old) :
    old.id = id ∧ ledger id = some ⟨.Held,lease_generation.toNat⟩ := by
  obtain ⟨value,found,decoded⟩ := leased.stored
  obtain ⟨named,listed,-,-⟩ := stocked.listed (message_key_starts _ id) found decoded
  have same : old.id = id := (message_key_injective named).symm
  refine ⟨same,?_⟩
  rw [← same,listed,StoredMessage.item,leased.leased,leased.generation]
  rfl

/-- A settlement of a held message writes it in its new phase. -/
theorem Stocked.settles {name : Bytes} {pushed : Nat} {ledger : Ledger UInt64} {store t : Store}
    (stocked : Stocked name pushed ledger store.state) {id : UInt64} {lease_generation : UInt32} {old message : StoredMessage} {phase : Phase}
    (leased : LeasedBy name store id lease_generation old) (fits : message.Fits) (named : message.id = old.id)
    (state : message.state.phase = phase) (attempts : message.attempts = old.attempts)
    (wrote : Wrote name store t [.Put ((queueOf name).message_key id) message.spelling]) :
    Leases.Step ledger (.Settled id lease_generation.toNat phase) (Function.update ledger id (some ⟨phase,lease_generation.toNat⟩)) ∧
      Stocked name pushed (Function.update ledger id (some ⟨phase,lease_generation.toNat⟩)) t.state := by
  obtain ⟨same,held⟩ := stocked.held leased
  refine ⟨.settled held phase,?_⟩
  have put := stocked.put fits (by rw [named,same]; exact stocked.known id _ held)
  rw [named,same] at put
  have item : message.item = ⟨phase,lease_generation.toNat⟩ := by
    rw [StoredMessage.item,state,attempts,leased.generation]
  rw [item] at put
  exact put.wrote wrote

/-- No push on the queue failed halfway in the open transaction. -/
def Whole (name : Bytes) (log : List QueueFact) : Prop :=
  ∀ io payload options result, .Staged (.PushQueue io name payload options) result true ∉ (account log).pending

/-- No write is cut short, no sync of a commit fails, and a transaction is committed only if no push on this queue failed halfway in it. -/
def queueTerms (name : Bytes) : Terms QueueFailure QueueCall QueueTxCall QueueReply where
  mine key := starts_with key QUEUE_PREFIX = true
  call _ call := call.io.Durable
  callTx _ call := call.io.Durable
  commit := Whole name

theorem whole_snoc {name : Bytes} {log : List QueueFact} {call : QueueTxCall} {result : Except QueueFailure QueueReply} {spoiled : Bool}
    (whole : Whole name (log ++ [Happened.Staged call result spoiled])) : Whole name log ∧
      ∀ io payload options, call = .PushQueue io name payload options → spoiled = false := by
  unfold Whole at whole
  rw [account_snoc] at whole
  constructor
  · intro io payload options other member
    exact whole io payload options other (List.mem_append_left _ member)
  · rintro io payload options rfl
    cases spoiled with
    | false => rfl
    | true => exact absurd (List.mem_append_right _ List.mem_cons_self) (whole io payload options result)

theorem counter_ok {tx : Transaction} {key : Bytes} {first id : UInt64} (read : counter tx key first = .ok id) :
    (tx.view[key]? = none ∧ id = first) ∨ ∃ bytes, tx.view[key]? = some bytes ∧ id = UInt64.from_le_bytes bytes := by
  unfold counter at read
  rw [get_internal_eq] at read
  cases found : tx.view[key]? with
  | none =>
    rw [found] at read
    cases read
    exact .inl ⟨rfl,rfl⟩
  | some bytes =>
    rw [found] at read
    dsimp only [decode_u64] at read
    split at read
    · cases read
      exact .inr ⟨bytes,rfl,rfl⟩
    · cases read

section
variable [Hashes]

theorem call_in_order {name : Bytes} (fits : name.length < 2 ^ 32) {call : QueueCall} (durable : call.io.Durable) {store : Store}
    {facts : List QueueFact} (order : InOrder name store.state facts) : InOrder name (after (queues.on_store call) store).state
      (facts ++ [Happened.Returned call (returned (queues.on_store call) store)]) := by
  unfold after returned
  cases result : queues.on_store call store with
  | error e t =>
    refine order.quiet ?_ rfl
    intro key own
    rw [(queue_call_atomic durable).keeps store e t result]
  | ok reply t =>
    obtain ⟨queue,made,done⟩ := lift_bind_ok.mp (rethrow_ok.mp result)
    obtain ⟨fitsCall,rfl⟩ := queue_new_ok made
    by_cases mine : call.name = name
    · have means : deliveries name (.Returned call (.ok reply)) = call.means reply := if_pos mine
      rw [mine] at done
      obtain ⟨pushed,ledger,run,added,stocked⟩ := order
      cases call with
      | Push io _ payload options =>
        obtain ⟨id,_,pushes,done⟩ := bind_ok.mp done
        cases done
        obtain ⟨next,message,wrote,read,counted,fitsMessage,rfl,ready,unclaimed⟩ := push_wrote pushes
        have here := stocked.next_id read
        have after : next.toNat = pushed + 2 := by
          rw [u64_checked_add_some counted,here]
          rfl
        have holds := stocked.push fitsMessage ready unclaimed here after
        exact in_order_push run added (stocked.fresh here) here means (holds.wrote wrote)
      | Claim io _ now_ms lease_duration_ms =>
        obtain ⟨claimed,_,claims,done⟩ := bind_ok.mp done
        cases done
        rcases claim_wrote claims with ⟨rfl,wrote⟩ |
          ⟨key,value,old,message,handed,rfl,wrote,own,found,decoded,alive,fitsMessage,named,leased,raised,handedId,generation⟩
        · exact InOrder.quiet ⟨pushed,ledger,run,added,stocked⟩ (fun key own => wrote.1 key (queue_apart name own)) means
        · obtain ⟨keyed,listed,-,-⟩ := stocked.listed own found decoded
          have free : old.state.phase.Open := by
            cases state : old.state with
            | Ready => exact .inl rfl
            | Leased => exact .inr rfl
            | Dead => exact absurd state alive
          have put := stocked.put fitsMessage (by rw [named]; exact stocked.known _ _ listed)
          have item : message.item = ⟨.Held,old.attempts.toNat + 1⟩ := by
            rw [StoredMessage.item,leased,raised]
            rfl
          rw [named,item,← keyed] at put
          refine in_order_step run added (.claimed listed free) ?_ (by simp) (put.wrote wrote)
          rw [means,QueueCall.means,handedId,generation,raised]
      | Ack io _ id lease_generation =>
        obtain ⟨_,_,settles,done⟩ := bind_ok.mp done
        cases done
        obtain ⟨wrote,old,leased⟩ := ack_wrote settles
        obtain ⟨same,held⟩ := stocked.held leased
        have removed := stocked.remove held lease_generation.toNat
        exact in_order_step run added (.settled held .Gone) means (by simp) (removed.wrote wrote)
      | Nack io _ id lease_generation available_at_ms =>
        obtain ⟨_,_,settles,done⟩ := bind_ok.mp done
        cases done
        obtain ⟨old,message,leased,fitsMessage,named,ready,attempts,wrote⟩ := nack_wrote settles
        obtain ⟨step,holds⟩ := stocked.settles leased fitsMessage named (by rw [ready]) attempts wrote
        exact in_order_step run added step means (by simp) holds
      | DeadLetter io _ id lease_generation =>
        obtain ⟨_,_,settles,done⟩ := bind_ok.mp done
        cases done
        obtain ⟨old,message,leased,fitsMessage,named,dead,attempts,wrote⟩ := dead_letter_wrote settles
        obtain ⟨step,holds⟩ := stocked.settles leased fitsMessage named (by rw [dead]) attempts wrote
        exact in_order_step run added step means (by simp) holds
      | PurgeDead io _ =>
        obtain ⟨count,_,purged,done⟩ := bind_ok.mp done
        cases done
        obtain ⟨keys,collected,wrote⟩ := purge_dead_wrote purged
        have dead : ∀ key, key ∈ keys ↔ ∃ message : StoredMessage, message.Fits ∧ message.state = .Dead ∧
            key = (queueOf name).message_key message.id ∧ store.state[key]? = some message.spelling := by
          intro key
          rw [dead_keys_ok collected key]
          constructor
          · rintro (none | ⟨value,message,scanned,decoded,dead⟩)
            · cases none
            · obtain ⟨own,found⟩ := mem_scan.mp scanned
              obtain ⟨keyed,-,fitsMessage,spelled⟩ := stocked.listed own found decoded
              exact ⟨message,fitsMessage,dead,keyed,by rw [found,spelled]⟩
          · rintro ⟨message,fitsMessage,dead,rfl,found⟩
            exact .inr ⟨_,message,mem_scan.mpr ⟨message_key_starts _ _,found⟩,decode_message_spelling fitsMessage,dead⟩
        exact in_order_step run added .purged means (by simp) ((stocked.purge dead).wrote wrote)
    · obtain ⟨operations,wrote⟩ := call_wrote done
      refine order.quiet (fun key own => wrote.elsewhere fitsCall fits (Ne.symm mine) own) ?_
      exact if_neg mine

/-! ## Pushes in a transaction -/

theorem stage_numbered_stages {io : Io} (writes : io.WritesWhole) (next_key entry_key : Bytes) (next : UInt64)
    (encoded : Except DomainTransactionError Bytes) : Stages (stage_numbered io next_key next entry_key encoded) := by
  refine (put_stages writes _ _).rethrow.bind (fun _ => (stages_of_reads (reads_lift _)).bind (fun entry => ?_))
  exact (put_stages writes _ _).rethrow

theorem push_queue_stages {io : Io} (writes : io.WritesWhole) (queue payload : Bytes) (options : PushOptions) :
    Stages (push_queue io queue payload options) := by
  unfold push_queue
  split
  · exact stages_of_reads (reads_throw _)
  refine (stages_of_reads (reads_lift _)).bind (fun ns => (stages_of_reads reads_get).bind (fun tx => ?_))
  refine (stages_of_reads (reads_lift _)).bind (fun id => (stages_of_reads (reads_lift _)).bind (fun next => ?_))
  exact (stage_numbered_stages writes _ _ _ _).bind (fun _ => stages_of_reads (reads_pure _))

/-- Whether it fails or not, a push touches the keys of its own queue alone. -/
theorem push_queue_elsewhere (io : Io) (queue payload : Bytes) (options : PushOptions) (seen : State) :
    KeepsView (AgreesOff (queueSpace queue) seen) (push_queue io queue payload options) := by
  unfold push_queue
  split
  · exact keeps_view_of_reads (reads_throw _)
  refine KeepsView.lifted (fun ns made => ?_)
  obtain ⟨-,rfl⟩ := queue_namespace_ok made
  refine (keeps_view_of_reads reads_get).bind (fun tx => (keeps_view_of_reads (reads_lift _)).bind (fun id => ?_))
  refine (keeps_view_of_reads (reads_lift _)).bind (fun next => KeepsView.bind ?_ (fun _ => keeps_view_of_reads (reads_pure _)))
  refine KeepsView.bind (KeepsView.rethrow (put_keeps io _ _ (fun s agrees => agrees.insert _ _))) (fun _ => ?_)
  refine (keeps_view_of_reads (reads_lift _)).bind (fun entry => KeepsView.rethrow (put_keeps io _ _ ?_))
  intro s agrees
  rw [List.append_assoc]
  exact agrees.insert _ _

theorem push_queue_unnamed (io : Io) {queue : Bytes} (long : ¬ queue.length < 2 ^ 32) (payload : Bytes) (options : PushOptions)
    (holds : State → Prop) : KeepsView holds (push_queue io queue payload options) := by
  unfold push_queue
  split
  · exact keeps_view_of_reads (reads_throw _)
  refine KeepsView.lifted (fun ns made => ?_)
  exact absurd (queue_namespace_ok made).1 long

theorem push_queue_ok {io : Io} {queue payload : Bytes} {options : PushOptions} {tx u : Transaction} {id : UInt64}
    (done : push_queue io queue payload options tx = .ok id u) :
    ∃ (next : UInt64) (message : StoredMessage), queue.length < 2 ^ 32 ∧
      u.view = (tx.view.insert (queueOf queue).meta_key next.to_le_bytes).insert ((queueOf queue).message_key message.id) message.spelling ∧
      ((tx.view[(queueOf queue).meta_key]? = none ∧ id = 1) ∨
        ∃ bytes, tx.view[(queueOf queue).meta_key]? = some bytes ∧ id = UInt64.from_le_bytes bytes) ∧
      id.checked_add 1 = some next ∧ message.Fits ∧ message.id = id ∧ message.state = .Ready ∧ message.attempts = 0 := by
  unfold push_queue at done
  split at done
  · cases done
  obtain ⟨ns,made,done⟩ := lift_bind_ok.mp done
  rw [get_bind] at done
  obtain ⟨_,counted,done⟩ := lift_bind_ok.mp done
  obtain ⟨next,added,done⟩ := lift_bind_ok.mp done
  obtain ⟨_,_,staged,done⟩ := bind_ok.mp done
  cases done
  obtain ⟨fits,rfl⟩ := queue_namespace_ok made
  obtain ⟨_,middle,first,staged⟩ := bind_ok.mp staged
  obtain ⟨entry,encodes,second⟩ := lift_bind_ok.mp staged
  obtain ⟨message,fitsMessage,spelled,named,ready,unclaimed⟩ := encode_queue_message_ok encodes
  refine ⟨next,message,fits,?_,?_,ok_or_ok.mp added,fitsMessage,named,ready,unclaimed⟩
  · rw [named]
    rw [(put_internal_ok (rethrow_ok.mp second)).1,(put_internal_ok (rethrow_ok.mp first)).1,spelled]
    rfl
  · exact counter_ok counted

/-! ## Runs -/

theorem stage_in_order {name : Bytes} (fits : name.length < 2 ^ 32) {call : QueueTxCall} (durable : call.io.Durable) {tx : Transaction}
    {facts : List QueueFact} (order : InOrder name tx.view facts)
    (whole : ∀ io payload options, call = .PushQueue io name payload options → halfway (queues.on_tx call) tx = false) :
    InOrder name (after (queues.on_tx call) tx).view
      (facts ++ [Happened.Staged call (returned (queues.on_tx call) tx) (halfway (queues.on_tx call) tx)]) := by
  obtain ⟨io,queue,payload,options⟩ := call
  have stages : Stages (queues.on_tx (.PushQueue io queue payload options)) :=
    ((push_queue_stages durable.1 queue payload options).bind (fun _ => stages_of_reads (reads_pure _))).rethrow
  by_cases mine : queue = name
  · subst mine
    unfold after returned
    cases result : queues.on_tx (.PushQueue io queue payload options) tx with
    | error e u =>
      refine order.quiet ?_ rfl
      intro key own
      rw [stages.unspoiled result (whole io payload options rfl)]
    | ok reply u =>
      obtain ⟨id,_,pushes,done⟩ := bind_ok.mp (rethrow_ok.mp result)
      cases done
      obtain ⟨next,message,-,view,read,counted,fitsMessage,named,ready,unclaimed⟩ := push_queue_ok pushes
      obtain ⟨pushed,ledger,run,added,stocked⟩ := order
      have here := stocked.next_id read
      have after : next.toNat = pushed + 2 := by
        rw [u64_checked_add_some counted,here]
        rfl
      have holds := stocked.push fitsMessage ready unclaimed (by rw [named]; exact here) after
      rw [← view,named] at holds
      exact in_order_push run added (stocked.fresh here) here (if_pos rfl) holds
  · have passes : ∀ {holds : State → Prop}, KeepsView holds (push_queue io queue payload options) → holds tx.view →
        holds (after (queues.on_tx (.PushQueue io queue payload options)) tx).view := by
      intro holds keeps now
      refine Meets.after (KeepsView.rethrow (keeps.bind ?_)) (fun _ _ kept => kept) now
      exact fun id => keeps_view_of_reads (reads_pure _)
    refine order.quiet ?_ ?_
    · intro key own
      by_cases fitsQueue : queue.length < 2 ^ 32
      · obtain ⟨rest,rfl⟩ := (starts_with_iff _ _).mp own
        have agrees := passes (push_queue_elsewhere io queue payload options tx.view) (fun _ _ => rfl)
        exact agrees _ (space_apart fits fitsQueue (Ne.symm mine) rest)
      · exact passes (push_queue_unnamed io fitsQueue payload options (fun view => view[key]? = tx.view[key]?)) rfl
    · unfold returned
      cases queues.on_tx (.PushQueue io queue payload options) tx with
      | error e u => rfl
      | ok reply u =>
        cases reply with
        | Pushed id => exact if_neg mine
        | _ => rfl

/-- Every move on these terms keeps the queue in order. -/
theorem queue_preserved {name : Bytes} (fits : name.length < 2 ^ 32) : Preserved queues (queueTerms name) (fun state view log =>
    InOrder name state (account log).done ∧
      ∀ seen, view = some seen → Whole name log → InOrder name seen ((account log).done ++ (account log).pending)) := by
  constructor
  · exact fun call _ durable => (queue_call_atomic durable).steady
  · rintro ⟨io,queue,payload,options⟩ _ durable
    exact ((push_queue_stages durable.1 queue payload options).bind (fun _ => stages_of_reads (reads_pure _))).rethrow
  · rintro call store log durable ⟨now,-⟩
    rw [account_snoc]
    exact ⟨call_in_order fits durable now,by simp⟩
  · rintro state log ⟨now,-⟩
    rw [account_snoc]
    refine ⟨now,?_⟩
    rintro _ ⟨⟩ -
    show InOrder name state ((account log).done ++ [])
    rw [List.append_nil]
    exact now
  · rintro call tx log durable ⟨now,seen⟩
    refine ⟨by rw [account_snoc]; exact now,?_⟩
    rintro _ ⟨⟩ whole
    obtain ⟨earlier,here⟩ := whole_snoc whole
    have staged := stage_in_order fits durable (seen tx.view rfl earlier) here
    rw [account_snoc]
    show InOrder name _ ((account log).done ++ ((account log).pending ++ [_]))
    rw [← List.append_assoc]
    exact staged
  · rintro state view next log same ⟨now,seen⟩
    refine ⟨now,?_⟩
    rintro _ ⟨⟩ whole
    refine (seen view rfl whole).congr ?_
    intro key own
    exact same key ((starts_with_iff _ _).mpr ((List.prefix_append _ _).trans ((starts_with_iff _ _).mp own)))
  · rintro state view next log whole same ⟨-,seen⟩
    rw [account_snoc]
    refine ⟨?_,by simp⟩
    exact (seen view rfl whole).congr (fun key own => same key (queue_apart name own))
  · rintro state view log ⟨now,-⟩
    rw [account_snoc]
    exact ⟨now,by simp⟩

end

/-- What is true of a queue whatever was done with it: its messages are numbered
    one after another; no generation of a message is handed out twice, and they
    rise; whoever settles a message holds its latest lease; what is acknowledged
    or dead is not handed out again; and a message is there unless it was
    acknowledged, or was dead when the dead ones were purged. -/
structure Delivered (name : Bytes) (state : State) (events : List (Leases.Event UInt64)) : Prop where
  numbered : ∃ count, adds events = numbers count ∧ (adds events).Nodup
  fenced : (claims events).Pairwise (fun a b => a.1 = b.1 → a.2 < b.2)
  settled : ∀ before id g phase after, events = before ++ .Settled id g phase :: after → Latest before id (.Claimed id g)
  acked : ∀ before id g after, events = before ++ .Settled id g .Gone :: after → ∀ h, .Claimed id h ∉ after
  dead : ∀ before id g after, events = before ++ .Settled id g .Retired :: after → ∀ h, .Claimed id h ∉ after
  kept : ∀ id, .Added id ∈ events →
    (∃ value message, state[(queueOf name).message_key id]? = some value ∧ decode_message value = .ok message ∧ message.id = id) ∨
    (∃ g, .Settled id g .Gone ∈ events) ∨
    ∃ before after g, events = before ++ .Purged :: after ∧ .Settled id g .Retired ∈ before

/-- What the calls of a queue can mean. -/
theorem history_kinds {name : Bytes} {facts : List QueueFact} {event : Leases.Event UInt64} (member : event ∈ history name facts) :
    (∀ id g, event ≠ .Settled id g .Held) ∧ (∀ id phase, event ≠ .Withdrawn id phase) ∧ ∀ id, event ≠ .Revived id := by
  obtain ⟨fact,-,inside⟩ := List.mem_flatMap.mp member
  unfold deliveries at inside
  split at inside
  · split at inside
    · unfold QueueCall.means at inside
      split at inside <;> simp at inside <;> subst inside <;> simp
    · cases inside
  · split at inside
    · simp at inside
      subst inside
      simp
    · cases inside
  · cases inside

theorem numbers_nodup {count : Nat} (small : count < 2 ^ 64) : (numbers count).Nodup := by
  refine List.Nodup.map_on ?_ List.nodup_range
  intro i first j second same
  have bound : i + 1 < 2 ^ 64 ∧ j + 1 < 2 ^ 64 := by
    rw [List.mem_range] at first second
    omega
  have equal := congrArg UInt64.toNat same
  rw [UInt64.toNat_ofNat_of_lt' bound.1,UInt64.toNat_ofNat_of_lt' bound.2] at equal
  omega

theorem InOrder.delivered {name : Bytes} {state : State} {facts : List QueueFact} (order : InOrder name state facts) :
    Delivered name state (history name facts) := by
  obtain ⟨pushed,ledger,run,added,stocked⟩ := order
  have unheld : ∀ {events : List (Leases.Event UInt64)}, (∀ e ∈ events, e ∈ history name facts) → ∀ j h, .Settled j h .Held ∉ events := by
    intro events part j h member
    exact (history_kinds (part _ member)).1 j h rfl
  have closes : ∀ before id g phase after, history name facts = before ++ .Settled id g phase :: after → phase.Closed →
      ∀ h, .Claimed id h ∉ after := by
    intro before id g phase after split closed
    rw [split] at run
    refine (run.closed_for_good closed ?_).2
    intro member
    exact (history_kinds (show _ ∈ history name facts by rw [split]; simp [member])).2.2 id rfl
  constructor
  · refine ⟨pushed,added,?_⟩
    rw [added]
    rcases stocked.next with ⟨zero,-⟩ | ⟨small,-⟩
    · exact numbers_nodup (by omega)
    · exact numbers_nodup (by omega)
  · exact run.claims_rise
  · intro before id g phase after split
    rw [split] at run
    refine run.settled_by_holder (unheld ?_)
    intro e member
    rw [split]
    exact List.mem_append_left _ member
  · intro before id g after split
    exact closes before id g .Gone after split (.inr rfl)
  · intro before id g after split
    exact closes before id g .Retired after split (.inl rfl)
  · intro id member
    obtain ⟨⟨phase,generation⟩,listed⟩ := run.added member
    by_cases gone : phase = .Gone
    · subst gone
      rcases run.gone listed with acked | withdrawn | ⟨before,after,reached,h,split,earlier,retired⟩
      · exact .inr (.inl acked)
      · exact absurd rfl ((history_kinds withdrawn).2.1 id .Gone)
      · have inside : ∀ e ∈ before, e ∈ history name facts := by
          intro e early
          rw [split]
          exact List.mem_append_left _ early
        rcases earlier.retired retired with ⟨g,buried⟩ | withdrawn
        · exact .inr (.inr ⟨before,after,g,split,buried⟩)
        · exact absurd rfl ((history_kinds (inside _ withdrawn)).2.1 id .Retired)
    · obtain ⟨message,fits,named,-,found⟩ := stocked.items id _ listed gone
      exact .inl ⟨_,message,found,decode_message_spelling fits,named⟩

section
variable [Hashes]

/-- In every run on a new store, with any calls on any queues by anyone, at any
    times, with transactions that are committed or not and with reopenings: the
    messages of a queue are delivered safely, if no transaction is committed in
    which a push on it failed halfway. -/
theorem queue_delivery {name : Bytes} {queue : Queue} (named : Queue.new name = .ok queue) {io : Io} {path : Path}
    {options : StoreOptions} {store : Store} {left : Bytes} (opened : open_with_options io path options [] = .ok store left)
    {moves : List (Move QueueCall QueueTxCall)} (along : (Play.mk (.Idle store) []).Along queues (queueTerms name) moves) :
    let play := Play.steps queues ⟨.Idle store,[]⟩ moves
    Delivered name play.session.store.state (history name (account play.log).done) := by
  obtain ⟨fits,-⟩ := queue_new_ok named
  have start : InOrder name ∅ [] := ⟨0,_,.start,rfl,stocked_empty name⟩
  have kept := play_invariant (queue_preserved fits) ⟨start,by simp⟩ opened along
  exact kept.holds.1.delivered

end

/-- A store of 300 bytes, where a message of 200 bytes has no room. -/
def smallStore : StoreOptions := { StoreOptions.default with max_bytes := some 300 }

/-- The push fails after it has raised the counter, and its transaction is committed all the same; then there is room again. -/
def halfwayPush : List (Move QueueCall QueueTxCall) :=
  [.Begin,.CallTx (.PushQueue calm [97] (List.replicate 200 0) .default),.Commit calm,.Reopen calm ["a.vstore"] .default,
    .Call (.Push calm [97] [] .default)]

set_option maxRecDepth 20000 in
/-- Then the first message of the queue has the number two. -/
theorem halfway_push_skips_number : ∃ store left, @open_with_options crates calm ["a.vstore"] smallStore [] = .ok store left ∧
    (∀ move ∈ halfwayPush, move.Fine (fun key => starts_with key QUEUE_PREFIX = true) (fun call => call.io.Durable)
      (fun call => call.io.Durable)) ∧
    ¬ Delivered [97] (@Play.steps crates _ _ _ _ (@queues crates) ⟨.Idle store,[]⟩ halfwayPush).session.store.state
      (history [97] (account (@Play.steps crates _ _ _ _ (@queues crates) ⟨.Idle store,[]⟩ halfwayPush).log).done) := by
  have evaluated : passes (@open_with_options crates calm ["a.vstore"] smallStore []) (fun store _ =>
      decide (history [97] (account (@Play.steps crates _ _ _ _ (@queues crates) ⟨.Idle store,[]⟩ halfwayPush).log).done =
        [.Added 2])) = true := by
    rw [crates_eq_quick]
    decide +kernel
  obtain ⟨store,left,opened⟩ := @sound_opens crates calm [] ["a.vstore"] smallStore calm_faultless (.inl rfl)
  rw [opened,passes_ok] at evaluated
  have pushed := of_decide_eq_true evaluated
  refine ⟨store,left,opened,?_,?_⟩
  · intro move member
    simp only [halfwayPush,List.mem_cons,List.not_mem_nil,or_false] at member
    rcases member with rfl | rfl | rfl | rfl | rfl
    · exact trivial
    · exact calm_durable
    · exact calm_durable
    · exact trivial
    · exact calm_durable
  · intro delivered
    rw [pushed] at delivered
    obtain ⟨count,added,-⟩ := delivered.numbered
    have one : [2] = numbers count := added
    have size := congrArg List.length one
    rw [numbers,List.length_map,List.length_range] at size
    rw [← size] at one
    exact absurd one (by decide)

/-- A push, one that is rolled back, a claim and its acknowledgement, and a reopening. -/
def pushAndAck : List (Move QueueCall QueueTxCall) :=
  [.Call (.Push calm [97] [1] .default),.Begin,.CallTx (.PushQueue calm [97] [2] .default),.Rollback,
    .Call (.Claim calm [97] 5 10),.Call (.Ack calm [97] 1 1),.Reopen calm ["a.vstore"] .default]

theorem push_and_ack_delivers : ∃ store left, @open_with_options crates calm ["a.vstore"] .default [] = .ok store left ∧
    Delivered [97] (@Play.steps crates _ _ _ _ (@queues crates) ⟨.Idle store,[]⟩ pushAndAck).session.store.state
      (history [97] (account (@Play.steps crates _ _ _ _ (@queues crates) ⟨.Idle store,[]⟩ pushAndAck).log).done) := by
  obtain ⟨store,left,opened⟩ := @sound_opens crates calm [] ["a.vstore"] .default calm_faultless (.inl rfl)
  have named : Queue.new [97] = .ok (queueOf [97]) := rfl
  refine ⟨store,left,opened,@queue_delivery crates _ _ named _ _ _ _ _ opened _ ?_⟩
  refine @along_of_fine crates _ _ _ _ _ _ (fun call => call.io.Durable) (fun call => call.io.Durable) _ (fun _ _ durable => durable)
    (fun _ _ durable => durable) ?_ ?_ _
  · intro io log member
    simp [pushAndAck] at member
  · intro move member
    simp only [pushAndAck,List.mem_cons,List.not_mem_nil,or_false] at member
    rcases member with rfl | rfl | rfl | rfl | rfl | rfl | rfl
    · exact calm_durable
    · exact trivial
    · exact calm_durable
    · exact trivial
    · exact calm_durable
    · exact calm_durable
    · exact trivial

end VoodooStore
