import VoodooStore.Streams

/-!
# Subscriptions

Nothing keeps an acknowledgement from running ahead of its topic. As long as
none does, the cursor of a subscription rises and stays within the topic, and
every entry is returned by polls from when it is published until an
acknowledgement that comes later covers it (`subscription_unskipped`).
-/
namespace VoodooStore
open Effects Reading Messaging
set_option linter.unusedSimpArgs false

inductive TopicEvent
  | Published (entry : StreamEntry)
  | Acknowledged (next_offset : UInt64)
  deriving DecidableEq

/-- What a fact means for a topic and one of its subscriptions. -/
def topicEvents (topic subscription : Bytes) : StreamFact → List TopicEvent
  | .Returned (.Append _ stream payload) (.ok (.Appended offset)) => if stream = topic then [.Published ⟨offset,payload⟩] else []
  | .Returned (.AcknowledgeThrough _ t s _) (.ok (.Acknowledged state)) =>
    if t = topic ∧ s = subscription then [.Acknowledged state.next_offset] else []
  | .Staged (.AppendStream _ stream payload) (.ok (.Appended offset)) _ => if stream = topic then [.Published ⟨offset,payload⟩] else []
  | _ => []

def topicHistory (topic subscription : Bytes) (facts : List StreamFact) : List TopicEvent := facts.flatMap (topicEvents topic subscription)

theorem topic_history_snoc (topic subscription : Bytes) (facts : List StreamFact) (fact : StreamFact) :
    topicHistory topic subscription (facts ++ [fact]) = topicHistory topic subscription facts ++ topicEvents topic subscription fact := by
  simp [topicHistory]

def published (events : List TopicEvent) : List StreamEntry :=
  events.filterMap (fun event => match event with | .Published entry => some entry | .Acknowledged _ => none)

def acknowledged (events : List TopicEvent) : List UInt64 :=
  events.filterMap (fun event => match event with | .Published _ => none | .Acknowledged next_offset => some next_offset)

/-- The map holds a topic and the cursor of a subscription as their history leaves them. -/
structure Attended (topic subscription : Bytes) (events : List TopicEvent) (next : Nat) (cursor : UInt64) (state : State) : Prop where
  laid : Laid topic (published events) next state
  stored : stored_offset state[subKey topic subscription]? = .ok cursor
  latest : cursor = (acknowledged events).getLast?.getD 0
  bounded : cursor.toNat ≤ next
  rises : (acknowledged events).Pairwise (· ≤ ·)
  ahead : ∀ before entry after, events = before ++ .Published entry :: after →
    cursor ≤ entry.offset ∨ ∃ next_offset, .Acknowledged next_offset ∈ after ∧ entry.offset < next_offset

theorem attended_empty (topic subscription : Bytes) : Attended topic subscription [] 0 0 ∅ := by
  refine ⟨laid_empty topic,by simp [stored_offset],rfl,by simp,.nil,?_⟩
  intro before entry after split
  have size := congrArg List.length split
  simp at size

/-- The keys of a topic and of one of its subscriptions. -/
def TopicKey (topic subscription key : Bytes) : Prop := starts_with key (streamSpace topic) = true ∨ key = subKey topic subscription

theorem sub_apart (topic subscription : Bytes) : starts_with (subKey topic subscription) CDC_PREFIX = false :=
  domain_key_outside ⟨SUB_PREFIX,by decide,List.prefix_append _ _⟩

theorem topic_key_apart {topic subscription key : Bytes} (own : TopicKey topic subscription key) : starts_with key CDC_PREFIX = false := by
  rcases own with inside | rfl
  · exact stream_apart topic inside
  · exact sub_apart topic subscription

section
variable {topic subscription : Bytes} {events : List TopicEvent} {next : Nat} {cursor : UInt64} {state : State}

theorem Attended.congr {t : State} (attended : Attended topic subscription events next cursor state)
    (same : ∀ key, TopicKey topic subscription key → t[key]? = state[key]?) : Attended topic subscription events next cursor t := by
  refine { attended with laid := attended.laid.congr (fun key own => same key (.inl own)),stored := ?_ }
  rw [same _ (.inr rfl)]
  exact attended.stored

/-- One event more, split somewhere. -/
theorem snoc_split {event : TopicEvent} {before after : List TopicEvent} {entry : StreamEntry}
    (split : events ++ [event] = before ++ .Published entry :: after) :
    (event = .Published entry ∧ before = events ∧ after = []) ∨
      ∃ rest, after = rest ++ [event] ∧ events = before ++ .Published entry :: rest := by
  rcases List.eq_nil_or_concat after with rfl | ⟨rest,last,rfl⟩
  · obtain ⟨first,second⟩ := List.append_inj' split rfl
    cases second
    exact .inl ⟨rfl,first.symm,rfl⟩
  · rw [List.concat_eq_append,← List.cons_append,← List.append_assoc] at split
    obtain ⟨first,second⟩ := List.append_inj' split rfl
    cases second
    exact .inr ⟨rest,by rw [List.concat_eq_append],first⟩

/-- An entry is published at the next offset. -/
theorem Attended.publish {t : State} {payload : Bytes} (attended : Attended topic subscription events next cursor state)
    (laid : Laid topic (published events ++ [⟨UInt64.ofNat next,payload⟩]) (next + 1) t)
    (same : t[subKey topic subscription]? = state[subKey topic subscription]?) :
    Attended topic subscription (events ++ [.Published ⟨UInt64.ofNat next,payload⟩]) (next + 1) cursor t := by
  have quiet : acknowledged (events ++ [.Published ⟨UInt64.ofNat next,payload⟩]) = acknowledged events := by simp [acknowledged]
  refine ⟨?_,?_,?_,Nat.le_succ_of_le attended.bounded,?_,?_⟩
  · simpa [published] using laid
  · rw [same]
    exact attended.stored
  · rw [quiet]
    exact attended.latest
  · rw [quiet]
    exact attended.rises
  · intro before entry after split
    rcases snoc_split split with ⟨is,-,-⟩ | ⟨rest,rfl,earlier⟩
    · cases is
      refine .inl (UInt64.le_iff_toNat_le.mpr ?_)
      show cursor.toNat ≤ (UInt64.ofNat next).toNat
      rw [UInt64.toNat_ofNat_of_lt' attended.laid.small]
      exact attended.bounded
    · rcases attended.ahead before entry rest earlier with waiting | ⟨offset,member,past⟩
      · exact .inl waiting
      · exact .inr ⟨offset,by simp [member],past⟩

/-- The counter is raised for nothing. -/
theorem Attended.count {t : State} (attended : Attended topic subscription events next cursor state)
    (laid : Laid topic (published events) (next + 1) t) (same : t[subKey topic subscription]? = state[subKey topic subscription]?) :
    Attended topic subscription events (next + 1) cursor t := by
  refine { attended with laid := laid,stored := ?_,bounded := Nat.le_succ_of_le attended.bounded }
  rw [same]
  exact attended.stored

/-- The cursor moves on, within the topic. -/
theorem Attended.acknowledge {next_offset : UInt64} (attended : Attended topic subscription events next cursor state)
    (forward : cursor ≤ next_offset) (within_topic : next_offset.toNat ≤ next) :
    Attended topic subscription (events ++ [.Acknowledged next_offset]) next next_offset
      (state.insert (subKey topic subscription) next_offset.to_le_bytes) := by
  have more : acknowledged (events ++ [.Acknowledged next_offset]) = acknowledged events ++ [next_offset] := by simp [acknowledged]
  have quiet : published (events ++ [.Acknowledged next_offset]) = published events := by simp [published]
  refine ⟨?_,?_,?_,within_topic,?_,?_⟩
  · rw [quiet]
    refine attended.laid.congr ?_
    intro key own
    rw [get_insert,if_neg]
    rintro rfl
    rw [starts_with_iff] at own
    exact prefixes_apart (by decide) (List.prefix_append SUB_PREFIX _) ((List.prefix_append STREAM_PREFIX _).trans own)
  · rw [get_insert,if_pos rfl,stored_offset,if_pos (by simp),u64_from_to_le]
  · rw [more]
    simp
  · rw [more,List.pairwise_append]
    refine ⟨attended.rises,List.pairwise_singleton _ _,?_⟩
    intro earlier member last is
    rw [List.mem_singleton.mp is]
    refine UInt64.le_trans ?_ forward
    rw [attended.latest]
    obtain ⟨front,tail,whole⟩ : ∃ front tail, acknowledged events = front ++ [tail] := by
      rcases List.eq_nil_or_concat (acknowledged events) with empty | ⟨front,tail,whole⟩
      · rw [empty] at member
        cases member
      · exact ⟨front,tail,by rw [whole,List.concat_eq_append]⟩
    have sorted := attended.rises
    rw [whole] at member sorted ⊢
    rw [List.getLast?_append_of_ne_nil _ (by simp),List.getLast?_singleton,Option.getD_some]
    rcases List.mem_append.mp member with early | late
    · exact (List.pairwise_append.mp sorted).2.2 earlier early tail (by simp)
    · rw [List.mem_singleton.mp late]
      exact UInt64.le_refl _
  · intro before entry after split
    rcases snoc_split split with ⟨is,-,-⟩ | ⟨rest,rfl,earlier⟩
    · cases is
    · rcases attended.ahead before entry rest earlier with waiting | ⟨offset,member,past⟩
      · by_cases covered : entry.offset < next_offset
        · exact .inr ⟨next_offset,by simp,covered⟩
        · exact .inl (UInt64.not_lt.mp covered)
      · exact .inr ⟨offset,by simp [member],past⟩

end

/-! ## Calls -/

/-- An acknowledgement does not run ahead of the topic, and the subscription is not reset. -/
def StreamCall.Heeds (topic subscription : Bytes) (state : State) : StreamCall → Prop
  | .AcknowledgeThrough _ t s offset => t = topic → s = subscription →
      ∃ next, stored_offset state[(streamOf topic).next_key]? = .ok next ∧ offset < next
  | .ResetSubscription _ t s _ => ¬ (t = topic ∧ s = subscription)
  | _ => True

def subscriptionTerms (topic subscription : Bytes) : Terms StreamFailure StreamCall StreamTxCall StreamReply where
  mine := TopicKey topic subscription
  call state call := call.io.Durable ∧ call.Heeds topic subscription state
  callTx _ call := call.io.Durable
  commit _ := True

theorem sub_key_injective {a b c d : Bytes} (fitsA : a.length < 2 ^ 32) (fitsB : b.length < 2 ^ 32) (fitsC : c.length < 2 ^ 32)
    (fitsD : d.length < 2 ^ 32) (same : subKey a b = subKey c d) : a = c ∧ b = d := by
  have tuples : Tuples.tuple 4 [a,b] ++ [] = Tuples.tuple 4 [c,d] ++ [] := by simpa using List.append_cancel_left same
  obtain ⟨equal,-⟩ := Tuples.tuple_injective (show [a,b].length = [c,d].length from rfl) (fits_pair fitsA fitsB)
    (fits_pair fitsC fitsD) tuples
  cases equal
  exact ⟨rfl,rfl⟩

theorem append_elsewhere {topic subscription stream key : Bytes} (fits : topic.length < 2 ^ 32) (other : stream ≠ topic)
    (own : TopicKey topic subscription key) : ¬ (stream.length < 2 ^ 32 ∧ starts_with key (streamSpace stream) = true) := by
  rintro ⟨short,inside⟩
  rcases own with mine | rfl
  · obtain ⟨rest,rfl⟩ := (starts_with_iff _ _).mp mine
    rw [stream_space_apart fits short (Ne.symm other)] at inside
    cases inside
  · rw [starts_with_iff] at inside
    exact prefixes_apart (by decide) (List.prefix_append SUB_PREFIX _) ((List.prefix_append STREAM_PREFIX _).trans inside)

/-- The calls that write neither the topic nor the subscription. -/
theorem stream_call_elsewhere {topic subscription : Bytes} (fits : topic.length < 2 ^ 32) (short : subscription.length < 2 ^ 32)
    {call : StreamCall} (appends : ∀ io payload, call ≠ .Append io topic payload)
    (acknowledges : ∀ io offset, call ≠ .AcknowledgeThrough io topic subscription offset)
    (resets : ∀ io offset, call ≠ .ResetSubscription io topic subscription offset) {key : Bytes}
    (own : TopicKey topic subscription key) : ¬ call.own key := by
  have subs : ∀ t s, t.length < 2 ^ 32 ∧ s.length < 2 ^ 32 ∧ key = subKey t s → t = topic ∧ s = subscription := by
    rintro t s ⟨fitsT,fitsS,rfl⟩
    rcases own with inside | same
    · rw [starts_with_iff] at inside
      exact absurd ((List.prefix_append STREAM_PREFIX _).trans inside) (prefixes_apart (by decide) (List.prefix_append SUB_PREFIX _))
    · exact sub_key_injective fitsT fitsS fits short same
  have groups : ∀ s g, ¬ (s.length < 2 ^ 32 ∧ g.length < 2 ^ 32 ∧ key = groupKey s g) := by
    rintro s g ⟨-,-,rfl⟩
    have apart := @prefixes_apart GROUP_PREFIX
    rcases own with inside | same
    · rw [starts_with_iff] at inside
      exact apart (by decide) (List.prefix_append _ _) ((List.prefix_append STREAM_PREFIX _).trans inside)
    · have both : SUB_PREFIX <+: groupKey s g := by
        rw [same]
        exact List.prefix_append _ _
      exact apart (by decide) (List.prefix_append _ _) both
  cases call with
  | Append io stream payload =>
    by_cases here : stream = topic
    · rw [here] at appends
      exact absurd rfl (appends io payload)
    · exact append_elsewhere fits here own
  | AcknowledgeThrough io t s offset =>
    intro mine
    obtain ⟨rfl,rfl⟩ := subs t s mine
    exact acknowledges io offset rfl
  | ResetSubscription io t s offset =>
    intro mine
    obtain ⟨rfl,rfl⟩ := subs t s mine
    exact resets io offset rfl
  | GroupClaim io stream group consumer now_ms lease_duration_ms => exact groups stream group
  | GroupAck io stream group consumer offset lease_generation => exact groups stream group
  | GroupNack io stream group consumer offset lease_generation => exact groups stream group
  | GroupReset io stream group next_offset => exact groups stream group

section
variable [Hashes] {topic subscription : Bytes} {facts : List StreamFact} {next : Nat} {cursor : UInt64}

/-- An acknowledgement that is accepted moves the cursor behind its offset, and not back. -/
theorem acknowledge_ok {io : Io} {offset : UInt64} {store t : Store} {reply : SubscriptionState}
    (done : on_stream topic (fun self => Topic.acknowledge_through self io subscription offset) store = .ok reply t)
    (stored : stored_offset store.state[subKey topic subscription]? = .ok cursor) :
    cursor ≤ reply.next_offset ∧ reply.next_offset.toNat = offset.toNat + 1 ∧
      SameData (store.state.insert (subKey topic subscription) reply.next_offset.to_le_bytes) t.state := by
  obtain ⟨self,made,done⟩ := lift_bind_ok.mp done
  obtain ⟨-,-,rfl⟩ := stream_new_ok.mp made
  dsimp only [Topic.acknowledge_through] at done
  obtain ⟨_,-,done⟩ := lift_bind_ok.mp done
  rw [get_bind] at done
  obtain ⟨current,read,done⟩ := lift_bind_ok.mp done
  obtain ⟨next_offset,added,done⟩ := lift_bind_ok.mp done
  split at done
  · cases done
  rename_i forward
  obtain ⟨key,keyed,done⟩ := lift_bind_ok.mp done
  obtain ⟨_,_,written,done⟩ := bind_ok.mp done
  cases done
  obtain ⟨-,-,-,rfl⟩ := subscription_key_ok.mp keyed
  unfold Topic.subscription_state at read
  have at_cursor : stored_offset (store.get (subKey (streamOf topic).name subscription)) = .ok cursor := stored
  rw [keyed,ok_bind,at_cursor,ok_bind] at read
  cases read
  have above := u64_checked_add_some (ok_or_ok.mp added)
  rw [UInt64.toNat_one] at above
  exact ⟨UInt64.not_lt.mp forward,above,put_alone_ok (rethrow_ok.mp written)⟩

/-- A call keeps the topic and the subscription in line with their history. -/
theorem call_attended (fits : topic.length < 2 ^ 32) (short : subscription.length < 2 ^ 32) {call : StreamCall} (durable : call.io.Durable)
    {store : Store} (heeds : call.Heeds topic subscription store.state)
    (attended : Attended topic subscription (topicHistory topic subscription facts) next cursor store.state) :
    ∃ next cursor, Attended topic subscription (topicHistory topic subscription
      (facts ++ [Happened.Returned call (returned (streams.on_store call) store)])) next cursor (after (streams.on_store call) store).state := by
  have elsewhere := (stream_call_confined call).elsewhere store
  have keeps := (stream_call_atomic durable).keeps store
  rw [topic_history_snoc]
  unfold returned
  cases result : streams.on_store call store with
  | error e t =>
    have left : (after (streams.on_store call) store) = t := by unfold after; rw [result]
    rw [left,keeps e t result]
    refine ⟨next,cursor,?_⟩
    have silent : topicEvents topic subscription (.Returned call (.error e)) = [] := by cases call <;> rfl
    rw [silent,List.append_nil]
    exact attended
  | ok reply t =>
    have left : (after (streams.on_store call) store) = t := by unfold after; rw [result]
    rw [left] at elsewhere ⊢
    have others : ∀ key, TopicKey topic subscription key → ¬ call.own key → t.state[key]? = store.state[key]? :=
      fun key own other => elsewhere key (topic_key_apart own) other
    by_cases appends : ∃ io payload, call = .Append io topic payload
    · obtain ⟨io,payload,rfl⟩ := appends
      obtain ⟨offset,_,appended,done⟩ := bind_ok.mp result
      cases done
      obtain ⟨here,laid⟩ := append_laid attended.laid (rethrow_ok.mp appended)
      have event : topicEvents topic subscription (.Returned (.Append io topic payload) (.ok (.Appended offset))) =
          [.Published ⟨offset,payload⟩] := if_pos rfl
      rw [event]
      subst here
      refine ⟨next + 1,cursor,attended.publish laid (others _ (.inr rfl) ?_)⟩
      rintro ⟨-,inside⟩
      rw [starts_with_iff] at inside
      exact prefixes_apart (by decide) (List.prefix_append SUB_PREFIX _) ((List.prefix_append STREAM_PREFIX _).trans inside)
    · by_cases acknowledges : ∃ io offset, call = .AcknowledgeThrough io topic subscription offset
      · obtain ⟨io,offset,rfl⟩ := acknowledges
        obtain ⟨after_ack,_,moved,done⟩ := bind_ok.mp result
        cases done
        obtain ⟨forward,above,same⟩ := acknowledge_ok (rethrow_ok.mp moved) attended.stored
        obtain ⟨limit,counted,below⟩ := heeds rfl rfl
        have end_is : limit = UInt64.ofNat next := Except.ok.inj (counted.symm.trans attended.laid.next_offset)
        have bound : after_ack.next_offset.toNat ≤ next := by
          rw [end_is,UInt64.lt_iff_toNat_lt,UInt64.toNat_ofNat_of_lt' attended.laid.small] at below
          omega
        have event : topicEvents topic subscription (.Returned (.AcknowledgeThrough io topic subscription offset)
            (.ok (.Acknowledged after_ack))) = [.Acknowledged after_ack.next_offset] := if_pos ⟨rfl,rfl⟩
        rw [event]
        have moved_on := attended.acknowledge forward bound
        exact ⟨next,after_ack.next_offset,moved_on.congr (fun key own => same key (topic_key_apart own))⟩
      · have resets : ∀ io offset, call ≠ .ResetSubscription io topic subscription offset := by
          rintro io offset rfl
          exact heeds ⟨rfl,rfl⟩
        have silent : topicEvents topic subscription (.Returned call (.ok reply)) = [] := by
          unfold topicEvents
          split
          · rename_i io stream payload offset same
            cases same
            refine if_neg ?_
            rintro rfl
            exact appends ⟨io,payload,rfl⟩
          · rename_i io t s offset state same
            cases same
            refine if_neg ?_
            rintro ⟨rfl,rfl⟩
            exact acknowledges ⟨io,offset,rfl⟩
          · rename_i same
            cases same
          · rfl
        rw [silent,List.append_nil]
        refine ⟨next,cursor,attended.congr (fun key own => others key own ?_)⟩
        refine stream_call_elsewhere fits short ?_ ?_ resets own
        · exact fun io payload same => appends ⟨io,payload,same⟩
        · exact fun io offset same => acknowledges ⟨io,offset,same⟩

/-- So does an append in a transaction; if it fails, the counter may have been raised. -/
theorem stage_attended (fits : topic.length < 2 ^ 32) (call : StreamTxCall) {tx : Transaction}
    (attended : Attended topic subscription (topicHistory topic subscription facts) next cursor tx.view) (spoiled : Bool) :
    ∃ next cursor, Attended topic subscription (topicHistory topic subscription
      (facts ++ [Happened.Staged call (returned (streams.on_tx call) tx) spoiled])) next cursor (after (streams.on_tx call) tx).view := by
  obtain ⟨io,stream,payload⟩ := call
  have elsewhere : Elsewhere (StreamTxCall.own (.AppendStream io stream payload)) tx.view
      (after (streams.on_tx (.AppendStream io stream payload)) tx).view :=
    ((append_stream_confined io stream payload).rethrow.bind (fun _ => confined_view_of_reads (reads_pure _))).elsewhere tx
  rw [topic_history_snoc]
  by_cases here : stream = topic
  · subst here
    have cursor_kept : (after (streams.on_tx (.AppendStream io stream payload)) tx).view[subKey stream subscription]? =
        tx.view[subKey stream subscription]? := by
      refine elsewhere _ (sub_apart stream subscription) ?_
      rintro ⟨-,inside⟩
      rw [starts_with_iff] at inside
      exact prefixes_apart (by decide) (List.prefix_append SUB_PREFIX _) ((List.prefix_append STREAM_PREFIX _).trans inside)
    have appended := @append_stream_laid _ _ payload io _ _ _ attended.laid
    unfold after at cursor_kept ⊢
    unfold returned
    cases result : append_stream io stream payload tx with
    | ok offset u =>
      have whole : streams.on_tx (.AppendStream io stream payload) tx = .ok (.Appended offset) u :=
        bind_ok.mpr ⟨offset,u,rethrow_ok.mpr result,rfl⟩
      rw [result] at appended
      rw [whole] at cursor_kept ⊢
      obtain ⟨rfl,laid⟩ := appended
      have event : topicEvents stream subscription (.Staged (.AppendStream io stream payload) (.ok (.Appended (UInt64.ofNat next))) spoiled) =
          [.Published ⟨UInt64.ofNat next,payload⟩] := if_pos rfl
      rw [event]
      exact ⟨next + 1,cursor,attended.publish laid cursor_kept⟩
    | error e u =>
      have whole : streams.on_tx (.AppendStream io stream payload) tx = .error (.Tx e) u :=
        bind_error.mpr (.inl (rethrow_error.mpr ⟨e,result,rfl⟩))
      rw [result] at appended
      rw [whole] at cursor_kept ⊢
      have silent : topicEvents stream subscription (.Staged (.AppendStream io stream payload) (.error (.Tx e)) spoiled) = [] := rfl
      rw [silent,List.append_nil]
      rcases appended with kept | raised
      · refine ⟨next,cursor,{ attended with laid := kept,stored := ?_ }⟩
        rw [cursor_kept]
        exact attended.stored
      · exact ⟨next + 1,cursor,attended.count raised cursor_kept⟩
  · have silent : topicEvents topic subscription (.Staged (.AppendStream io stream payload)
        (returned (streams.on_tx (.AppendStream io stream payload)) tx) spoiled) = [] := by
      generalize returned (streams.on_tx (.AppendStream io stream payload)) tx = result
      unfold topicEvents
      split
      · rename_i same
        cases same
      · rename_i same
        cases same
      · rename_i same
        cases same
        exact if_neg here
      · rfl
    rw [silent,List.append_nil]
    exact ⟨next,cursor,attended.congr (fun key own => elsewhere key (topic_key_apart own) (append_elsewhere fits here own))⟩

/-! ## Runs -/

theorem subscription_preserved (fits : topic.length < 2 ^ 32) (short : subscription.length < 2 ^ 32) :
    Preserved streams (subscriptionTerms topic subscription) (fun state view log =>
      (∃ next cursor, Attended topic subscription (topicHistory topic subscription (account log).done) next cursor state) ∧
      ∀ seen, view = some seen → ∃ next cursor,
        Attended topic subscription (topicHistory topic subscription ((account log).done ++ (account log).pending)) next cursor seen) := by
  constructor
  · exact fun call _ ok => (stream_call_atomic ok.1).steady
  · rintro ⟨io,stream,payload⟩ _ durable
    exact (append_stream_stages durable.1 stream payload).rethrow.bind (fun _ => stages_of_reads (reads_pure _))
  · rintro call store log ⟨durable,heeds⟩ ⟨⟨next,cursor,attended⟩,-⟩
    rw [account_snoc]
    exact ⟨call_attended fits short durable heeds attended,by simp⟩
  · rintro state log ⟨now,-⟩
    rw [account_snoc]
    refine ⟨now,?_⟩
    rintro _ ⟨⟩
    show ∃ next cursor, Attended topic subscription (topicHistory topic subscription ((account log).done ++ [])) next cursor state
    rw [List.append_nil]
    exact now
  · rintro call tx log durable ⟨now,seen⟩
    rw [account_snoc]
    refine ⟨now,?_⟩
    rintro _ ⟨⟩
    obtain ⟨next,cursor,attended⟩ := seen tx.view rfl
    have staged := stage_attended fits call attended (halfway (streams.on_tx call) tx)
    rw [List.append_assoc] at staged
    exact staged
  · rintro state view following log same ⟨now,seen⟩
    refine ⟨now,?_⟩
    rintro _ ⟨⟩
    obtain ⟨next,cursor,attended⟩ := seen view rfl
    exact ⟨next,cursor,attended.congr same⟩
  · rintro state view following log - same ⟨-,seen⟩
    rw [account_snoc]
    obtain ⟨next,cursor,attended⟩ := seen view rfl
    exact ⟨⟨next,cursor,attended.congr (fun key own => same key (topic_key_apart own))⟩,by simp⟩
  · rintro state view log ⟨now,-⟩
    rw [account_snoc]
    exact ⟨now,by simp⟩

end

/-- What is true of a subscription: its cursor is where the latest
    acknowledgement put it, never moved back, and is not ahead of the topic;
    every entry is polled until an acknowledgement after it covers it. -/
structure Unskipped (topic subscription : Bytes) (store : Store) (events : List TopicEvent) : Prop where
  cursor : ∃ cursor next, Topic.subscription_state (streamOf topic) store subscription = .ok ⟨cursor⟩ ∧
    (streamOf topic).next_offset store = .ok next ∧ cursor ≤ next ∧ cursor = (acknowledged events).getLast?.getD 0
  rises : (acknowledged events).Pairwise (· ≤ ·)
  polled : ∀ before entry after, events = before ++ .Published entry :: after →
    (∃ next_offset, .Acknowledged next_offset ∈ after ∧ entry.offset < next_offset) ∨
    ∃ enough, ∀ limit ≥ enough, ∃ entries, Topic.poll (streamOf topic) store subscription limit = .ok entries ∧ entry ∈ entries

theorem Attended.unskipped {topic subscription : Bytes} {events : List TopicEvent} {next : Nat} {cursor : UInt64} {store : Store}
    (attended : Attended topic subscription events next cursor store.state) {key : Bytes}
    (keyed : subscription_key topic subscription = .ok key) : Unskipped topic subscription store events := by
  obtain ⟨-,-,-,rfl⟩ := subscription_key_ok.mp keyed
  have read : Topic.subscription_state (streamOf topic) store subscription = .ok ⟨cursor⟩ := by
    unfold Topic.subscription_state
    have at_cursor : stored_offset (store.get (subKey topic subscription)) = .ok cursor := attended.stored
    rw [show (streamOf topic).name = topic from rfl,keyed,ok_bind,at_cursor]
    rfl
  refine ⟨⟨cursor,UInt64.ofNat next,read,attended.laid.next_offset,?_,attended.latest⟩,attended.rises,?_⟩
  · rw [UInt64.le_iff_toNat_le,UInt64.toNat_ofNat_of_lt' attended.laid.small]
    exact attended.bounded
  · intro before entry after split
    rcases attended.ahead before entry after split with waiting | covered
    · refine .inr ⟨(published events).length,?_⟩
      intro limit enough
      refine ⟨((published events).filter (fun entry => cursor ≤ entry.offset)).take limit,?_,?_⟩
      · unfold Topic.poll
        rw [read,ok_bind]
        exact attended.laid.read_from cursor limit
      · have member : entry ∈ (published events).filter (fun entry => cursor ≤ entry.offset) := by
          refine List.mem_filter.mpr ⟨?_,decide_eq_true waiting⟩
          rw [split]
          simp [published]
        rw [List.take_of_length_le]
        · exact member
        · exact (List.length_filter_le _ _).trans enough
    · exact .inl covered

section
variable [Hashes]

/-- In every run on a new store in which no acknowledgement on a subscription
    runs ahead of its topic and the subscription is not reset, whatever else is
    done with streams, topics and groups, by calls or in transactions. -/
theorem subscription_unskipped {topic subscription key : Bytes} {stream : Stream} (named : Stream.new topic = .ok stream)
    (keyed : subscription_key topic subscription = .ok key) {io : Io} {path : Path} {options : StoreOptions} {store : Store} {left : Bytes}
    (opened : open_with_options io path options [] = .ok store left) {moves : List (Move StreamCall StreamTxCall)}
    (along : (Play.mk (.Idle store) []).Along streams (subscriptionTerms topic subscription) moves) :
    let play := Play.steps streams ⟨.Idle store,[]⟩ moves
    Unskipped topic subscription play.session.store (topicHistory topic subscription (account play.log).done) := by
  obtain ⟨-,fits,-⟩ := stream_new_ok.mp named
  obtain ⟨-,-,short,-⟩ := subscription_key_ok.mp keyed
  have start : ∃ next cursor, Attended topic subscription [] next cursor ∅ := ⟨0,0,attended_empty topic subscription⟩
  have kept := play_invariant (subscription_preserved fits short) ⟨start,by simp⟩ opened along
  obtain ⟨next,cursor,attended⟩ := kept.holds.1
  exact attended.unskipped keyed

end

/-- An acknowledgement on a topic without entries, and then an entry. -/
def acknowledgedAhead : List (Move StreamCall StreamTxCall) :=
  [.Call (.AcknowledgeThrough calm [116] [115] 5),.Call (.Append calm [116] [1])]

set_option maxRecDepth 20000 in
/-- The cursor is ahead of the topic, and the entry is never polled. -/
theorem acknowledged_ahead_skips : ∃ store left, @open_with_options crates calm ["a.vstore"] .default [] = .ok store left ∧
    (∀ move ∈ acknowledgedAhead, move.Fine (TopicKey [116] [115]) (fun call => call.io.Durable ∧
      ∀ io topic subscription offset, call ≠ .ResetSubscription io topic subscription offset) (fun call => call.io.Durable)) ∧
    ¬ Unskipped [116] [115] (@Play.steps crates _ _ _ _ (@streams crates) ⟨.Idle store,[]⟩ acknowledgedAhead).session.store
      (topicHistory [116] [115] (account (@Play.steps crates _ _ _ _ (@streams crates) ⟨.Idle store,[]⟩ acknowledgedAhead).log).done) := by
  have evaluated : passes (@open_with_options crates calm ["a.vstore"] .default []) (fun store _ =>
        let store := (@Play.steps crates _ _ _ _ (@streams crates) ⟨.Idle store,[]⟩ acknowledgedAhead).session.store
        decide ((Topic.subscription_state (streamOf [116]) store [115]).toOption = some ⟨6⟩ ∧
          ((streamOf [116]).next_offset store).toOption = some 1)) = true := by
    rw [crates_eq_quick]
    decide +kernel
  obtain ⟨store,left,opened⟩ := @sound_opens crates calm [] ["a.vstore"] .default calm_faultless (.inl rfl)
  rw [opened,passes_ok] at evaluated
  obtain ⟨cursor_six,next_one⟩ := of_decide_eq_true evaluated
  refine ⟨store,left,opened,?_,?_⟩
  · intro move member
    simp only [acknowledgedAhead,List.mem_cons,List.not_mem_nil,or_false] at member
    rcases member with rfl | rfl
    · exact ⟨calm_durable,by simp⟩
    · exact ⟨calm_durable,by simp⟩
  · intro unskipped
    obtain ⟨cursor,next,read,counted,bounded,-⟩ := unskipped.cursor
    rw [read] at cursor_six
    rw [counted] at next_one
    cases cursor_six
    cases next_one
    exact absurd bounded (by decide)

/-- Two entries that are acknowledged each before the next one, with a reopening between them. -/
def publishedAndAcknowledged : List (Move StreamCall StreamTxCall) :=
  [.Call (.Append calm [116] [1]),.Call (.AcknowledgeThrough calm [116] [115] 0),.Reopen calm ["a.vstore"] .default,
    .Call (.Append calm [116] [2]),.Call (.AcknowledgeThrough calm [116] [115] 1)]

/-- An entry that is committed, one that is rolled back, a claim of a group, and one more entry. -/
def publishedAndPolled : List (Move StreamCall StreamTxCall) :=
  [.Begin,.CallTx (.AppendStream calm [116] [4]),.Commit calm,.Begin,.CallTx (.AppendStream calm [116] [5]),.Rollback,
    .Call (.GroupClaim calm [116] [103] [99] 0 5),.Call (.Append calm [116] [6])]

set_option maxRecDepth 20000 in
theorem published_and_polled_unskipped : ∃ store left, @open_with_options crates calm ["a.vstore"] .default [] = .ok store left ∧
    let play := @Play.steps crates _ _ _ _ (@streams crates) ⟨.Idle store,[]⟩ (publishedAndAcknowledged ++ publishedAndPolled)
    let events := topicHistory [116] [115] (account play.log).done
    acknowledged events = [1,2] ∧ published events = [⟨0,[1]⟩,⟨1,[2]⟩,⟨2,[4]⟩,⟨3,[6]⟩] ∧
      Unskipped [116] [115] play.session.store events := by
  obtain ⟨store,left,opened⟩ := @sound_opens crates calm [] ["a.vstore"] .default calm_faultless (.inl rfl)
  have evaluated : passes (@open_with_options crates calm ["a.vstore"] .default []) (fun store _ =>
      let play := fun n => @Play.steps crates _ _ _ _ (@streams crates) ⟨.Idle store,[]⟩ (publishedAndAcknowledged.take n)
      let ended := @Play.steps crates _ _ _ _ (@streams crates) ⟨.Idle store,[]⟩ (publishedAndAcknowledged ++ publishedAndPolled)
      (stored_offset (play 1).session.store.state[(streamOf [116]).next_key]?).toOption.any (fun next => decide (0 < next)) &&
        (stored_offset (play 4).session.store.state[(streamOf [116]).next_key]?).toOption.any (fun next => decide (1 < next)) &&
        decide (acknowledged (topicHistory [116] [115] (account ended.log).done) = [1,2]) &&
        decide (published (topicHistory [116] [115] (account ended.log).done) = [⟨0,[1]⟩,⟨1,[2]⟩,⟨2,[4]⟩,⟨3,[6]⟩])) = true := by
    rw [crates_eq_quick]
    decide +kernel
  rw [opened,passes_ok] at evaluated
  obtain ⟨evaluated,told⟩ := Bool.and_eq_true_iff.mp evaluated
  obtain ⟨evaluated,covered⟩ := Bool.and_eq_true_iff.mp evaluated
  obtain ⟨first,second⟩ := Bool.and_eq_true_iff.mp evaluated
  obtain ⟨one,counted,behind⟩ := any_ok_iff.mp first
  obtain ⟨two,later,further⟩ := any_ok_iff.mp second
  have named : Stream.new [116] = .ok (streamOf [116]) := rfl
  have keyed : subscription_key [116] [115] = .ok (subKey [116] [115]) := rfl
  refine ⟨store,left,opened,of_decide_eq_true covered,of_decide_eq_true told,
    @subscription_unskipped crates _ _ _ _ named keyed _ _ _ _ _ opened _ ((@Play.along_append crates _ _ _ _ _ _ _ _ _).mpr ⟨?_,?_⟩)⟩
  · exact ⟨⟨calm_durable,trivial⟩,⟨calm_durable,fun _ _ => ⟨one,counted,of_decide_eq_true behind⟩⟩,trivial,
      allows_call ⟨calm_durable,trivial⟩,allows_call ⟨calm_durable,fun _ _ => ⟨two,later,of_decide_eq_true further⟩⟩,trivial⟩
  · refine @along_of_fine crates _ _ _ _ _ (subscriptionTerms [116] [115])
      (fun call => call.io.Durable ∧ ∀ state, call.Heeds [116] [115] state) (fun call => call.io.Durable) _
      (fun state call fine => ⟨fine.1,fine.2 state⟩) (fun _ _ durable => durable) (fun _ _ _ => trivial) ?_ _
    intro move member
    simp only [publishedAndPolled,List.mem_cons,List.not_mem_nil,or_false] at member
    rcases member with rfl | rfl | rfl | rfl | rfl | rfl | rfl | rfl
    · exact trivial
    · exact calm_durable
    · exact calm_durable
    · exact trivial
    · exact calm_durable
    · exact trivial
    · exact ⟨calm_durable,fun _ => trivial⟩
    · exact ⟨calm_durable,fun _ => trivial⟩

end VoodooStore
