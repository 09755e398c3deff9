import VoodooStore.Pages

/-!
# Feeds read up to a limit

Changes, events and requests are stored in the order of their transactions, and
within one in that of their numbers or nonces. A read returns the first ones
behind its cursor; with the limit zero the loop over events and requests never
meets its limit and returns all of them (`feed_reads_exact_iff`).
-/
namespace VoodooStore
open Effects Paging
set_option linter.unusedSimpArgs false

/-- The items behind the cursor. -/
def behind {α : Type} (tx_id : α → UInt64) (after_tx_id : Option UInt64) (feed : List α) : List α :=
  feed.filter (fun item => !after_tx_id.any (fun after => tx_id item ≤ after))

/-- With the limit zero the loop collects everything. -/
theorem collect_after_zero {ε α : Type} {decode : Bytes → Except ε α} {tx_id : α → UInt64} {entry : α → Bytes × Bytes} {feed : List α}
    (reads : ∀ item ∈ feed, decode (entry item).2 = .ok item) (after_tx_id : Option UInt64) (items : List α) :
    collect_after decode tx_id after_tx_id 0 items (feed.map entry) = .ok (items ++ behind tx_id after_tx_id feed) := by
  unfold behind
  induction feed generalizing items with
  | nil =>
    rw [List.map_nil,List.filter_nil,List.append_nil]
    rfl
  | cons item feed ih =>
    have later := fun other member => reads other (List.mem_cons_of_mem item member)
    rw [List.map_cons,collect_after,reads item (by simp),ok_bind]
    by_cases seen : after_tx_id.any (fun after => decide (tx_id item ≤ after)) = true
    · rw [if_pos seen,ih later,List.filter_cons_of_neg (by simp [seen])]
    · rw [if_neg seen,if_neg (by simp),ih later,List.filter_cons_of_pos (by simp [seen]),List.append_assoc,List.singleton_append]

/-- Entries whose keys are the numbers of their transactions and then their nonces are in the order of both. -/
theorem scan_in_order {α : Type} {front : Bytes} {entry : α → Bytes × Bytes} {tx_id : α → UInt64} {nonce : α → Bytes} {state : State}
    {feed : List α} (keyed : ∀ item, (entry item).1 = front ++ ((tx_id item).to_be_bytes ++ nonce item))
    (scanned : scan state front = feed.map entry) :
    feed.Pairwise (fun a b => tx_id a < tx_id b ∨ tx_id a = tx_id b ∧ compare (nonce a) (nonce b) = .lt) := by
  have entries : (scan state front).Pairwise (fun a b => compare a.1 b.1 = .lt) := Std.ExtTreeMap.ordered_keys_toList.filter _
  rw [scanned,List.pairwise_map] at entries
  refine entries.imp ?_
  intro a b less
  have size (x : UInt64) : x.toNat < 256 ^ 8 := x.toNat_lt
  rw [keyed a,keyed b,compare_front,UInt64.to_be_bytes,UInt64.to_be_bytes,Endian.compare_toBe_append (size _) (size _)] at less
  rcases Nat.lt_trichotomy (tx_id a).toNat (tx_id b).toNat with low | same | high
  · exact .inl (UInt64.lt_iff_toNat_lt.mpr low)
  · refine .inr ⟨UInt64.toNat_inj.mp same,?_⟩
    rw [Nat.compare_eq_eq.mpr same] at less
    exact less
  · rw [Nat.compare_eq_gt.mpr high] at less
    cases less

/-- The list of all records of a feed, in order: by transaction, then as `next` says. -/
structure Listed {ε α : Type} (decode : Bytes → Except ε α) (tx_id : α → UInt64) (next : α → α → Prop) (store : Store) (front : Bytes)
    (feed : List α) : Prop where
  all : feedUnder decode store front = .ok feed
  ordered : feed.Pairwise (fun a b => tx_id a < tx_id b ∨ tx_id a = tx_id b ∧ next a b)

/-- A read returns the first items behind the cursor, as many as the limit allows. -/
def ReadsFirst {ε α : Type} (tx_id : α → UInt64) (feed : List α) (call : Option UInt64 → Nat → Except ε (List α))
    (after_tx_id : Option UInt64) (limit : Nat) : Prop :=
  call after_tx_id limit = .ok ((behind tx_id after_tx_id feed).take limit)

/-- A feed whose entries are items at their own keys, read by the loop. -/
theorem Holding.reads {ε α : Type} {front : Bytes} {entry : α → Bytes × Bytes} {fits : α → Prop} {decode : Bytes → Except ε α}
    {tx_id : α → UInt64} {nonce : α → Bytes} {store : Store} (holding : Holding front entry fits store.state)
    (reads : ∀ item, fits item → decode (entry item).2 = .ok item)
    (keyed : ∀ item, (entry item).1 = front ++ ((tx_id item).to_be_bytes ++ nonce item)) :
    ∃ feed, Listed decode tx_id (fun a b => compare (nonce a) (nonce b) = .lt) store front feed ∧ ∀ after_tx_id limit,
      ReadsFirst tx_id feed (fun after limit => collect_after decode tx_id after limit [] (Store.scan_prefix store front)) after_tx_id limit ↔
        limit ≠ 0 ∨ behind tx_id after_tx_id feed = [] := by
  obtain ⟨feed,scanned,fine⟩ := holding.scan
  have decodes : ∀ item ∈ feed, decode (entry item).2 = .ok item := fun item member => reads item (fine item member)
  refine ⟨feed,⟨?_,scan_in_order keyed scanned⟩,?_⟩
  · rw [feedUnder,scan_prefix_eq,scanned]
    exact mapM_entries decodes
  · intro after_tx_id limit
    unfold ReadsFirst
    dsimp only
    rw [scan_prefix_eq,scanned]
    by_cases zero : limit = 0
    · subst zero
      rw [collect_after_zero decodes,List.nil_append,List.take_zero,Except.ok.injEq]
      simp
    · rw [collect_after_eq decodes after_tx_id (show [].length < limit from Nat.pos_of_ne_zero zero),List.nil_append]
      exact ⟨fun _ => .inl zero,fun _ => rfl⟩

section
variable [Hashes]

/-- After any use of a new store a read of the changes returns the first ones behind its cursor; a
    read of the events or of the pending requests does so exactly if its limit is not zero or nothing is
    behind the cursor. -/
theorem feed_reads_exact_iff {io : Io} {path : Path} {options : StoreOptions} {store : Store} {left : Bytes}
    (opened : open_with_options io path options [] = .ok store left) :
    (∀ actions, OrdinaryUse actions →
      let used := ((Site.mk ⟨.Idle store,[]⟩ []).steps actions).session.store
      ∃ feed, Listed decode_change ChangeRecord.tx_id (fun a b => a.sequence < b.sequence) used CDC_PREFIX feed ∧
        ∀ after_tx_id limit, ReadsFirst ChangeRecord.tx_id feed used.changes_after after_tx_id limit) ∧
    (∀ moves, (∀ move ∈ moves, move.Fine (fun key => starts_with key OUTBOX_PREFIX = true) (fun call => call.io.Durable)
        (fun call => call.io.Durable)) →
      let used := (Play.steps outbox ⟨.Idle store,[]⟩ moves).session.store
      ∃ feed, Listed decode_event (fun event => event.id.tx_id) (fun a b => compare a.id.nonce.val b.id.nonce.val = .lt) used OUTBOX_PREFIX feed ∧
        ∀ after_tx_id limit, ReadsFirst (fun event => event.id.tx_id) feed used.outbox_events_after after_tx_id limit ↔
          limit ≠ 0 ∨ behind (fun event => event.id.tx_id) after_tx_id feed = []) ∧
    (∀ moves, (∀ move ∈ moves, move.Fine (fun key => starts_with key REQUEST_PREFIX = true) RpcCall.Durable RpcTxCall.Durable) →
      let used := (Play.steps rpc ⟨.Idle store,[]⟩ moves).session.store
      ∃ feed, Listed decode_request (fun request => request.id.tx_id) (fun a b => compare a.id.nonce.val b.id.nonce.val = .lt) used
          REQUEST_PREFIX feed ∧
        ∀ after_tx_id limit, ReadsFirst (fun request => request.id.tx_id) feed used.pending_rpc_requests_after after_tx_id limit ↔
          limit ≠ 0 ∨ behind (fun request => request.id.tx_id) after_tx_id feed = []) := by
  refine ⟨?_,?_,?_⟩
  · intro actions use
    obtain ⟨new,kept⟩ := new_store_exact opened
    have fed := (steps_exact new kept use).1.fed
    exact ⟨_,⟨fed.under,fed.ordered⟩,fun after_tx_id limit => changes_after_eq fed after_tx_id limit⟩
  · intro moves fine
    have kept := play_invariant outbox_preserved ⟨holding_empty _ _ _,by simp⟩ opened
      (along_of_fine (fun _ _ durable => durable) (fun _ _ durable => durable) (fun _ _ _ => trivial) fine _)
    exact Holding.reads kept.holds.1 (fun event => decode_event_spelling) (fun event => rfl)
  · intro moves fine
    have kept := play_invariant rpc_preserved ⟨holding_empty _ _ _,by simp⟩ opened
      (along_of_fine (fun _ _ durable => durable) (fun _ _ durable => durable) (fun _ _ _ => trivial) fine _)
    exact Holding.reads kept.holds.1 (fun request => decode_request_spelling) (fun request => rfl)

end

theorem two_events_fine : ∀ move ∈ twoEvents, move.Fine (fun key => starts_with key OUTBOX_PREFIX = true) (fun call => call.io.Durable)
    (fun call => call.io.Durable) := by
  intro move member
  simp only [twoEvents,List.mem_cons,List.not_mem_nil,or_false] at member
  rcases member with rfl | rfl | rfl | rfl | rfl
  · exact trivial
  · exact calm_durable
  · exact ⟨calm_durable,by decide⟩
  · exact calm_durable
  · exact calm_durable

theorem one_request_fine : ∀ move ∈ oneRequest, move.Fine (fun key => starts_with key REQUEST_PREFIX = true) RpcCall.Durable
    RpcTxCall.Durable := by
  intro move member
  simp only [oneRequest,List.mem_singleton] at member
  subst member
  exact calm_durable

/-- One event at a time, and one request. -/
theorem first_event_read : ∃ store left, @open_with_options crates calm ["a.vstore"] .default [] = .ok store left ∧
    (let used := (@Site.steps crates ⟨⟨.Idle store,[]⟩,[]⟩ pairOfDeletes).session.store;
      ∃ feed, Listed decode_change ChangeRecord.tx_id (fun a b => a.sequence < b.sequence) used CDC_PREFIX feed ∧
        ReadsFirst ChangeRecord.tx_id feed used.changes_after none 0) ∧
    (let used := (@Play.steps crates _ _ _ _ (@outbox crates) ⟨.Idle store,[]⟩ twoEvents).session.store;
      ∃ feed, Listed decode_event (fun event => event.id.tx_id) (fun a b => compare a.id.nonce.val b.id.nonce.val = .lt) used OUTBOX_PREFIX
          feed ∧ ReadsFirst (fun event => event.id.tx_id) feed used.outbox_events_after none 1) ∧
    (let used := (@Play.steps crates _ _ _ _ (@rpc crates) ⟨.Idle store,[]⟩ oneRequest).session.store;
      ∃ feed, Listed decode_request (fun request => request.id.tx_id) (fun a b => compare a.id.nonce.val b.id.nonce.val = .lt) used
          REQUEST_PREFIX feed ∧ ReadsFirst (fun request => request.id.tx_id) feed used.pending_rpc_requests_after (some 0) 1) := by
  obtain ⟨store,left,opened⟩ := @sound_opens crates calm [] ["a.vstore"] .default calm_faultless (.inl rfl)
  obtain ⟨changes,events,requests⟩ := @feed_reads_exact_iff crates _ _ _ _ _ opened
  obtain ⟨feed,listed,reads⟩ := changes pairOfDeletes pair_use
  obtain ⟨pending,listed_events,reads_events⟩ := events twoEvents two_events_fine
  obtain ⟨waiting,listed_requests,reads_requests⟩ := requests oneRequest one_request_fine
  exact ⟨store,left,opened,⟨feed,listed,reads none 0⟩,⟨pending,listed_events,(reads_events none 1).mpr (.inl (by decide))⟩,
    ⟨waiting,listed_requests,(reads_requests (some 0) 1).mpr (.inl (by decide))⟩⟩

set_option maxRecDepth 20000 in
/-- With the limit zero both events are returned. -/
theorem zero_returns_all : ∃ store left, @open_with_options crates calm ["a.vstore"] .default [] = .ok store left ∧
    let used := (@Play.steps crates _ _ _ _ (@outbox crates) ⟨.Idle store,[]⟩ twoEvents).session.store;
    (∃ events, used.outbox_events_after none 0 = .ok events ∧ events.length = 2) ∧
      ¬ ∃ feed, Listed decode_event (fun event => event.id.tx_id) (fun a b => compare a.id.nonce.val b.id.nonce.val = .lt) used OUTBOX_PREFIX
        feed ∧ ReadsFirst (fun event => event.id.tx_id) feed used.outbox_events_after none 0 := by
  obtain ⟨store,left,opened⟩ := @sound_opens crates calm [] ["a.vstore"] .default calm_faultless (.inl rfl)
  have evaluated : passes (@open_with_options crates calm ["a.vstore"] .default []) (fun store _ =>
        (((@Play.steps crates _ _ _ _ (@outbox crates) ⟨.Idle store,[]⟩ twoEvents).session.store).outbox_events_after none 0).toOption.any
          (fun events => decide (events.length = 2))) = true := by
    decide +kernel
  rw [opened,passes_ok] at evaluated
  refine ⟨store,left,opened,?_⟩
  intro used
  have two : ∃ events, used.outbox_events_after none 0 = .ok events ∧ events.length = 2 := by
    obtain ⟨events,read,two⟩ := any_ok_iff.mp evaluated
    exact ⟨events,read,of_decide_eq_true two⟩
  refine ⟨two,?_⟩
  rintro ⟨feed,-,reads⟩
  obtain ⟨events,read,size⟩ := two
  unfold ReadsFirst at reads
  rw [read,List.take_zero] at reads
  cases reads
  cases size

end VoodooStore
