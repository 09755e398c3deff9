import VoodooStore.Rpc
import VoodooStore.Lib.Paging

/-!
# Paging through the feeds

Changes, events and requests are read in pages behind the number of a
transaction. A page counts records and a cursor counts transactions: a page that
ends inside a transaction leaves the rest of it out (`paging_complete_iff`).
-/
namespace VoodooStore
open Effects Paging
set_option linter.unusedSimpArgs false

/-- Calls behind the transaction of the last item, one after another until a page is empty, succeed and return these. -/
def PagedAs {ε α : Type} (call : Option UInt64 → Except ε (List α)) (tx_id : α → UInt64) (items : List α) : Prop :=
  ∃ pages, (∀ after, call after = .ok (pages after)) ∧ Read pages tx_id none items

/-- What is stored under a prefix, in the order of the keys. -/
def feedUnder {ε α : Type} (decode : Bytes → Except ε α) (store : Store) (front : Bytes) : Except ε (List α) :=
  (Store.scan_prefix store front).mapM (fun entry => decode entry.2)

/-- Paging through a feed yields it, record for record, if and only if no page ends inside a transaction. -/
def PagesIff {ε α : Type} (decode : Bytes → Except ε α) (tx_id : α → UInt64) (store : Store) (front : Bytes)
    (call : Option UInt64 → Nat → Except ε (List α)) : Prop :=
  ∃ feed, feedUnder decode store front = .ok feed ∧ ∀ limit, 0 < limit →
    ∃ items, PagedAs (fun after => call after limit) tx_id items ∧ (items = feed ↔ Clean tx_id limit feed)

theorem PagedAs.unique {ε α : Type} {call : Option UInt64 → Except ε (List α)} {tx_id : α → UInt64} {first second : List α}
    (one : PagedAs call tx_id first) (other : PagedAs call tx_id second) : first = second := by
  obtain ⟨pages,calls,read⟩ := one
  obtain ⟨pages',calls',read'⟩ := other
  have same : pages = pages' := by
    funext after
    have both := calls after
    rw [calls' after] at both
    exact (Except.ok.inj both).symm
  rw [← same] at read'
  exact read.unique read'

/-- Calls that return the pages of an ordered list. -/
theorem paged_of_pages {ε α : Type} {call : Option UInt64 → Except ε (List α)} {tx_id : α → UInt64} {feed : List α} {limit : Nat}
    (positive : 0 < limit) (ordered : feed.Pairwise (tx_id · ≤ tx_id ·)) (calls : ∀ after, call after = .ok (page tx_id feed limit after)) :
    ∃ items, PagedAs call tx_id items ∧ (items = feed ↔ Clean tx_id limit feed) := by
  let _ : LinearOrder UInt64 :=
    { le_refl := UInt64.le_refl
      le_trans := fun _ _ _ => UInt64.le_trans
      le_antisymm := fun _ _ => UInt64.le_antisymm
      le_total := UInt64.le_total
      lt_iff_le_not_ge := fun a b => by
        rw [UInt64.not_le]
        exact ⟨fun less => ⟨UInt64.le_of_lt less,less⟩,And.right⟩
      toDecidableLE := inferInstance }
  obtain ⟨items,read,-,whole⟩ := read_pages positive feed none feed ordered (fun _ _ => rfl) (page_start tx_id feed limit)
  exact ⟨items,⟨_,calls,read⟩,whole⟩

/-- The loop over the entries of a feed that can be read. -/
theorem collect_after_eq {ε α : Type} {decode : Bytes → Except ε α} {tx_id : α → UInt64} {entry : α → Bytes × Bytes} {feed : List α}
    (reads : ∀ item ∈ feed, decode (entry item).2 = .ok item) (after_tx_id : Option UInt64) {limit : Nat} {items : List α}
    (room : items.length < limit) : collect_after decode tx_id after_tx_id limit items (feed.map entry) =
      .ok ((items ++ feed.filter (fun c => !after_tx_id.any (fun after => tx_id c ≤ after))).take limit) := by
  induction feed generalizing items with
  | nil =>
    rw [List.map_nil,List.filter_nil,List.append_nil,List.take_of_length_le (by omega)]
    rfl
  | cons item feed ih =>
    have later := fun other member => reads other (List.mem_cons_of_mem item member)
    rw [List.map_cons,collect_after,reads item (by simp),ok_bind]
    by_cases seen : after_tx_id.any (fun after => decide (tx_id item ≤ after)) = true
    · rw [if_pos seen,ih later room,List.filter_cons_of_neg (by simp [seen])]
    · rw [if_neg seen,List.filter_cons_of_pos (by simp [seen]),List.append_cons items item (List.filter _ _)]
      by_cases full : (items ++ [item]).length = limit
      · rw [if_pos full,List.take_left' full]
      · rw [if_neg full,ih later (by rw [List.length_append,List.length_singleton] at full ⊢; omega)]

/-- Entries whose keys begin with the numbers of their transactions are in the order of these. -/
theorem scan_rises {α : Type} {front : Bytes} {entry : α → Bytes × Bytes} {tx_id : α → UInt64} {state : State} {feed : List α}
    (keyed : ∀ item, ∃ rest, (entry item).1 = front ++ ((tx_id item).to_be_bytes ++ rest)) (scanned : scan state front = feed.map entry) :
    feed.Pairwise (tx_id · ≤ tx_id ·) := by
  have entries : (scan state front).Pairwise (fun a b => compare a.1 b.1 = .lt) := Std.ExtTreeMap.ordered_keys_toList.filter _
  rw [scanned,List.pairwise_map] at entries
  refine entries.imp ?_
  intro a b less
  obtain ⟨one,keyA⟩ := keyed a
  obtain ⟨other,keyB⟩ := keyed b
  have size (x : UInt64) : x.toNat < 256 ^ 8 := x.toNat_lt
  rw [keyA,keyB,compare_front,UInt64.to_be_bytes,UInt64.to_be_bytes,Endian.compare_toBe_append (size _) (size _)] at less
  rw [UInt64.le_iff_toNat_le]
  by_contra above
  rw [Nat.compare_eq_gt.mpr (Nat.lt_of_not_le above)] at less
  cases less

/-- A feed whose entries are items at their own keys, read by the loop. -/
theorem Holding.pages {ε α : Type} {front : Bytes} {entry : α → Bytes × Bytes} {fits : α → Prop} {decode : Bytes → Except ε α}
    {tx_id : α → UInt64} {store : Store} (holding : Holding front entry fits store.state)
    (reads : ∀ item, fits item → decode (entry item).2 = .ok item)
    (keyed : ∀ item, ∃ rest, (entry item).1 = front ++ ((tx_id item).to_be_bytes ++ rest)) :
    PagesIff decode tx_id store front
      (fun after limit => collect_after decode tx_id after limit [] (Store.scan_prefix store front)) := by
  obtain ⟨feed,scanned,fine⟩ := holding.scan
  have decodes : ∀ item ∈ feed, decode (entry item).2 = .ok item := fun item member => reads item (fine item member)
  refine ⟨feed,?_,?_⟩
  · rw [feedUnder,scan_prefix_eq,scanned]
    exact mapM_entries decodes
  · intro limit positive
    refine paged_of_pages positive (scan_rises keyed scanned) ?_
    intro after
    show collect_after decode tx_id after limit [] (Store.scan_prefix store front) = _
    rw [scan_prefix_eq,scanned,collect_after_eq decodes after (by simpa using positive),List.nil_append]
    rfl

theorem Fed.under {store : Store} {feed : List ChangeRecord} (fed : Fed store.state feed) :
    feedUnder decode_change store CDC_PREFIX = .ok feed := by
  rw [feedUnder,scan_feed fed]
  exact mapM_entries (fun c member => fed.decodes member)

theorem Fed.paged {store : Store} {feed : List ChangeRecord} (fed : Fed store.state feed) {limit : Nat} (positive : 0 < limit) :
    ∃ items, PagedAs (fun after => store.changes_after after limit) ChangeRecord.tx_id items ∧
      (items = feed ↔ Clean ChangeRecord.tx_id limit feed) := by
  refine paged_of_pages positive ?_ (fun after => changes_after_eq fed after limit)
  refine fed.ordered.imp ?_
  rintro a b (less | ⟨same,-⟩)
  · exact UInt64.le_of_lt less
  · rw [same]
    exact UInt64.le_refl _

section
variable [Hashes]

/-- On a store that was new, after any use of it: paging through the changes,
    through the events of the outbox and through the pending requests yields
    every record once and in order if and only if no page ends inside a
    transaction. -/
theorem paging_complete_iff {io : Io} {path : Path} {options : StoreOptions} {store : Store} {left : Bytes}
    (opened : open_with_options io path options [] = .ok store left) :
    (∀ actions, OrdinaryUse actions →
      let used := ((Site.mk ⟨.Idle store,[]⟩ []).steps actions).session.store
      PagesIff decode_change ChangeRecord.tx_id used CDC_PREFIX used.changes_after) ∧
    (∀ moves, (∀ move ∈ moves, move.Fine (fun key => starts_with key OUTBOX_PREFIX = true) (fun call => call.io.Durable)
        (fun call => call.io.Durable)) →
      let used := (Play.steps outbox ⟨.Idle store,[]⟩ moves).session.store
      PagesIff decode_event (fun event => event.id.tx_id) used OUTBOX_PREFIX used.outbox_events_after) ∧
    (∀ moves, (∀ move ∈ moves, move.Fine (fun key => starts_with key REQUEST_PREFIX = true) RpcCall.Durable RpcTxCall.Durable) →
      let used := (Play.steps rpc ⟨.Idle store,[]⟩ moves).session.store
      PagesIff decode_request (fun request => request.id.tx_id) used REQUEST_PREFIX used.pending_rpc_requests_after) := by
  refine ⟨?_,?_,?_⟩
  · intro actions use
    obtain ⟨new,kept⟩ := new_store_exact opened
    have fed := (steps_exact new kept use).1.fed
    exact ⟨_,fed.under,fun limit positive => fed.paged positive⟩
  · intro moves fine
    have kept := play_invariant outbox_preserved ⟨holding_empty _ _ _,by simp⟩ opened
      (along_of_fine (fun _ _ durable => durable) (fun _ _ durable => durable) (fun _ _ _ => trivial) fine _)
    exact Holding.pages kept.holds.1 (fun event => decode_event_spelling) (fun event => ⟨_,rfl⟩)
  · intro moves fine
    have kept := play_invariant rpc_preserved ⟨holding_empty _ _ _,by simp⟩ opened
      (along_of_fine (fun _ _ durable => durable) (fun _ _ durable => durable) (fun _ _ _ => trivial) fine _)
    exact Holding.pages kept.holds.1 (fun request => decode_request_spelling) (fun request => ⟨_,rfl⟩)

end

/-- One transaction with two deletes. -/
def pairOfDeletes : List Action :=
  [.Call calm .Begin,.Call calm (.Delete [107]),.Call calm (.Delete [108]),.Call calm .Commit]

theorem pair_use : OrdinaryUse pairOfDeletes := by
  apply calls_use
  intro a member
  simp only [pairOfDeletes,List.mem_cons,List.not_mem_nil,or_false] at member
  rcases member with rfl | rfl | rfl | rfl
  · exact ⟨_,_,rfl,trivial⟩
  · exact ⟨_,_,rfl,trivial⟩
  · exact ⟨_,_,rfl,trivial⟩
  · exact ⟨_,_,rfl,trivial⟩

set_option maxRecDepth 20000 in
/-- In pages of one record the second delete is never seen. -/
theorem page_ends_inside_transaction : ∃ store left, @open_with_options crates calm ["a.vstore"] .default [] = .ok store left ∧
    let used := (@Site.steps crates ⟨⟨.Idle store,[]⟩,[]⟩ pairOfDeletes).session.store
    ¬ ∃ items, PagedAs (fun after => used.changes_after after 1) ChangeRecord.tx_id items ∧
      feedUnder decode_change used CDC_PREFIX = .ok items := by
  have evaluated : passes (@open_with_options crates calm ["a.vstore"] .default []) (fun store _ =>
      decide (@Site.feed crates (@Site.steps crates ⟨⟨.Idle store,[]⟩,[]⟩ pairOfDeletes) =
        [⟨1,0,.Delete,[107],none,none⟩,⟨1,1,.Delete,[108],none,none⟩])) = true := by decide +kernel
  obtain ⟨store,left,opened⟩ := @sound_opens crates calm [] ["a.vstore"] .default calm_faultless (.inl rfl)
  rw [opened,passes_ok] at evaluated
  have feed := of_decide_eq_true evaluated
  obtain ⟨new,kept⟩ := @new_store_exact crates _ _ _ _ _ opened
  obtain ⟨exact,-⟩ := @steps_exact crates _ _ new kept pair_use
  have fed := @Site.Exact.fed crates _ exact
  rw [feed] at fed
  refine ⟨store,left,opened,?_⟩
  intro used
  rintro ⟨items,paged,all⟩
  obtain ⟨found,read,exactly⟩ := fed.paged (show 0 < 1 by decide)
  have whole := fed.under
  rw [all] at whole
  have clean := exactly.mp ((read.unique paged).trans (Except.ok.inj whole))
  exact clean 0 _ _ rfl rfl rfl

/-- One event in a transaction with others, and one alone. -/
def twoEvents : List (Move OutboxCall OutboxTxCall) :=
  [.Begin,.CallTx (.EmitEvent calm (some (.filled 7)) [116] [1] 0),.Write calm (.Put [107] [2]),.Commit calm,
    .Call (.EmitOutboxEvent calm (some (.filled 8)) [116] [3] 0)]

def oneRequest : List (Move RpcCall RpcTxCall) :=
  [.Call (.SubmitRpcRequest calm (some (.filled 9)) [109] [1] 0 (some 5))]

theorem new_store_pages : ∃ store left, @open_with_options crates calm ["a.vstore"] .default [] = .ok store left ∧
    (let used := (@Site.steps crates ⟨⟨.Idle store,[]⟩,[]⟩ pairOfDeletes).session.store;
      PagesIff decode_change ChangeRecord.tx_id used CDC_PREFIX used.changes_after) ∧
    (let used := (@Play.steps crates _ _ _ _ (@outbox crates) ⟨.Idle store,[]⟩ twoEvents).session.store;
      PagesIff decode_event (fun event => event.id.tx_id) used OUTBOX_PREFIX used.outbox_events_after) ∧
    (let used := (@Play.steps crates _ _ _ _ (@rpc crates) ⟨.Idle store,[]⟩ oneRequest).session.store;
      PagesIff decode_request (fun request => request.id.tx_id) used REQUEST_PREFIX used.pending_rpc_requests_after) := by
  obtain ⟨store,left,opened⟩ := @sound_opens crates calm [] ["a.vstore"] .default calm_faultless (.inl rfl)
  obtain ⟨changes,events,requests⟩ := @paging_complete_iff crates _ _ _ _ _ opened
  refine ⟨store,left,opened,changes pairOfDeletes pair_use,events twoEvents ?_,requests oneRequest ?_⟩
  · intro move member
    simp only [twoEvents,List.mem_cons,List.not_mem_nil,or_false] at member
    rcases member with rfl | rfl | rfl | rfl | rfl
    · exact trivial
    · exact calm_durable
    · exact ⟨calm_durable,by decide⟩
    · exact calm_durable
    · exact calm_durable
  · intro move member
    simp only [oneRequest,List.mem_singleton] at member
    subst member
    exact calm_durable

end VoodooStore
