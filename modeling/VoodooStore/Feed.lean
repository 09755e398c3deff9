import VoodooStore.Success

/-!
# Reading and pruning the change feed

The three functions that look at the stored changes. `Fed` says that a map
stores a given list of changes; then a scan of their key space lists exactly
these, in order (`scan_feed`), and the functions return what they should of
them (`changes_after_eq`, `changes_for_transaction_eq`, `prune_keys_eq`).
-/
namespace VoodooStore
open Effects
set_option linter.unusedSimpArgs false

/-- The loop of `changes_after`. -/
def collect_changes (after_tx_id : Option UInt64) (limit : Nat) (changes : List ChangeRecord) :
    List (Bytes × Bytes) → Except ChangeFeedError (List ChangeRecord)
  | [] => .ok changes
  | (_,encoded) :: entries => do
    let change ← decode_change encoded
    if after_tx_id.any (fun after => change.tx_id ≤ after) then collect_changes after_tx_id limit changes entries
    else if (changes ++ [change]).length = limit then .ok (changes ++ [change])
    else collect_changes after_tx_id limit (changes ++ [change]) entries

def Store.changes_after (self : Store) (after_tx_id : Option UInt64) (limit : Nat) :
    Except ChangeFeedError (List ChangeRecord) :=
  if limit = 0 then .ok [] else collect_changes after_tx_id limit [] (Store.scan_prefix self CDC_PREFIX)

def Store.changes_for_transaction (self : Store) (tx_id : UInt64) : Except ChangeFeedError (List ChangeRecord) := do
  let changes ← (Store.scan_prefix self (VoodooStore.change_tx_prefix tx_id)).mapM (fun entry => decode_change entry.2)
  return changes.mergeSort (fun a b => a.sequence ≤ b.sequence)

/-- The loop of `prune_changes_through`. -/
def prune_keys (tx_id : UInt64) (limit : Nat) (keys : List Bytes) :
    List (Bytes × Bytes) → Except ChangeFeedError (List Bytes)
  | [] => .ok keys
  | (key,encoded) :: entries => do
    let change ← decode_change encoded
    if tx_id < change.tx_id then .ok keys
    else if (keys ++ [key]).length = limit then .ok (keys ++ [key])
    else prune_keys tx_id limit (keys ++ [key]) entries

section
variable [Hashes]

/-- Deletes of the engine, one after another. -/
def delete_keys (io : Io) : List Bytes → EStateM EngineError Transaction Unit
  | [] => pure ()
  | key :: keys => do
    delete_internal io key
    delete_keys io keys

/-- A transaction on a store; whatever goes wrong, it ends with the block. -/
def in_transaction {α : Type} (begins : Store → Except EngineError Transaction) (body : EStateM EngineError Transaction α) :
    EStateM EngineError Store α :=
  fun store => match begins store with
    | .error error => .error error store
    | .ok tx => match body tx with
      | .ok a tx => .ok a tx.store
      | .error error tx => .error error tx.store

/-- An engine error as one of the feed. -/
def store_error {σ α : Type} (x : EStateM EngineError σ α) : EStateM ChangeFeedError σ α := fun s =>
  match x s with
  | .ok a t => .ok a t
  | .error error t => .error (.Store error) t

def prune_changes_through (io : Io) (tx_id : UInt64) (limit : Nat) : EStateM ChangeFeedError Store Nat := do
  if limit = 0 then return 0 else
  let self ← get
  let keys ← lift (prune_keys tx_id limit [] (Store.scan_prefix self CDC_PREFIX))
  if keys = [] then return 0 else
  store_error (in_transaction begin_without_cdc (do delete_keys io keys; commit io))
  return keys.length

end

/-! ## Order -/

/-- The order of the feed: by transaction, then by position. -/
def ChangeRecord.Before (a b : ChangeRecord) : Prop :=
  a.tx_id < b.tx_id ∨ a.tx_id = b.tx_id ∧ a.sequence < b.sequence

theorem compare_front (front s t : Bytes) : compare (front ++ s) (front ++ t) = compare s t := by
  induction front with
  | nil => rfl
  | cons byte front ih => simp [List.compare_cons_cons,ih]

/-- The keys of the feed are ordered as the changes are. -/
theorem compare_change_key (t u : UInt64) (m n : UInt32) :
    compare (change_key t m) (change_key u n) = (compare t.toNat u.toNat).then (compare m.toNat n.toNat) := by
  have tx (x : UInt64) : x.toNat < 256 ^ 8 := x.toNat_lt
  have position (x : UInt32) : x.toNat < 256 ^ 4 := x.toNat_lt
  have bytes := Endian.compare_toBe_append (position m) (position n) [] []
  rw [List.append_nil,List.append_nil] at bytes
  rw [change_key,change_key, change_tx_prefix, change_tx_prefix,List.append_assoc,List.append_assoc,compare_front,
    UInt64.to_be_bytes,UInt64.to_be_bytes,Endian.compare_toBe_append (tx t) (tx u),UInt32.to_be_bytes,
    UInt32.to_be_bytes,bytes]
  simp

theorem change_key_before {a b : ChangeRecord} (before : a.Before b) :
    compare (change_key a.tx_id a.sequence) (change_key b.tx_id b.sequence) = .lt := by
  rw [compare_change_key]
  rcases before with less | ⟨same,less⟩
  · rw [Nat.compare_eq_lt.mpr (UInt64.lt_iff_toNat_lt.mp less)]
    rfl
  · rw [same,Nat.compare_eq_eq.mpr rfl,Nat.compare_eq_lt.mpr (UInt32.lt_iff_toNat_lt.mp less)]
    rfl

/-! ## Maps that store a feed -/

/-- Where and how a change is stored. -/
def ChangeRecord.entry (c : ChangeRecord) : Bytes × Bytes := (change_key c.tx_id c.sequence,c.spelling)

/-- The key space of the feed holds the given changes and nothing else. -/
structure Fed (state : State) (feed : List ChangeRecord) : Prop where
  stored : ∀ key value, starts_with key CDC_PREFIX = true → (state[key]? = some value ↔ ∃ c ∈ feed, c.entry = (key,value))
  ordered : feed.Pairwise ChangeRecord.Before
  readable : ∀ c ∈ feed, c.Described ∧ ∃ encoded, encode_change c = .ok encoded

theorem change_key_starts (tx_id : UInt64) (sequence : UInt32) : starts_with (change_key tx_id sequence) CDC_PREFIX = true := by
  rw [starts_with,List.isPrefixOf_iff_prefix,change_key, change_tx_prefix,List.append_assoc]
  exact List.prefix_append _ _

/-- A stored change is read back. -/
theorem Fed.decodes {state : State} {feed : List ChangeRecord} (fed : Fed state feed) {c : ChangeRecord} (member : c ∈ feed) :
    decode_change c.entry.2 = .ok c := by
  obtain ⟨described,encoded,spelled⟩ := fed.readable c member
  show decode_change c.spelling = _
  rw [spelling_eq spelled]
  exact decode_change_encode described spelled

/-- A change is known by its key. -/
theorem Fed.key_injective {state : State} {feed : List ChangeRecord} (fed : Fed state feed) {c d : ChangeRecord}
    (inC : c ∈ feed) (inD : d ∈ feed) (same : c.entry.1 = d.entry.1) : c = d := by
  have atC := (fed.stored c.entry.1 c.entry.2 (change_key_starts _ _)).mpr ⟨c,inC,rfl⟩
  have atD := (fed.stored d.entry.1 d.entry.2 (change_key_starts _ _)).mpr ⟨d,inD,rfl⟩
  rw [same,atD] at atC
  have readC := fed.decodes inC
  have readD := fed.decodes inD
  rw [← Option.some.inj atC,readD] at readC
  exact (Except.ok.inj readC).symm

/-- Entries in the order of their keys are known by their members. -/
theorem sorted_entries_eq {first second : List (Bytes × Bytes)} (sortedFirst : first.Pairwise (fun a b => compare a.1 b.1 = .lt))
    (sortedSecond : second.Pairwise (fun a b => compare a.1 b.1 = .lt)) (same : ∀ entry, entry ∈ first ↔ entry ∈ second) :
    first = second := by
  have irreflexive : Std.Irrefl (fun a b : Bytes × Bytes => compare a.1 b.1 = .lt) := ⟨by
    intro a less
    have itself : compare a.1 a.1 = .eq := Std.ReflCmp.compare_self
    rw [itself] at less
    cases less⟩
  have asymmetric : Std.Antisymm (fun a b : Bytes × Bytes => compare a.1 b.1 = .lt) := ⟨by
    intro a b less more
    have back : compare b.1 a.1 = .gt := Std.OrientedCmp.gt_of_lt less
    rw [more] at back
    cases back⟩
  exact sortedFirst.eq_of_mem_iff sortedSecond (fun {entry} => same entry)

/-- A scan of a part of the key space lists the changes stored there, in the order of the feed. -/
theorem scan_part {store : Store} {feed : List ChangeRecord} (fed : Fed store.state feed) {front : Bytes}
    (inside : CDC_PREFIX <+: front) :
    Store.scan_prefix store front = (feed.filter (fun c => starts_with c.entry.1 front)).map ChangeRecord.entry := by
  have entries : (Store.scan_prefix store front).Pairwise (fun a b => compare a.1 b.1 = .lt) :=
    Std.ExtTreeMap.ordered_keys_toList.filter _
  have changes : ((feed.filter (fun c => starts_with c.entry.1 front)).map ChangeRecord.entry).Pairwise
      (fun a b => compare a.1 b.1 = .lt) := by
    rw [List.pairwise_map]
    exact (fed.ordered.filter _).imp change_key_before
  refine sorted_entries_eq entries changes ?_
  rintro ⟨key,value⟩
  rw [Store.scan_prefix,List.mem_filter,Std.ExtTreeMap.mem_toList_iff_getElem?_eq_some,List.mem_map]
  constructor
  · rintro ⟨found,starts⟩
    have own : starts_with key CDC_PREFIX = true := (starts_with_iff _ _).mpr (inside.trans ((starts_with_iff _ _).mp starts))
    obtain ⟨c,member,stored⟩ := (fed.stored key value own).mp found
    refine ⟨c,List.mem_filter.mpr ⟨member,?_⟩,stored⟩
    rw [stored]
    exact starts
  · rintro ⟨c,member,stored⟩
    obtain ⟨inFeed,starts⟩ := List.mem_filter.mp member
    rw [stored] at starts
    have own : starts_with key CDC_PREFIX = true := (starts_with_iff _ _).mpr (inside.trans ((starts_with_iff _ _).mp starts))
    exact ⟨(fed.stored key value own).mpr ⟨c,inFeed,stored⟩,starts⟩

theorem scan_feed {store : Store} {feed : List ChangeRecord} (fed : Fed store.state feed) :
    Store.scan_prefix store CDC_PREFIX = feed.map ChangeRecord.entry := by
  rw [scan_part fed (List.prefix_refl _),List.filter_eq_self.mpr]
  intro c _
  exact change_key_starts c.tx_id c.sequence

/-- The loop of `changes_after`, over changes that can be read. -/
theorem collect_changes_eq {feed : List ChangeRecord} (reads : ∀ c ∈ feed, decode_change c.entry.2 = .ok c)
    (after_tx_id : Option UInt64) {limit : Nat} {changes : List ChangeRecord} (room : changes.length < limit) :
    collect_changes after_tx_id limit changes (feed.map ChangeRecord.entry) =
      .ok ((changes ++ feed.filter (fun c => !after_tx_id.any (fun after => c.tx_id ≤ after))).take limit) := by
  induction feed generalizing changes with
  | nil =>
    rw [List.map_nil,List.filter_nil,List.append_nil,List.take_of_length_le (by omega)]
    rfl
  | cons c feed ih =>
    have later := fun d member => reads d (List.mem_cons_of_mem c member)
    rw [List.map_cons,collect_changes,reads c (by simp),ok_bind]
    by_cases seen : after_tx_id.any (fun after => decide (c.tx_id ≤ after)) = true
    · rw [if_pos seen,ih later room,List.filter_cons_of_neg (by simp [seen])]
    · rw [if_neg seen,List.filter_cons_of_pos (by simp [seen]),List.append_cons changes c (List.filter _ _)]
      by_cases full : (changes ++ [c]).length = limit
      · rw [if_pos full,List.take_left' full]
      · rw [if_neg full,ih later (by rw [List.length_append,List.length_singleton] at full ⊢; omega)]

/-- `changes_after` returns the first changes of the later transactions. -/
theorem changes_after_eq {store : Store} {feed : List ChangeRecord} (fed : Fed store.state feed)
    (after_tx_id : Option UInt64) (limit : Nat) : store.changes_after after_tx_id limit =
      .ok ((feed.filter (fun c => !after_tx_id.any (fun after => c.tx_id ≤ after))).take limit) := by
  unfold Store.changes_after
  by_cases none : limit = 0
  · rw [if_pos none,none,List.take_zero]
  · rw [if_neg none,scan_feed fed,collect_changes_eq (fun c member => fed.decodes member) after_tx_id
      (by rw [List.length_nil]; omega),List.nil_append]

/-- Without a start and with a limit that is large enough, it returns the feed. -/
theorem changes_after_all {store : Store} {feed : List ChangeRecord} (fed : Fed store.state feed) {limit : Nat}
    (enough : feed.length ≤ limit) : store.changes_after none limit = .ok feed := by
  rw [changes_after_eq fed,List.filter_eq_self.mpr (by simp),List.take_of_length_le enough]

theorem mapM_decodes {feed : List ChangeRecord} (reads : ∀ c ∈ feed, decode_change c.entry.2 = .ok c) :
    (feed.map ChangeRecord.entry).mapM (fun entry => decode_change entry.2) = .ok feed := by
  induction feed with
  | nil => rfl
  | cons c feed ih =>
    rw [List.map_cons,List.mapM_cons,reads c (by simp),ih (fun d member => reads d (by simp [member]))]
    rfl

theorem change_key_of_tx (t tx_id : UInt64) (sequence : UInt32) :
    starts_with (change_key t sequence) (VoodooStore.change_tx_prefix tx_id) = true ↔ t = tx_id := by
  rw [starts_with_iff,change_key]
  constructor
  · intro starts
    have front := List.prefix_of_prefix_length_le starts (List.prefix_append (VoodooStore.change_tx_prefix t) _)
      (by simp [VoodooStore.change_tx_prefix])
    have same := front.eq_of_length (by simp [VoodooStore.change_tx_prefix])
    rw [VoodooStore.change_tx_prefix,VoodooStore.change_tx_prefix] at same
    have bytes := List.append_cancel_left same
    have numbers : t.toNat = tx_id.toNat := (Endian.toBe_injective tx_id.toNat_lt t.toNat_lt bytes).symm
    exact UInt64.toNat_inj.mp numbers
  · rintro rfl
    exact List.prefix_append _ _

/-- `changes_for_transaction` returns the changes of the transaction. -/
theorem changes_for_transaction_eq {store : Store} {feed : List ChangeRecord} (fed : Fed store.state feed) (tx_id : UInt64) :
    store.changes_for_transaction tx_id = .ok (feed.filter (fun c => c.tx_id = tx_id)) := by
  have part : feed.filter (fun c => starts_with c.entry.1 (VoodooStore.change_tx_prefix tx_id)) =
      feed.filter (fun c => c.tx_id = tx_id) := by
    refine List.filter_congr ?_
    intro c _
    rw [Bool.eq_iff_iff,decide_eq_true_eq]
    exact change_key_of_tx c.tx_id tx_id c.sequence
  have reads : ∀ c ∈ feed.filter (fun c => c.tx_id = tx_id), decode_change c.entry.2 = .ok c := by
    intro c member
    exact fed.decodes (List.mem_filter.mp member).1
  have sorted : (feed.filter (fun c => c.tx_id = tx_id)).Pairwise (fun a b => decide (a.sequence ≤ b.sequence) = true) := by
    refine List.Pairwise.imp_of_mem ?_ (fed.ordered.filter _)
    intro a b inA inB before
    have sameA := of_decide_eq_true (List.mem_filter.mp inA).2
    have sameB := of_decide_eq_true (List.mem_filter.mp inB).2
    rw [decide_eq_true_eq]
    rcases before with less | ⟨-,less⟩
    · rw [sameA,sameB] at less
      exact absurd less (UInt64.lt_irrefl _)
    · exact UInt32.le_of_lt less
  have inside : CDC_PREFIX <+: change_tx_prefix tx_id := List.prefix_append _ _
  rw [Store.changes_for_transaction,scan_part fed inside,part,mapM_decodes reads,ok_bind,
    List.mergeSort_of_pairwise sorted]
  rfl

/-- The loop of `prune_changes_through`, over changes that can be read. -/
theorem prune_keys_eq {feed : List ChangeRecord} (reads : ∀ c ∈ feed, decode_change c.entry.2 = .ok c)
    (ordered : feed.Pairwise ChangeRecord.Before) (tx_id : UInt64) {limit : Nat} {keys : List Bytes}
    (room : keys.length < limit) : prune_keys tx_id limit keys (feed.map ChangeRecord.entry) =
      .ok ((keys ++ (feed.filter (fun c => c.tx_id ≤ tx_id)).map (fun c => c.entry.1)).take limit) := by
  induction feed generalizing keys with
  | nil =>
    rw [List.map_nil,List.filter_nil,List.map_nil,List.append_nil,List.take_of_length_le (by omega)]
    rfl
  | cons c feed ih =>
    obtain ⟨first,later⟩ := List.pairwise_cons.mp ordered
    have readsLater := fun d member => reads d (List.mem_cons_of_mem c member)
    rw [List.map_cons]
    show prune_keys tx_id limit keys ((c.entry.1,c.entry.2) :: feed.map ChangeRecord.entry) = _
    rw [prune_keys,reads c (by simp),ok_bind]
    by_cases past : tx_id < c.tx_id
    · -- All that follows is of later transactions too.
      have none : (c :: feed).filter (fun c => decide (c.tx_id ≤ tx_id)) = [] := by
        refine List.filter_eq_nil_iff.mpr ?_
        intro d member
        rw [decide_eq_true_eq,UInt64.not_le]
        rcases List.mem_cons.mp member with rfl | inFeed
        · exact past
        · rcases first d inFeed with less | ⟨same,-⟩
          · exact UInt64.lt_trans past less
          · rw [← same]
            exact past
      rw [if_pos past,none,List.map_nil,List.append_nil,List.take_of_length_le (by omega)]
    · have kept : decide (c.tx_id ≤ tx_id) = true := decide_eq_true (UInt64.not_lt.mp past)
      rw [if_neg past,List.filter_cons_of_pos (by exact kept),List.map_cons,List.append_cons keys c.entry.1 (List.map _ _)]
      by_cases full : (keys ++ [c.entry.1]).length = limit
      · rw [if_pos full,List.take_left' full]
      · rw [if_neg full,ih readsLater later (by rw [List.length_append,List.length_singleton] at full ⊢; omega)]

/-! ## How the feed changes -/

theorem apply_operation_other {operation : Operation} {key : Bytes} (state : State) (other : key ≠ operation.key) :
    (apply_operation state operation)[key]? = state[key]? := by
  cases operation with
  | Put own value =>
    have distinct : ¬ own = key := fun same => other same.symm
    simp [apply_operation,Std.ExtTreeMap.getElem?_insert,distinct]
  | Delete own =>
    have distinct : ¬ own = key := fun same => other same.symm
    simp [apply_operation,Std.ExtTreeMap.getElem?_erase,distinct]

/-- What happens outside the key space of the feed leaves it alone. -/
theorem Fed.other {state : State} {feed : List ChangeRecord} (fed : Fed state feed) {operation : Operation}
    (outside : starts_with operation.key CDC_PREFIX = false) : Fed (apply_operation state operation) feed := by
  refine ⟨?_,fed.ordered,fed.readable⟩
  intro key value own
  rw [apply_operation_other state (by rintro rfl; rw [outside] at own; cases own)]
  exact fed.stored key value own

theorem Fed.others {state : State} {feed : List ChangeRecord} (fed : Fed state feed) {operations : List Operation}
    (outside : ∀ o ∈ operations, starts_with o.key CDC_PREFIX = false) : Fed (apply_operations state operations) feed := by
  induction operations generalizing state with
  | nil => exact fed
  | cons o operations ih =>
    exact ih (fed.other (outside o (by simp))) (fun other member => outside other (by simp [member]))

/-- A change that comes after all others is stored behind them. -/
theorem Fed.store {state : State} {feed : List ChangeRecord} (fed : Fed state feed) {c : ChangeRecord}
    (last : ∀ d ∈ feed, d.Before c) (described : c.Described) (encodes : ∃ encoded, encode_change c = .ok encoded) :
    Fed (apply_operation state c.store) (feed ++ [c]) := by
  have fresh : ∀ d ∈ feed, d.entry.1 ≠ c.entry.1 := by
    intro d member same
    have before := change_key_before (last d member)
    have itself : compare c.entry.1 c.entry.1 = .eq := Std.ReflCmp.compare_self
    have less : compare d.entry.1 c.entry.1 = .lt := before
    rw [same,itself] at less
    cases less
  refine ⟨?_,?_,?_⟩
  · intro key value own
    simp only [ChangeRecord.store,apply_operation,Std.ExtTreeMap.getElem?_insert,Std.LawfulEqOrd.compare_eq_iff_eq]
    by_cases here : change_key c.tx_id c.sequence = key
    · rw [if_pos here]
      constructor
      · intro same
        refine ⟨c,by simp,?_⟩
        rw [ChangeRecord.entry,here,Option.some.inj same]
      · rintro ⟨d,member,stored⟩
        rcases List.mem_append.mp member with old | new
        · refine absurd ?_ (fresh d old)
          rw [stored]
          exact here.symm
        · rw [List.mem_singleton.mp new] at stored
          exact congrArg some (congrArg Prod.snd stored)
    · rw [if_neg here,fed.stored key value own]
      constructor
      · rintro ⟨d,member,stored⟩
        exact ⟨d,by simp [member],stored⟩
      · rintro ⟨d,member,stored⟩
        rcases List.mem_append.mp member with old | new
        · exact ⟨d,old,stored⟩
        · rw [List.mem_singleton.mp new] at stored
          exact absurd (congrArg Prod.fst stored) here
  · refine List.pairwise_append.mpr ⟨fed.ordered,List.pairwise_singleton _ _,?_⟩
    intro d member e new
    rw [List.mem_singleton.mp new]
    exact last d member
  · intro d member
    rcases List.mem_append.mp member with old | new
    · exact fed.readable d old
    · rw [List.mem_singleton.mp new]
      exact ⟨described,encodes⟩

theorem Fed.stores {state : State} {feed changes : List ChangeRecord} (fed : Fed state feed)
    (last : ∀ d ∈ feed, ∀ c ∈ changes, d.Before c) (ordered : changes.Pairwise ChangeRecord.Before)
    (readable : ∀ c ∈ changes, c.Described ∧ ∃ encoded, encode_change c = .ok encoded) :
    Fed (apply_operations state (changes.map ChangeRecord.store)) (feed ++ changes) := by
  induction changes generalizing state feed with
  | nil =>
    rw [List.append_nil]
    exact fed
  | cons c changes ih =>
    obtain ⟨first,later⟩ := List.pairwise_cons.mp ordered
    obtain ⟨described,encodes⟩ := readable c (by simp)
    rw [List.append_cons]
    refine ih (fed.store (fun d member => last d member c (by simp)) described encodes) ?_ later ?_
    · intro d member e inChanges
      rcases List.mem_append.mp member with old | new
      · exact last d old e (by simp [inChanges])
      · rw [List.mem_singleton.mp new]
        exact first e inChanges
    · intro e inChanges
      exact readable e (by simp [inChanges])

theorem apply_deletes (state : State) (keys : List Bytes) (key : Bytes) :
    (apply_operations state (keys.map .Delete))[key]? = if key ∈ keys then none else state[key]? := by
  induction keys generalizing state with
  | nil => simp [apply_operations]
  | cons first keys ih =>
    have step : apply_operations state ((first :: keys).map .Delete) =
        apply_operations (state.erase first) (keys.map .Delete) := rfl
    rw [step,ih]
    by_cases later : key ∈ keys
    · simp [later]
    · by_cases here : first = key
      · simp [here]
      · have distinct : key ≠ first := fun same => here same.symm
        simp [later,here,distinct,Std.ExtTreeMap.getElem?_erase]

/-- Deleting keys of the feed removes the changes stored there. -/
theorem Fed.deletes {state : State} {feed : List ChangeRecord} (fed : Fed state feed) (keys : List Bytes) :
    Fed (apply_operations state (keys.map .Delete)) (feed.filter (fun c => c.entry.1 ∉ keys)) := by
  refine ⟨?_,fed.ordered.filter _,fun c member => fed.readable c (List.mem_filter.mp member).1⟩
  intro key value own
  rw [apply_deletes]
  by_cases gone : key ∈ keys
  · rw [if_pos gone]
    constructor
    · intro absurd
      cases absurd
    · rintro ⟨c,member,stored⟩
      have kept := of_decide_eq_true (List.mem_filter.mp member).2
      rw [stored] at kept
      exact absurd gone kept
  · rw [if_neg gone,fed.stored key value own]
    constructor
    · rintro ⟨c,member,stored⟩
      refine ⟨c,List.mem_filter.mpr ⟨member,decide_eq_true ?_⟩,stored⟩
      rw [stored]
      exact gone
    · rintro ⟨c,member,stored⟩
      exact ⟨c,(List.mem_filter.mp member).1,stored⟩

section
variable [Hashes]

/-! ## The changes of a transaction -/

/-- The change by which the feed describes the operation at position `i`. -/
def describe (tx_id : UInt64) (i : Nat) : Operation → ChangeRecord
  | .Put key value => ⟨tx_id,.ofNat i,.Put,key,some (.ofNat value.length),some (Hashes.sha256 value)⟩
  | .Delete key => ⟨tx_id,.ofNat i,.Delete,key,none,none⟩

/-- What a transaction tells the feed: its operations outside the feed's own
    key space, in the order in which they were staged, numbered from zero. -/
def changesOf (tx_id : UInt64) (operations : List Operation) : List ChangeRecord :=
  (operations.filter (fun o => !starts_with o.key CDC_PREFIX)).zipIdx.map (fun entry => describe tx_id entry.2 entry.1)

theorem change_for_eq (tx_id : UInt64) (i : Nat) (operation : Operation) : change_for tx_id (.ofNat i) operation =
    if starts_with operation.key CDC_PREFIX then none else some (describe tx_id i operation) := by
  cases operation <;> rfl

theorem changesFrom_eq (tx_id : UInt64) (n : Nat) (operations : List Operation) : changesFrom tx_id n operations =
    ((operations.filter (fun o => !starts_with o.key CDC_PREFIX)).zipIdx n).map (fun entry => describe tx_id entry.2 entry.1) := by
  induction operations generalizing n with
  | nil => rfl
  | cons o operations ih =>
    rw [changesFrom,change_for_eq]
    by_cases own : starts_with o.key CDC_PREFIX = true
    · rw [if_pos own,List.filter_cons_of_neg (by simp [own])]
      exact ih n
    · rw [if_neg own,List.filter_cons_of_pos (by simp [own]),List.zipIdx_cons,List.map_cons]
      exact congrArg (describe tx_id n o :: ·) (ih (n+1))

theorem changesOf_eq (tx_id : UInt64) (operations : List Operation) :
    changesOf tx_id operations = changesFrom tx_id 0 operations := (changesFrom_eq tx_id 0 operations).symm

/-- The changes of a transaction carry its number, rising positions and what their kind asks for. -/
theorem changesFrom_ordered {tx_id : UInt64} {n : Nat} {operations : List Operation}
    (countable : n + (changesFrom tx_id n operations).length < 2 ^ 32) :
    (changesFrom tx_id n operations).Pairwise ChangeRecord.Before ∧
      ∀ c ∈ changesFrom tx_id n operations, c.tx_id = tx_id ∧ n ≤ c.sequence.toNat ∧ c.Described := by
  induction operations generalizing n with
  | nil => exact ⟨.nil,by simp [changesFrom]⟩
  | cons o operations ih =>
    rw [changesFrom] at countable ⊢
    cases found : change_for tx_id (.ofNat n) o with
    | none =>
      rw [found] at countable
      exact ih countable
    | some change =>
      rw [found] at countable
      dsimp only at countable ⊢
      rw [List.length_cons] at countable
      obtain ⟨ordered,facts⟩ := ih (show n + 1 + _ < 2 ^ 32 by omega)
      obtain ⟨sameTx,position,-,described⟩ := change_for_some found
      have number : change.sequence.toNat = n := by rw [position]; exact u32_of_length (by omega)
      refine ⟨List.pairwise_cons.mpr ⟨?_,ordered⟩,?_⟩
      · intro c member
        obtain ⟨laterTx,later,-⟩ := facts c member
        exact .inr ⟨sameTx.trans laterTx.symm,UInt32.lt_iff_toNat_lt.mpr (by omega)⟩
      · intro c member
        rcases List.mem_cons.mp member with rfl | inRest
        · exact ⟨sameTx,by omega,described⟩
        · obtain ⟨laterTx,later,describedLater⟩ := facts c inRest
          exact ⟨laterTx,by omega,describedLater⟩

end

end VoodooStore
